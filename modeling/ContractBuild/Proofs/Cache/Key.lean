import Mathlib
import ContractBuild.Cache.Key
import ContractBuild.Proofs.Digest.Sha256
import ContractBuild.Proofs.Frozen.Canonical

/-!
The bytes under a cache key tell everything apart that a build depends on: the frozen modules, the
flags, the version of the toolchain and the optimizer.
-/

namespace ContractBuild

open ContractBuild.Text ContractBuild.Text.Utf8 ContractBuild.Digest

/-! ### Flags -/

namespace BuildFlags

lemma argument_eq (arg : String) : argument arg =
    asciiByte ';' :: (encode (toString (encode arg).length) ++ asciiByte ':' :: encode arg) := by
  have htext : s!";{(encode arg).length}:" =
      String.singleton ';' ++ toString (encode arg).length ++ String.singleton ':' := rfl
  rw [argument, htext, encode_append, encode_append, encode_singleton (by decide),
    encode_singleton (by decide)]
  simp

lemma flatMap_argument_inj {args args' : List String}
    (h : args.flatMap argument = args'.flatMap argument) : args = args' := by
  induction args generalizing args' with
  | nil =>
    cases args' with
    | nil => rfl
    | cons a' args' => rw [List.flatMap_cons, argument_eq] at h; cases h
  | cons a args ih =>
    cases args' with
    | nil => rw [List.flatMap_cons, argument_eq] at h; cases h
    | cons a' args' =>
      rw [List.flatMap_cons, List.flatMap_cons, argument_eq, argument_eq] at h
      simp only [List.cons_append, List.append_assoc] at h
      obtain ⟨hlen, h⟩ := encode_delimiter (by decide) (not_mem_toString (by decide) _)
        (not_mem_toString (by decide) _) (List.cons.inj h).2
      obtain ⟨ha, h⟩ := List.append_inj h (toString_injective hlen)
      rw [encode_injective ha, ih h]

lemma mode_text_injective {m m' : Mode} (h : m.text = m'.text) : m = m' := by
  cases m <;> cases m' <;> first | rfl | exact absurd h (by decide)

lemma not_mem_mode_text (m : Mode) : ';' ∉ m.text.toList := by
  cases m <;> decide

lemma toString_bool_injective {b b' : Bool} (h : toString b = toString b') : b = b' := by
  cases b <;> cases b' <;> first | rfl | exact absurd h (by decide)

lemma not_mem_toString_bool (b : Bool) : ';' ∉ (toString b).toList := by
  cases b <;> decide

lemma canonical_eq (f : BuildFlags) : f.canonical =
    encode ("mode=" ++ f.mode.text) ++ asciiByte ';' ::
      (encode ("debug-symbols=" ++ toString f.debugSymbols) ++ asciiByte ';' ::
        (encode ("args=" ++ toString f.extraArgs.length) ++ f.extraArgs.flatMap argument)) := by
  have htext : s!"mode={f.mode.text};debug-symbols={f.debugSymbols};args={f.extraArgs.length}" =
      "mode=" ++ f.mode.text ++ ";debug-symbols=" ++ toString f.debugSymbols ++ ";args=" ++
        toString f.extraArgs.length := rfl
  have hdebug : encode ";debug-symbols=" = asciiByte ';' :: encode "debug-symbols=" := by decide
  have hargs : encode ";args=" = asciiByte ';' :: encode "args=" := by decide
  rw [canonical, htext]
  simp only [encode_append, hdebug, hargs, List.append_assoc, List.cons_append]

/-- The list of arguments begins with a delimiter or not at all. -/
lemma flatMap_argument_head (args : List String) :
    args.flatMap argument = [] ∨ (args.flatMap argument).head? = some (asciiByte ';') := by
  cases args with
  | nil => exact .inl rfl
  | cons a args =>
    rw [List.flatMap_cons, argument_eq]
    exact .inr rfl

lemma canonical_inj {f f' : BuildFlags} (h : f.canonical = f'.canonical) : f = f' := by
  have hcount : ∀ n : ℕ, asciiByte ';' ∉ encode ("args=" ++ toString n) := fun n hm =>
    not_mem_labelled (by decide) (not_mem_toString (by decide) n)
      (mem_of_asciiByte_mem (by decide) hm)
  rw [canonical_eq, canonical_eq] at h
  obtain ⟨hmode, h⟩ := encode_delimiter (by decide)
    (not_mem_labelled (by decide) (not_mem_mode_text _))
    (not_mem_labelled (by decide) (not_mem_mode_text _)) h
  obtain ⟨hdebug, h⟩ := encode_delimiter (by decide)
    (not_mem_labelled (by decide) (not_mem_toString_bool _))
    (not_mem_labelled (by decide) (not_mem_toString_bool _)) h
  obtain ⟨-, h⟩ := first_delimiter_or_end (hcount _) (hcount _) (flatMap_argument_head _)
    (flatMap_argument_head _) h
  rcases f with ⟨mode, debug, args⟩
  rcases f' with ⟨mode', debug', args'⟩
  simp only at hmode hdebug h
  rw [mode_text_injective ((String.append_right_inj _).mp hmode),
    toString_bool_injective ((String.append_right_inj _).mp hdebug), flatMap_argument_inj h]

end BuildFlags

/-! ### Fields -/

namespace Cache

/-- A number that fits is known by its low bytes. -/
lemma littleEndian_inj {count n m : ℕ} (hn : n < 256 ^ count) (hm : m < 256 ^ count)
    (h : littleEndian count n = littleEndian count m) : n = m := by
  induction count generalizing n m with
  | zero => omega
  | succ count ih =>
    rw [littleEndian, littleEndian] at h
    obtain ⟨hlow, hhigh⟩ := List.cons.inj h
    have hmod : n % 256 = m % 256 := by simpa using congrArg UInt8.toNat hlow
    have hdiv : n / 256 = m / 256 := by
      rw [pow_succ] at hn hm
      exact ih (Nat.div_lt_of_lt_mul (by omega)) (Nat.div_lt_of_lt_mul (by omega)) hhigh
    omega

lemma field_append_inj {a a' r r' : Bytes} (ha : a.length < 2 ^ 64) (ha' : a'.length < 2 ^ 64)
    (h : field a ++ r = field a' ++ r') : a = a' ∧ r = r' := by
  rw [field, field, List.append_assoc, List.append_assoc] at h
  obtain ⟨hlen, h⟩ := List.append_inj h (by rw [length_littleEndian, length_littleEndian])
  have hlen : a.length = a'.length :=
    littleEndian_inj (by norm_num; omega) (by norm_num; omega) hlen
  exact List.append_inj h hlen

lemma length_field (a : Bytes) : (field a).length = 8 + a.length := by
  rw [field, List.length_append, length_littleEndian]

/-- As many fields hold the same bytes if they are the same. -/
lemma flatMap_field_inj {as as' : List Bytes} (hlen : as.length = as'.length)
    (hfit : ∀ a ∈ as, a.length < 2 ^ 64) (hfit' : ∀ a ∈ as', a.length < 2 ^ 64)
    (h : as.flatMap field = as'.flatMap field) : as = as' := by
  induction as generalizing as' with
  | nil =>
    cases as' with
    | nil => rfl
    | cons a' as' => cases hlen
  | cons a as ih =>
    cases as' with
    | nil => cases hlen
    | cons a' as' =>
      rw [List.forall_mem_cons] at hfit hfit'
      rw [List.flatMap_cons, List.flatMap_cons] at h
      obtain ⟨ha, h⟩ := field_append_inj hfit.1 hfit'.1 h
      rw [ha, ih (Nat.succ.inj hlen) hfit.2 hfit'.2 h]

/-- What a key is made from. -/
structure Inputs where
  frozen : Frozen
  flags : BuildFlags
  toolchain : String
  optimizer : String

namespace Inputs

def preimage (i : Inputs) : Bytes := Cache.preimage i.frozen i.flags i.toolchain i.optimizer

def key (i : Inputs) : String := keyOf i.frozen i.flags i.toolchain i.optimizer

/-- What the bytes under a key are put together from, after the name of the format. -/
def fields (i : Inputs) : List Bytes :=
  [i.frozen.canonical, i.flags.canonical, encode i.toolchain, encode i.optimizer]

lemma preimage_eq (i : Inputs) :
    i.preimage = field (encode "contract-forge-cache-v1") ++ i.fields.flatMap field := rfl

/-- The lengths of the fields fit into words. -/
def Fits (i : Inputs) : Prop := ∀ a ∈ i.fields, a.length < 2 ^ 64

lemma fits_of_length_preimage {i : Inputs} (h : i.preimage.length < 2 ^ 64) : i.Fits := by
  intro a ha
  obtain ⟨before, after, hsplit⟩ := List.append_of_mem ha
  rw [preimage_eq, hsplit, List.flatMap_append, List.flatMap_cons] at h
  simp only [List.length_append, length_field] at h
  omega

lemma fields_inj {i j : Inputs} (hi : i.Fits) (hj : j.Fits) (h : i.preimage = j.preimage) :
    i.frozen.canonical = j.frozen.canonical ∧ i.flags.canonical = j.flags.canonical ∧
      encode i.toolchain = encode j.toolchain ∧ encode i.optimizer = encode j.optimizer := by
  rw [preimage_eq, preimage_eq] at h
  have hlength : i.fields.length = j.fields.length := by simp only [fields, List.length_cons]
  have hfields : i.fields = j.fields :=
    flatMap_field_inj hlength hi hj (List.append_cancel_left h)
  simpa only [fields, List.cons.injEq, and_true] using hfields

/-- Inputs with the same bytes under their keys are the same, given one base library. -/
lemma preimage_inj {i j : Inputs} (hi : i.frozen.IsPlain) (hj : j.frozen.IsPlain)
    (hbase : i.frozen.base = j.frozen.base) (hfit : i.preimage.length < 2 ^ 64)
    (h : i.preimage = j.preimage) : i = j := by
  obtain ⟨hfrozen, hflags, htoolchain, hoptimizer⟩ :=
    fields_inj (fits_of_length_preimage hfit) (fits_of_length_preimage (h ▸ hfit)) h
  rcases i with ⟨frozen, flags, toolchain, optimizer⟩
  rcases j with ⟨frozen', flags', toolchain', optimizer'⟩
  simp only at hi hj hbase hfrozen hflags htoolchain hoptimizer
  rw [Frozen.canonical_inj hi hj hbase hfrozen, BuildFlags.canonical_inj hflags,
    encode_injective htoolchain, encode_injective hoptimizer]

/-- **The bytes under a key tell the inputs apart**, as far as the canonical bytes of the frozen
modules do: whatever the arguments, versions and names look like, no field can be taken for part of
another. -/
theorem preimage_determines_inputs {i j : Inputs} (hi : i.Fits) (hj : j.Fits)
    (h : i.preimage = j.preimage) :
    i.frozen.canonical = j.frozen.canonical ∧ i.flags = j.flags ∧ i.toolchain = j.toolchain ∧
      i.optimizer = j.optimizer := by
  obtain ⟨hfrozen, hflags, htoolchain, hoptimizer⟩ := fields_inj hi hj h
  exact ⟨hfrozen, BuildFlags.canonical_inj hflags, encode_injective htoolchain,
    encode_injective hoptimizer⟩

/-- Inputs with an argument that reads like two, on a base library whose version has a line in it
that names a module. -/
def tangled : Inputs where
  frozen := ⟨"app", [], ⟨"base", "1\nprovides io", []⟩⟩
  flags := ⟨.size, true, ["a;1:b", "", "é;"]⟩
  toolchain := "2.0;args=1"
  optimizer := "opt"

/-- The same inputs, on a base library that provides the module. -/
def tangledAgain : Inputs where
  frozen := ⟨"app", [], ⟨"base", "1", ["io"]⟩⟩
  flags := ⟨.size, !false, ["a" ++ ";1:" ++ "b"] ++ ["", "é;"]⟩
  toolchain := "2.0" ++ ";args=1"
  optimizer := "opt"

theorem preimage_tangled : tangled.Fits ∧ tangledAgain.Fits ∧ tangled.frozen ≠ tangledAgain.frozen ∧
    tangled.preimage = tangledAgain.preimage ∧ tangled.flags = tangledAgain.flags := by
  have hfits : tangled.Fits := by unfold Fits; decide +kernel
  have hfits' : tangledAgain.Fits := by unfold Fits; decide +kernel
  have hsame : tangled.preimage = tangledAgain.preimage := by decide +kernel
  exact ⟨hfits, hfits', by decide, hsame, (preimage_determines_inputs hfits hfits' hsame).2.1⟩

/-- No name has a line feed in it, and the lengths fit into words. -/
structure IsLegible (i : Inputs) : Prop where
  entry : '\n' ∉ i.frozen.entry.toList
  names : ∀ m ∈ i.frozen.modules, '\n' ∉ m.name.toList
  length : i.preimage.length < 2 ^ 64

end Inputs

end Cache

end ContractBuild

import Mathlib
import ContractBuild.Frozen.Basic
import ContractBuild.Proofs.Text.Delimited

/-!
Canonical bytes tell frozen projects apart.

The line of a module ends at the first line feed, and its fields stand between its last blanks; it
gives the length of the content, which may be anything.
-/

namespace ContractBuild.Frozen

open ContractBuild.Text ContractBuild.Text.Utf8

/-- A module whose line can be taken apart: its name may have blanks in it, its digest may not. -/
structure Module.IsPlain (m : Module) : Prop where
  name : '\n' ∉ m.name.toList
  digest : '\n' ∉ m.digest.toList
  digest_blank : ' ' ∉ m.digest.toList

namespace Module

/-- The digit that tells packages from other modules. -/
def flag (m : Module) : ℕ := if m.isPackage then 1 else 0

/-- The line of a module, without the line feed. -/
def line (m : Module) : String :=
  s!"module {m.name} {m.flag} {m.digest} {m.content.length}"

lemma canonical_eq (m : Module) :
    m.canonical = encode m.line ++ asciiByte '\n' :: (m.content ++ [10]) := by
  have hline : s!"module {m.name} {if m.isPackage then 1 else 0} {m.digest} {m.content.length}\n" =
      m.line ++ String.singleton '\n' := rfl
  rw [canonical, hline, encode_append, encode_singleton (by decide)]
  simp

lemma toList_line (m : Module) : m.line.toList =
    (("module ".toList ++ m.name.toList ++ ' ' :: (toString m.flag).toList) ++
      ' ' :: m.digest.toList) ++ ' ' :: (toString m.content.length).toList := by
  have hline : m.line = "module " ++ m.name ++ " " ++ toString m.flag ++ " " ++ m.digest ++ " " ++
      toString m.content.length := rfl
  have hblank : " ".toList = [' '] := rfl
  simp only [hline, String.toList_append, hblank]
  simp

lemma IsPlain.not_mem_line {m : Module} (hm : m.IsPlain) : '\n' ∉ m.line.toList := by
  rw [toList_line]
  simp only [List.mem_append, List.mem_cons, not_or]
  exact ⟨⟨⟨⟨by decide, hm.name⟩, by decide, not_mem_toString (by decide) _⟩, by decide, hm.digest⟩,
    by decide, not_mem_toString (by decide) _⟩

lemma isPackage_of_flag {m m' : Module} (h : m.flag = m'.flag) : m.isPackage = m'.isPackage := by
  unfold flag at h
  cases hp : m.isPackage
  · cases hp' : m'.isPackage
    · rfl
    · simp [hp, hp'] at h
  · cases hp' : m'.isPackage
    · simp [hp, hp'] at h
    · rfl

/-- The fields of a line are found from its end. -/
lemma fields_of_line {m m' : Module} (hm : m.IsPlain) (hm' : m'.IsPlain) (h : m.line = m'.line) :
    m.name = m'.name ∧ m.isPackage = m'.isPackage ∧ m.digest = m'.digest ∧
      m.content.length = m'.content.length := by
  have h := congrArg String.toList h
  rw [toList_line, toList_line] at h
  obtain ⟨h, hlen⟩ := last_delimiter (not_mem_toString (by decide) _)
    (not_mem_toString (by decide) _) h
  obtain ⟨h, hdigest⟩ := last_delimiter hm.digest_blank hm'.digest_blank h
  obtain ⟨h, hflag⟩ := last_delimiter (not_mem_toString (by decide) _)
    (not_mem_toString (by decide) _) h
  refine ⟨String.toList_inj.mp (List.append_cancel_left h),
    isPackage_of_flag (toString_injective (String.toList_inj.mp hflag)),
    String.toList_inj.mp hdigest, toString_injective (String.toList_inj.mp hlen)⟩

lemma canonical_append_inj {m m' : Module} {r r' : Bytes} (hm : m.IsPlain) (hm' : m'.IsPlain)
    (h : m.canonical ++ r = m'.canonical ++ r') : m = m' ∧ r = r' := by
  rw [canonical_eq, canonical_eq, List.append_assoc, List.append_assoc, List.cons_append,
    List.cons_append] at h
  obtain ⟨hline, hrest⟩ := encode_delimiter (by decide) hm.not_mem_line hm'.not_mem_line h
  obtain ⟨hname, hpackage, hdigest, hlen⟩ := fields_of_line hm hm' hline
  rw [List.append_assoc, List.append_assoc] at hrest
  obtain ⟨hcontent, hrest⟩ := List.append_inj hrest hlen
  refine ⟨?_, (List.cons.inj hrest).2⟩
  rcases m with ⟨name, digest, content, isPackage⟩
  rcases m' with ⟨name', digest', content', isPackage'⟩
  simp only at hname hpackage hdigest hcontent
  rw [hname, hpackage, hdigest, hcontent]

lemma canonical_ne_nil (m : Module) : m.canonical ≠ [] := by
  rw [canonical_eq]
  simp

/-- Modules one after the other are told apart without their number. -/
lemma flatMap_canonical_inj {ms ms' : List Module} (hms : ∀ m ∈ ms, m.IsPlain)
    (hms' : ∀ m ∈ ms', m.IsPlain) (h : ms.flatMap canonical = ms'.flatMap canonical) :
    ms = ms' := by
  induction ms generalizing ms' with
  | nil =>
    cases ms' with
    | nil => rfl
    | cons m' ms' =>
      rw [List.flatMap_nil, List.flatMap_cons] at h
      exact absurd (List.append_eq_nil_iff.mp h.symm).1 m'.canonical_ne_nil
  | cons m ms ih =>
    cases ms' with
    | nil =>
      rw [List.flatMap_nil, List.flatMap_cons] at h
      exact absurd (List.append_eq_nil_iff.mp h).1 m.canonical_ne_nil
    | cons m' ms' =>
      rw [List.flatMap_cons, List.flatMap_cons] at h
      obtain ⟨hm, h⟩ := canonical_append_inj (hms m List.mem_cons_self)
        (hms' m' List.mem_cons_self) h
      rw [hm, ih (fun n hn => hms n (List.mem_cons_of_mem _ hn))
        (fun n hn => hms' n (List.mem_cons_of_mem _ hn)) h]

end Module

/-- A frozen project whose names have no line feeds. -/
structure IsPlain (f : Frozen) : Prop where
  entry : '\n' ∉ f.entry.toList
  modules : ∀ m ∈ f.modules, m.IsPlain

/-- With one base library, canonical bytes tell projects apart. -/
lemma canonical_inj {f f' : Frozen} (hf : f.IsPlain) (hf' : f'.IsPlain) (hbase : f.base = f'.base)
    (h : f.canonical = f'.canonical) : f = f' := by
  unfold canonical at h
  rw [hbase] at h
  simp only [List.append_assoc, List.append_cancel_left_eq] at h
  obtain ⟨he, hmodules⟩ := encode_line_inj (not_mem_labelled (by decide) hf.entry)
    (not_mem_labelled (by decide) hf'.entry) h
  have hms := Module.flatMap_canonical_inj hf.modules hf'.modules hmodules
  have hname : f.entry = f'.entry := (String.append_right_inj _).mp he
  rcases f with ⟨entry, modules, base⟩
  rcases f' with ⟨entry', modules', base'⟩
  simp only at hbase hms hname
  rw [hbase, hms, hname]

end ContractBuild.Frozen

/-! ### Base libraries -/

namespace ContractBuild

open ContractBuild.Text ContractBuild.Text.Utf8

namespace BaseLibrary

/-- A base library whose lines can be taken apart: its version may have blanks in it, its name may
not. -/
structure IsPlain (b : BaseLibrary) : Prop where
  name : '\n' ∉ b.name.toList
  name_blank : ' ' ∉ b.name.toList
  version : '\n' ∉ b.version.toList
  provides : ∀ n ∈ b.provides, '\n' ∉ n.toList

/-- The line of a base library, without the line feed. -/
def line (b : BaseLibrary) : String := s!"base {b.name} {b.version}"

lemma toList_line (b : BaseLibrary) :
    b.line.toList = "base ".toList ++ (b.name.toList ++ ' ' :: b.version.toList) := by
  have hline : b.line = "base " ++ b.name ++ " " ++ b.version := rfl
  have hblank : " ".toList = [' '] := rfl
  simp only [hline, String.toList_append, hblank, List.append_assoc, List.cons_append,
    List.nil_append]

lemma IsPlain.not_mem_line {b : BaseLibrary} (hb : b.IsPlain) : '\n' ∉ b.line.toList := by
  rw [toList_line]
  simp only [List.mem_append, List.mem_cons, not_or]
  exact ⟨by decide, hb.name, by decide, hb.version⟩

/-- The name ends at the first blank. -/
lemma fields_of_line {b b' : BaseLibrary} (hb : b.IsPlain) (hb' : b'.IsPlain)
    (h : b.line = b'.line) : b.name = b'.name ∧ b.version = b'.version := by
  have h := congrArg String.toList h
  rw [toList_line, toList_line] at h
  obtain ⟨hname, hversion⟩ :=
    first_delimiter hb.name_blank hb'.name_blank (List.append_cancel_left h)
  exact ⟨String.toList_inj.mp hname, String.toList_inj.mp hversion⟩

end BaseLibrary

namespace Frozen

/-- The lines of the provided modules end where the line of the entry begins. -/
lemma provides_entry_inj {names names' : List String} {first second : String} {r r' : Bytes}
    (hnames : ∀ n ∈ names, '\n' ∉ n.toList) (hnames' : ∀ n ∈ names', '\n' ∉ n.toList)
    (hfirst : '\n' ∉ first.toList) (hsecond : '\n' ∉ second.toList)
    (h : names.flatMap providesLine ++ (encode s!"entry {first}\n" ++ r) =
      names'.flatMap providesLine ++ (encode s!"entry {second}\n" ++ r')) :
    names = names' ∧ first = second ∧ r = r' := by
  have hline : ∀ {e : String}, '\n' ∉ e.toList → '\n' ∉ ("entry " ++ e).toList :=
    not_mem_labelled (by decide)
  have hprovides : ∀ {n : String}, '\n' ∉ n.toList → '\n' ∉ ("provides " ++ n).toList :=
    not_mem_labelled (by decide)
  -- a line tells by its first letter what it is about
  have hapart : ∀ {e n : String}, "entry " ++ e ≠ "provides " ++ n := by
    intro e n he
    have hhead := congrArg (·.toList.head?) he
    simp [String.toList_append] at hhead
  induction names generalizing names' with
  | nil =>
    cases names' with
    | nil =>
      obtain ⟨he, hr⟩ := encode_line_inj (hline hfirst) (hline hsecond) h
      exact ⟨rfl, (String.append_right_inj _).mp he, hr⟩
    | cons n' names' =>
      rw [List.flatMap_nil, List.flatMap_cons, List.append_assoc] at h
      exact absurd (encode_line_inj (hline hfirst) (hprovides (hnames' n' List.mem_cons_self)) h).1
        hapart
  | cons n names ih =>
    cases names' with
    | nil =>
      rw [List.flatMap_nil, List.flatMap_cons, List.append_assoc] at h
      exact absurd
        (encode_line_inj (hline hsecond) (hprovides (hnames n List.mem_cons_self)) h.symm).1 hapart
    | cons n' names' =>
      rw [List.flatMap_cons, List.flatMap_cons, List.append_assoc, List.append_assoc] at h
      obtain ⟨hn, h⟩ := encode_line_inj (hprovides (hnames n List.mem_cons_self))
        (hprovides (hnames' n' List.mem_cons_self)) h
      obtain ⟨hrest, hsame⟩ := ih (fun m hm => hnames m (List.mem_cons_of_mem _ hm))
        (fun m hm => hnames' m (List.mem_cons_of_mem _ hm)) h
      exact ⟨by rw [(String.append_right_inj _).mp hn, hrest], hsame⟩

/-- **Canonical bytes tell projects apart**, whatever their modules contain and whatever base
library they are built on. -/
theorem canonical_injective {f f' : Frozen} (hf : f.IsPlain) (hbase : f.base.IsPlain)
    (hf' : f'.IsPlain) (hbase' : f'.base.IsPlain) (h : f.canonical = f'.canonical) : f = f' := by
  unfold canonical at h
  simp only [List.append_assoc, List.append_cancel_left_eq] at h
  obtain ⟨hline, h⟩ := encode_line_inj hbase.not_mem_line hbase'.not_mem_line h
  obtain ⟨hname, hversion⟩ := BaseLibrary.fields_of_line hbase hbase' hline
  obtain ⟨hprovides, hentry, hmodules⟩ :=
    provides_entry_inj hbase.provides hbase'.provides hf.entry hf'.entry h
  have hms := Module.flatMap_canonical_inj hf.modules hf'.modules hmodules
  rcases f with ⟨entry, modules, ⟨name, version, provides⟩⟩
  rcases f' with ⟨entry', modules', ⟨name', version', provides'⟩⟩
  simp only at hname hversion hprovides hentry hms
  rw [hname, hversion, hprovides, hentry, hms]

/-- A project with blanks in its names, and with a module that reads as if another one came after
it. -/
def imitating : Frozen where
  entry := "my app"
  modules := [⟨"my app", "00ff", encode "\nmodule lib 0 11 2\nx", false⟩,
    ⟨"lib", "11", [0x78], true⟩]
  base := ⟨"near-base", "1.0 rc", ["io", "sys time"]⟩

/-- The same project, put together in another way. -/
def imitatingAgain : Frozen where
  entry := BaseLibrary.rootOf "my app.main"
  modules := [⟨"lib", "11", [0x78], true⟩,
    ⟨"my app", "00ff", [0x0a] ++ encode "module lib 0 11 2\nx", false⟩].reverse
  base := ⟨"near-base", "1.0 rc", sortedSet ["sys time", "io", "sys time"]⟩

theorem canonical_imitating : imitating.IsPlain ∧ imitating.base.IsPlain ∧
    imitatingAgain.canonical = imitating.canonical ∧ imitatingAgain = imitating := by
  have hplain : imitating.IsPlain := by
    refine ⟨by decide, fun m hm => ?_⟩
    simp only [imitating, List.mem_cons, List.not_mem_nil, or_false] at hm
    rcases hm with rfl | rfl
    · exact ⟨by decide, by decide, by decide⟩
    · exact ⟨by decide, by decide, by decide⟩
  have hplain' : imitatingAgain.IsPlain := by
    refine ⟨by decide, fun m hm => ?_⟩
    simp only [imitatingAgain, List.mem_reverse, List.mem_cons, List.not_mem_nil, or_false] at hm
    rcases hm with rfl | rfl
    · exact ⟨by decide, by decide, by decide⟩
    · exact ⟨by decide, by decide, by decide⟩
  have hbase : imitating.base.IsPlain := ⟨by decide, by decide, by decide, by decide⟩
  have hbase' : imitatingAgain.base.IsPlain := ⟨by decide, by decide, by decide, by decide⟩
  have hsame : imitatingAgain.canonical = imitating.canonical := by decide +kernel
  exact ⟨hplain, hbase, hsame, canonical_injective hplain' hbase' hplain hbase hsame⟩

end Frozen

end ContractBuild

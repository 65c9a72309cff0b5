import Mathlib
import ContractBuild.Proofs.Text.Utf8
import ContractBuild.Text.Chars

/-!
Texts put together with delimiters can be taken apart: at the first delimiter, if what comes before
it has none, and at the last one, if what comes after it has none.
-/

namespace ContractBuild.Text

variable {α : Type} {d : α}

lemma first_delimiter {a a' r r' : List α} (ha : d ∉ a) (ha' : d ∉ a')
    (h : a ++ d :: r = a' ++ d :: r') : a = a' ∧ r = r' := by
  induction a generalizing a' with
  | nil =>
    cases a' with
    | nil => exact ⟨rfl, (List.cons.inj h).2⟩
    | cons y a' => exact absurd (by rw [(List.cons.inj h).1]; exact List.mem_cons_self) ha'
  | cons x a ih =>
    cases a' with
    | nil => exact absurd (by rw [(List.cons.inj h).1]; exact List.mem_cons_self) ha
    | cons y a' =>
      obtain ⟨hxy, h⟩ := List.cons.inj h
      obtain ⟨haa, hr⟩ := ih (fun hd => ha (List.mem_cons_of_mem _ hd))
        (fun hd => ha' (List.mem_cons_of_mem _ hd)) h
      exact ⟨by rw [hxy, haa], hr⟩

lemma last_delimiter {a a' r r' : List α} (hr : d ∉ r) (hr' : d ∉ r')
    (h : a ++ d :: r = a' ++ d :: r') : a = a' ∧ r = r' := by
  have hrev : r.reverse ++ d :: a.reverse = r'.reverse ++ d :: a'.reverse := by
    simpa using congrArg List.reverse h
  obtain ⟨h1, h2⟩ := first_delimiter (by simpa using hr) (by simpa using hr') hrev
  exact ⟨List.reverse_inj.mp h2, List.reverse_inj.mp h1⟩

/-- What comes before a delimiter or the end. -/
lemma first_delimiter_or_end {a a' r r' : List α} (ha : d ∉ a) (ha' : d ∉ a')
    (hr : r = [] ∨ r.head? = some d) (hr' : r' = [] ∨ r'.head? = some d)
    (h : a ++ r = a' ++ r') : a = a' ∧ r = r' := by
  -- a delimiter put at the end makes sure that there is one
  have key : ∀ s : List α, s = [] ∨ s.head? = some d → ∃ s', s ++ [d] = d :: s' := by
    rintro (_ | ⟨x, s⟩) hs
    · exact ⟨[], rfl⟩
    · obtain rfl : x = d := by simpa using hs
      exact ⟨s ++ [x], rfl⟩
  obtain ⟨s, hs⟩ := key r hr
  obtain ⟨s', hs'⟩ := key r' hr'
  have hd : a ++ d :: s = a' ++ d :: s' := by
    rw [← hs, ← hs', ← List.append_assoc, ← List.append_assoc, h]
  obtain ⟨rfl, -⟩ := first_delimiter ha ha' hd
  exact ⟨rfl, List.append_cancel_left h⟩

/-- Between delimiters a text is split on its own. -/
lemma splitOn_append [BEq α] [LawfulBEq α] (d : α) (a b : List α) :
    (a ++ d :: b).splitOn d = a.splitOn d ++ b.splitOn d := by
  induction a with
  | nil => simp [List.splitOn_cons_eq_if_modifyHead]
  | cons c a ih =>
    rw [List.cons_append, List.splitOn_cons_eq_if_modifyHead, List.splitOn_cons_eq_if_modifyHead,
      ih]
    split_ifs
    · rfl
    · obtain ⟨x, xs, hs⟩ := List.exists_cons_of_ne_nil (List.splitOn_ne_nil d a)
      rw [hs]
      rfl

lemma splitOn_of_not_mem [BEq α] [LawfulBEq α] {a : List α} (h : d ∉ a) : a.splitOn d = [a] := by
  have hsplit : (List.intercalate [d] [a]).splitOn d = [a] :=
    List.splitOn_intercalate d (by simpa using h) (by simp)
  simpa using hsplit

lemma not_mem_of_mem_splitOn [BEq α] [LawfulBEq α] {c : α} {s l : List α}
    (h : l ∈ s.splitOn c) : c ∉ l := by
  induction s generalizing l with
  | nil =>
    obtain rfl : l = [] := by simpa using h
    exact List.not_mem_nil
  | cons x xs ih =>
    rw [List.splitOn_cons_eq_if_modifyHead] at h
    split_ifs at h with hx
    · rcases List.mem_cons.mp h with rfl | h
      · exact List.not_mem_nil
      · exact ih h
    · rcases hs : xs.splitOn c with _ | ⟨p, ps⟩
      · rw [hs] at h; cases h
      · rw [hs, List.modifyHead_cons] at h
        rcases List.mem_cons.mp h with rfl | h
        · have hp := ih (l := p) (by rw [hs]; exact List.mem_cons_self)
          simp only [List.mem_cons, not_or]
          exact ⟨fun hc => hx (by simp [hc]), hp⟩
        · exact ih (by rw [hs]; exact List.mem_cons_of_mem _ h)

/-- Apart from delimiters, a text put together holds what its parts hold. -/
lemma mem_intercalate {a : α} {sep : List α} (ha : a ∉ sep) (xs : List (List α)) :
    a ∈ sep.intercalate xs ↔ ∃ x ∈ xs, a ∈ x := by
  induction xs with
  | nil => simp
  | cons x xs ih =>
    cases xs with
    | nil => simp
    | cons y ys =>
      rw [List.intercalate_cons_cons, List.mem_append, List.mem_append, ih]
      simp [ha]

lemma mem_of_mem_splitOn [BEq α] [LawfulBEq α] {a : α} {s l : List α} (h : l ∈ s.splitOn d)
    (ha : a ∈ l) : a ∈ s := by
  have hd : a ≠ d := by
    rintro rfl
    exact not_mem_of_mem_splitOn h ha
  have hjoin : [d].intercalate (s.splitOn d) = s := List.intercalate_splitOn d
  rw [← hjoin, mem_intercalate (by simpa using hd)]
  exact ⟨l, h, ha⟩

/-! ### Runs -/

section Runs

variable {c : Char} {n r : List Char}

lemma forall_head?_cons {P : Char → Prop} (h : P c) : ∀ x ∈ (c :: r).head?, P x := by
  simpa using h

lemma forall_head?_append {P : Char → Prop} (hn : ∀ c ∈ n.head?, P c) (hr : ∀ c ∈ r.head?, P c) :
    ∀ c ∈ (n ++ r).head?, P c := by
  cases n with
  | nil => exact hr
  | cons => exact hn

lemma takeWhile_span {p : Char → Bool} (hn : ∀ c ∈ n, p c = true)
    (hr : ∀ c ∈ r.head?, p c = false) : (n ++ r).takeWhile p = n := by
  rw [List.takeWhile_append_of_pos hn]
  cases r with
  | nil => simp
  | cons c r => rw [List.takeWhile_cons_of_neg (by simp [hr c rfl]), List.append_nil]

lemma dropWhile_span {p : Char → Bool} (hn : ∀ c ∈ n, p c = true)
    (hr : ∀ c ∈ r.head?, p c = false) : (n ++ r).dropWhile p = r := by
  rw [List.dropWhile_append_of_pos hn]
  cases r with
  | nil => rfl
  | cons c r => rw [List.dropWhile_cons_of_neg (by simp [hr c rfl])]

end Runs

/-! ### Endings -/

lemma stripSuffix?_eq_some {tail cs x : List Char} :
    stripSuffix? tail cs = some x ↔ cs = x ++ tail := by
  simp only [stripSuffix?, Option.map_eq_some_iff, List.isPrefixOf?_eq_some_iff_append_eq]
  constructor
  · rintro ⟨rest, hrest, rfl⟩
    rw [← List.reverse_reverse cs, ← hrest, List.reverse_append, List.reverse_reverse]
  · rintro rfl
    exact ⟨x.reverse, by rw [List.reverse_append], List.reverse_reverse x⟩

/-! ### Numbers -/

lemma isDigit_of_mem_toString {n : ℕ} {c : Char} (h : c ∈ (toString n).toList) :
    c.isDigit = true := by
  rw [Nat.toString_eq_ofList_toDigits, String.toList_ofList] at h
  exact Nat.isDigit_of_mem_toDigits (by decide) (by decide) h

lemma not_mem_toString {c : Char} (hc : c.isDigit = false) (n : ℕ) : c ∉ (toString n).toList := by
  intro h
  rw [isDigit_of_mem_toString h] at hc
  cases hc

lemma toString_injective {n m : ℕ} (h : toString n = toString m) : n = m :=
  Nat.repr_injective h

lemma not_mem_labelled {c : Char} {label s : String} (hlabel : c ∉ label.toList)
    (hs : c ∉ s.toList) : c ∉ (label ++ s).toList := by
  rw [String.toList_append, List.mem_append, not_or]
  exact ⟨hlabel, hs⟩

/-! ### Bytes -/

namespace Utf8

/-- A byte below 128 stands for itself. -/
lemma toNat_of_mem_encodeChar {c : Char} {b : UInt8} (h : b ∈ String.utf8EncodeChar c)
    (hb : b.toNat < 0x80) : c.toNat = b.toNat := by
  have hseq := sequence_encodeChar c
  revert h hseq
  generalize String.utf8EncodeChar c = bs
  generalize c.toNat = n
  intro h hseq
  cases hseq with
  | one ha =>
    obtain rfl := List.mem_singleton.mp h
    rfl
  | two ha ha' hb1 =>
    rw [isTail_iff] at hb1
    simp only [List.mem_cons, List.not_mem_nil, or_false] at h
    rcases h with rfl | rfl <;> omega
  | three ha ha' hb1 hc =>
    rw [secondOfThree_iff] at hb1
    rw [isTail_iff] at hc
    simp only [List.mem_cons, List.not_mem_nil, or_false] at h
    rcases h with rfl | rfl | rfl <;> omega
  | four ha ha' hb1 hc hd =>
    rw [secondOfFour_iff] at hb1
    rw [isTail_iff] at hc hd
    simp only [List.mem_cons, List.not_mem_nil, or_false] at h
    rcases h with rfl | rfl | rfl | rfl <;> omega

/-- The byte of an ASCII character. -/
def asciiByte (c : Char) : UInt8 := UInt8.ofNat c.toNat

lemma mem_of_asciiByte_mem {c : Char} {s : String} (hc : c.toNat < 0x80)
    (h : asciiByte c ∈ encode s) : c ∈ s.toList := by
  rw [encode_eq] at h
  obtain ⟨d, hd, hmem⟩ := List.mem_flatMap.mp h
  have hval : (asciiByte c).toNat = c.toNat := toNat_ofNat (by omega)
  have hdc := toNat_of_mem_encodeChar hmem (by omega)
  rw [hval] at hdc
  obtain rfl : d = c := by rw [← Char.ofNat_toNat d, hdc, Char.ofNat_toNat]
  exact hd

lemma encode_singleton {c : Char} (hc : c.toNat < 0x80) :
    encode (String.singleton c) = [asciiByte c] := by
  rw [encode_eq, encodeChars, String.toList_singleton, List.flatMap_singleton, asciiByte,
    String.utf8EncodeChar]
  exact if_pos (by change c.toNat ≤ 127; omega)

/-- A text before an ASCII delimiter that is not in it. -/
lemma encode_delimiter {c : Char} (hc : c.toNat < 0x80) {s s' : String} {r r' : Bytes}
    (hs : c ∉ s.toList) (hs' : c ∉ s'.toList)
    (h : encode s ++ asciiByte c :: r = encode s' ++ asciiByte c :: r') : s = s' ∧ r = r' := by
  obtain ⟨he, hr⟩ := first_delimiter (fun hm => hs (mem_of_asciiByte_mem hc hm))
    (fun hm => hs' (mem_of_asciiByte_mem hc hm)) h
  exact ⟨encode_injective he, hr⟩

/-- A line ends at its line feed. -/
lemma encode_line_inj {s s' : String} {r r' : Bytes} (hs : '\n' ∉ s.toList) (hs' : '\n' ∉ s'.toList)
    (h : encode (s ++ "\n") ++ r = encode (s' ++ "\n") ++ r') : s = s' ∧ r = r' := by
  have hfeed : encode "\n" = [asciiByte '\n'] := by decide
  rw [encode_append, encode_append, hfeed, List.append_assoc, List.append_assoc] at h
  exact encode_delimiter (by decide) hs hs' h

end Utf8

end ContractBuild.Text

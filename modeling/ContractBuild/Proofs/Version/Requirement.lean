import Mathlib
import ContractBuild.Proofs.Program
import ContractBuild.Proofs.Text.Decimal
import ContractBuild.Version.Requirement

/-!
Requirements are read back from their text: every number in decimal, the identifiers of a
pre-release, comparators with an operator, and lists of them up to the limit.
-/

namespace ContractBuild.Version

open ContractBuild.Text

/-! ### Pre-releases -/

section PreReleases

variable {cs r : List Char} {i : Identifier} {pre : PreRelease}

/-- An identifier that its text stands for: a word is none of the numbers. -/
def Identifier.IsProper : Identifier → Prop
  | .number _ => True
  | .word s => s.toList ≠ [] ∧ (∀ c ∈ s.toList, isIdentifierChar c = true) ∧
      ∃ c ∈ s.toList, c.isDigit = false

lemma Identifier.isProper_of_ofChars? (h : Identifier.ofChars? cs = some i) : i.IsProper := by
  rw [Identifier.ofChars?] at h
  split_ifs at h with hchars hdigits
  · obtain rfl := Option.some.inj h
    trivial
  · obtain rfl := Option.some.inj h
    simp only [Bool.or_eq_true, not_or, Bool.not_eq_true, List.isEmpty_eq_false_iff,
      Bool.not_eq_false', List.all_eq_true] at hchars
    rw [Bool.not_eq_true, List.all_eq_false] at hdigits
    obtain ⟨c, hc, hdigit⟩ := hdigits
    rw [Identifier.IsProper, String.toList_ofList]
    exact ⟨hchars.1, hchars.2, c, hc, by simpa using hdigit⟩

lemma isIdentifierChar_of_isDigit {c : Char} (h : c.isDigit = true) : isIdentifierChar c = true := by
  simp [isIdentifierChar, Char.isAlphanum, h]

lemma Identifier.IsProper.text (h : i.IsProper) :
    i.text.toList ≠ [] ∧ ∀ c ∈ i.text.toList, isIdentifierChar c = true := by
  cases i with
  | number n => exact ⟨toString_ne_nil n, fun c hc =>
      isIdentifierChar_of_isDigit (isDigit_of_mem_toString hc)⟩
  | word s => exact ⟨h.1, h.2.1⟩

lemma Identifier.IsProper.ofChars? (h : i.IsProper) : Identifier.ofChars? i.text.toList = some i := by
  obtain ⟨hne, hchars⟩ := h.text
  have hempty : i.text.toList.isEmpty = false := List.isEmpty_eq_false_iff.mpr hne
  rw [Identifier.ofChars?, hempty, List.all_eq_true.mpr hchars, Bool.not_true, Bool.or_false,
    if_neg Bool.false_ne_true]
  cases i with
  | number n =>
    rw [Identifier.text, all_isDigit_toString, if_pos rfl, head_toString, digitsValue_toString]
    rfl
  | word s =>
    obtain ⟨c, hc, hdigit⟩ := h.2.2
    have hall : s.toList.all Char.isDigit = false := List.all_eq_false.mpr ⟨c, hc, by simp [hdigit]⟩
    rw [Identifier.text, hall, String.ofList_toList]
    rfl

/-- The characters of a pre-release. -/
def isPreChar (c : Char) : Bool := isIdentifierChar c || c == '.'

lemma toList_preText (pre : PreRelease) :
    (preText pre).toList = ['.'].intercalate (pre.map fun i => i.text.toList) := by
  rw [preText, String.toList_intercalate, List.map_map]
  rfl

lemma isPreChar_preText (hpre : ∀ i ∈ pre, i.IsProper) :
    ∀ c ∈ (preText pre).toList, isPreChar c = true := by
  intro c hc
  by_cases hdot : c = '.'
  · simp [isPreChar, hdot]
  · rw [toList_preText, mem_intercalate (by simpa using hdot)] at hc
    obtain ⟨_, hmem, hc⟩ := hc
    obtain ⟨i, hi, rfl⟩ := List.mem_map.mp hmem
    rw [isPreChar, (hpre i hi).text.2 c hc, Bool.true_or]

lemma preText_ne_nil (hpre : ∀ i ∈ pre, i.IsProper) (hne : pre ≠ []) : (preText pre).toList ≠ [] := by
  obtain ⟨i, is, rfl⟩ := List.exists_cons_of_ne_nil hne
  obtain ⟨c, cs, hcons⟩ := List.exists_cons_of_ne_nil (hpre i List.mem_cons_self).text.1
  rw [toList_preText]
  cases is <;> simp [List.intercalate_cons_cons, hcons]

lemma preHead?_eq (cs : List Char) : preHead? cs =
    if (cs.takeWhile isPreChar).isEmpty then some ([], cs)
    else (((cs.takeWhile isPreChar).splitOn '.').mapM Identifier.ofChars?).map fun pre =>
      (pre, cs.drop (cs.takeWhile isPreChar).length) :=
  rfl

/-- The identifiers at the start of a text. -/
lemma preHead?_preText (hpre : ∀ i ∈ pre, i.IsProper) (hne : pre ≠ [])
    (hr : ∀ c ∈ r.head?, isPreChar c = false) :
    preHead? ((preText pre).toList ++ r) = some (pre, r) := by
  have htake := takeWhile_span (isPreChar_preText hpre) hr
  have hsplit : (preText pre).toList.splitOn '.' = pre.map fun i => i.text.toList := by
    rw [toList_preText]
    refine List.splitOn_intercalate '.' (fun l hl hdot => ?_) (by simpa using hne)
    obtain ⟨i, hi, rfl⟩ := List.mem_map.mp hl
    have hchar := (hpre i hi).text.2 '.' hdot
    revert hchar
    decide
  have hread : (pre.map fun i => i.text.toList).mapM Identifier.ofChars? = some pre :=
    option_mapM_eq_some.mpr (List.forall₂_map_left_iff.mpr
      (List.forall₂_same.mpr fun i hi => (hpre i hi).ofChars?))
  have hempty : (preText pre).toList.isEmpty = false :=
    List.isEmpty_eq_false_iff.mpr (preText_ne_nil hpre hne)
  rw [preHead?_eq, htake, hempty, hsplit, hread]
  simp

lemma isProper_of_preHead? (h : preHead? cs = some (pre, r)) : ∀ i ∈ pre, i.IsProper := by
  rw [preHead?_eq] at h
  split_ifs at h
  · cases h
    nofun
  · obtain ⟨pre', hpre, heq⟩ := Option.map_eq_some_iff.mp h
    obtain rfl : pre' = pre := (Prod.mk.inj heq).1
    have hall := option_mapM_eq_some.mp hpre
    clear h heq hpre
    generalize (cs.takeWhile isPreChar).splitOn '.' = parts at hall
    induction hall with
    | nil => nofun
    | cons hi _ ih => exact List.forall_mem_cons.mpr ⟨Identifier.isProper_of_ofChars? hi, ih⟩

end PreReleases

/-! ### Comparators -/

section Comparators

open Requirement

variable {n : ℕ} {r : List Char} {c : Comparator}

lemma number?_toString (hn : n < wordLimit) (hr : ∀ x ∈ r.head?, x.isDigit = false) :
    number? ((toString n).toList ++ r) = some (n, r) := by
  have htake := takeWhile_span (fun x hx => isDigit_of_mem_toString (n := n) hx) hr
  rw [number?, htake, head_toString, wordOfDigits?_toString, if_pos hn]
  simp

lemma part?_toString (hn : n < wordLimit) (hr : ∀ x ∈ r.head?, x.isDigit = false) :
    part? ('.' :: ((toString n).toList ++ r)) = some (.given n, r) := by
  have hnumber := number?_toString hn hr
  obtain ⟨d, ds, hcons, hd⟩ := exists_digit n
  have hwild : ∀ x ∈ ['*', 'x', 'X'], d ≠ x := by
    rintro x hx rfl
    revert hd
    fin_cases hx <;> decide
  have hnone : wildcard? ((toString n).toList ++ r) = none := by
    simp only [List.forall_mem_cons] at hwild
    rw [hcons]
    simp [wildcard?, hwild]
  rw [part?, hnone, hnumber]
  rfl

lemma part?_missing (hr : r.head? ≠ some '.') : part? r = some (.missing, r) := by
  unfold part?
  split
  · exact absurd rfl hr
  · rfl

/-- A comparator that is written with its operator, as far as its parts go. -/
structure Comparator.IsProper (c : Comparator) : Prop where
  op : c.op ≠ .wildcard
  major : c.major < wordLimit
  minor : ∀ n ∈ c.minor, n < wordLimit
  patch : ∀ n ∈ c.patch, n < wordLimit
  patch_none : c.minor = none → c.patch = none
  pre_nil : c.patch = none → c.pre = []
  pre : ∀ i ∈ c.pre, i.IsProper

/-- What may follow a comparator. -/
def Ends (r : List Char) : Prop := ∀ x ∈ r.head?, x = ','

lemma Ends.head {p : Char → Bool} (hr : Ends r) (hp : p ',' = false) : ∀ x ∈ r.head?, p x = false := by
  intro x hx
  rw [hr x hx, hp]

lemma operator_text {op : Operator} (hop : op ≠ .wildcard) (hr : r.head? ≠ some '=') :
    operator (op.text.toList ++ r) = (some op, r) := by
  have hne : ∀ r', r ≠ '=' :: r' := by
    rintro r' rfl
    exact hr rfl
  cases op with
  | wildcard => exact absurd rfl hop
  | greater =>
    change operator ('>' :: r) = _
    unfold operator
    split <;> simp_all
  | less =>
    change operator ('<' :: r) = _
    unfold operator
    split <;> simp_all
  | _ => rfl

/-- The numbers of a comparator after its first one. -/
lemma toList_text (hc : c.IsProper) : c.text.toList = c.op.text.toList ++ ((toString c.major).toList ++
    match c.minor, c.patch with
    | none, _ => []
    | some minor, none => '.' :: (toString minor).toList
    | some minor, some patch => '.' :: ((toString minor).toList ++ '.' :: ((toString patch).toList ++
        if c.pre = [] then [] else '-' :: (preText c.pre).toList))) := by
  obtain ⟨op, major, minor, patch, pre⟩ := c
  have hop : op ≠ .wildcard := hc.op
  rw [Comparator.text]
  rcases minor with _ | minor <;> rcases patch with _ | patch
  · simp [hop]
  · simp [hop]
  · simp [hop]
  · have hdot : toString "." = "." := rfl
    cases pre <;> simp [hdot]

lemma skipSpaces_of_head (hr : r.head? ≠ some ' ') : skipSpaces r = r := by
  cases r with
  | nil => rfl
  | cons x r =>
    have hx : x ≠ ' ' := by simpa using hr
    simp [skipSpaces, hx]

lemma head_ne_of_digits (n : ℕ) (r : List Char) {x : Char} (hx : x.isDigit = false) :
    ((toString n).toList ++ r).head? ≠ some x := by
  obtain ⟨d, ds, hcons, hd⟩ := exists_digit n
  rw [hcons]
  rintro ⟨rfl⟩
  rw [hx] at hd
  cases hd

lemma preTail?_text {pre : PreRelease} (hpre : ∀ i ∈ pre, i.IsProper) (hr : Ends r) :
    preTail? ((if pre = [] then [] else '-' :: (preText pre).toList) ++ r) = some (pre, r) := by
  by_cases hnil : pre = []
  · rw [if_pos hnil, hnil, List.nil_append]
    unfold preTail?
    split
    · next r' => exact absurd (hr '-' rfl) (by decide)
    · rfl
  · have hhead := preHead?_preText hpre hnil (hr.head (by decide))
    obtain ⟨i, is, rfl⟩ := List.exists_cons_of_ne_nil hnil
    rw [if_neg hnil, List.cons_append, preTail?, hhead]

lemma buildTail?_of_ends (hr : Ends r) : buildTail? r = some r := by
  unfold buildTail?
  split
  · next r' => exact absurd (hr '+' rfl) (by decide)
  · rfl

/-- **A comparator is read back**, and what follows it is left. -/
lemma comparator?_text (hc : c.IsProper) (hr : Ends r) :
    comparator? (c.text.toList ++ r) = some (c, skipSpaces r) := by
  have hdigit := hr.head (p := Char.isDigit) (by decide)
  have hdot : r.head? ≠ some '.' := fun h => absurd (hr _ h) (by decide)
  rw [toList_text hc, comparator?]
  obtain ⟨op, major, minor, patch, pre⟩ := c
  obtain ⟨hop, hmajor, hminor, hpatch, hnone, hnil, hpre⟩ := hc
  dsimp only at hop hmajor hminor hpatch hnone hnil hpre
  have hstart : ∀ x, operator (op.text.toList ++ ((toString major).toList ++ x) ++ r) =
      (some op, (toString major).toList ++ (x ++ r)) := by
    intro x
    rw [List.append_assoc, List.append_assoc,
      operator_text hop (head_ne_of_digits major _ (by decide))]
  have hpoint : ∀ x : List Char, ∀ y ∈ ('.' :: x).head?, y.isDigit = false := by simp
  rw [hstart]
  dsimp only
  rw [skipSpaces_of_head (head_ne_of_digits major _ (by decide))]
  rcases minor with _ | minor <;> rcases patch with _ | patch
  · obtain rfl := hnil rfl
    rw [List.nil_append, number?_toString hmajor hdigit]
    simp only [Option.bind_eq_bind, Option.bind_some, part?_missing hdot]
    rfl
  · cases hnone rfl
  · obtain rfl := hnil rfl
    rw [List.cons_append, number?_toString hmajor (hpoint _)]
    simp only [Option.bind_eq_bind, Option.bind_some, part?_missing hdot,
      part?_toString (hminor minor rfl) hdigit]
    rfl
  · have htail : ∀ y ∈ ((if pre = [] then [] else '-' :: (preText pre).toList) ++ r).head?,
        y.isDigit = false := by
      split_ifs
      · exact hdigit
      · simp
    simp only [List.cons_append, List.append_assoc, number?_toString hmajor (hpoint _),
      Option.bind_eq_bind, Option.bind_some, part?_toString (hminor minor rfl) (hpoint _),
      part?_toString (hpatch patch rfl) htail, Part.isWild, preTail?_text hpre hr,
      buildTail?_of_ends hr]
    rfl

end Comparators

/-! ### Comparators with a full version -/

section Full

variable {v : Version} {op : Operator}

/-- A version that its text stands for. -/
structure IsProper (v : Version) : Prop where
  major : v.major < wordLimit
  minor : v.minor < wordLimit
  patch : v.patch < wordLimit
  pre : ∀ i ∈ v.pre, i.IsProper

def comparator (op : Operator) (v : Version) : Comparator :=
  ⟨op, v.major, some v.minor, some v.patch, v.pre⟩

lemma IsProper.comparator (hv : v.IsProper) (hop : op ≠ .wildcard) :
    (v.comparator op).IsProper where
  op := hop
  major := hv.major
  minor := by
    rintro n ⟨rfl⟩
    exact hv.minor
  patch := by
    rintro n ⟨rfl⟩
    exact hv.patch
  patch_none := nofun
  pre_nil := nofun
  pre := hv.pre

lemma text_comparator : (v.comparator op).text.toList = op.text.toList ++ v.text.toList := by
  simp [comparator, Comparator.text, Version.text]

end Full

/-! ### Requirements -/

section Requirements

open Requirement

variable {c : Comparator} {cs : List Comparator} {limit : ℕ}

/-- A comparator starts with its operator, which is neither a space nor a wildcard. -/
lemma exists_head_text (hc : c.IsProper) : ∃ x r, c.text.toList = x :: r ∧
    x ∈ ['=', '>', '<', '~', '^'] := by
  have hop := hc.op
  rw [toList_text hc]
  cases hopeq : c.op with
  | wildcard => exact absurd hopeq hop
  | _ => exact ⟨_, _, rfl, by decide⟩

/-- The text of comparators one after the other. -/
def joined (cs : List Comparator) : List Char :=
  joinWith [',', ' '] (cs.map fun c => c.text.toList)

lemma joined_singleton (c : Comparator) : joined [c] = c.text.toList := by
  simp [joined, joinWith]

lemma joined_cons (c c' : Comparator) (cs : List Comparator) :
    joined (c :: c' :: cs) = c.text.toList ++ ',' :: ' ' :: joined (c' :: cs) := by
  simp [joined, joinWith, List.intercalate_cons_cons]

lemma exists_head_joined (hcs : ∀ c ∈ cs, c.IsProper) (hne : cs ≠ []) :
    ∃ x r, joined cs = x :: r ∧ x ∈ ['=', '>', '<', '~', '^'] := by
  obtain ⟨c, cs, rfl⟩ := List.exists_cons_of_ne_nil hne
  obtain ⟨x, r, htext, hx⟩ := exists_head_text (hcs c List.mem_cons_self)
  cases cs with
  | nil => exact ⟨x, r, by rw [joined_singleton, htext], hx⟩
  | cons c' cs => exact ⟨x, _, by rw [joined_cons, htext]; rfl, hx⟩

lemma skipSpaces_joined (hcs : ∀ c ∈ cs, c.IsProper) (hne : cs ≠ []) :
    skipSpaces (joined cs) = joined cs := by
  obtain ⟨x, r, htext, hx⟩ := exists_head_joined hcs hne
  refine skipSpaces_of_head ?_
  rw [htext]
  rintro ⟨rfl⟩
  exact absurd hx (by decide)

lemma comparators?_joined (hcs : ∀ c ∈ cs, c.IsProper) (hne : cs ≠ []) (hlen : cs.length ≤ limit) :
    comparators? limit (joined cs) = some cs := by
  induction cs generalizing limit with
  | nil => exact absurd rfl hne
  | cons c cs ih =>
    obtain ⟨hc, hcs⟩ := List.forall_mem_cons.mp hcs
    obtain ⟨limit, rfl⟩ : ∃ k, limit = k + 1 :=
      Nat.exists_eq_add_one.mpr (lt_of_lt_of_le (by simp) hlen)
    rcases cs with _ | ⟨c', cs⟩
    · have hread := comparator?_text (r := []) hc nofun
      rw [List.append_nil] at hread
      rw [comparators?, joined_singleton, hread]
      rfl
    · have hread := comparator?_text (r := ',' :: ' ' :: joined (c' :: cs)) hc
        (by rintro x ⟨rfl⟩; rfl)
      have hskip : skipSpaces (' ' :: joined (c' :: cs)) = joined (c' :: cs) :=
        skipSpaces_joined hcs nofun
      rw [comparators?, joined_cons, hread]
      change (comparators? limit (skipSpaces (' ' :: joined (c' :: cs)))).map (c :: ·) = _
      rw [hskip, ih hcs nofun (Nat.le_of_succ_le_succ hlen)]
      rfl

/-- **Requirements are read back** from the text of their comparators. -/
lemma ofChars?_joined (hcs : ∀ c ∈ cs, c.IsProper) (hne : cs ≠ [])
    (hlen : cs.length ≤ maxComparators) : Requirement.ofChars? (joined cs) = some ⟨cs⟩ := by
  obtain ⟨x, r, htext, hx⟩ := exists_head_joined hcs hne
  have hwild : wildcard? (joined cs) = none := by
    rw [htext, wildcard?]
    fin_cases hx <;> rfl
  rw [Requirement.ofChars?, skipSpaces_joined hcs hne, hwild]
  dsimp only
  rw [comparators?_joined hcs hne hlen]
  rfl

end Requirements

end ContractBuild.Version

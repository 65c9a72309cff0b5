import Mathlib
import ContractBuild.Text.Nested

/-!
Blanks in a text: what trimming leaves, and where an alias is cut off.
-/

namespace ContractBuild.Text

/-! ### Blanks -/

/-- The code points of all blanks. -/
def blanks : List ℕ := blankRanges.flatMap fun r => List.range' r.1 (r.2 + 1 - r.1)

lemma toNat_mem_blanks {c : Char} (h : isBlank c = true) : c.toNat ∈ blanks := by
  obtain ⟨r, hr, hc⟩ := List.any_eq_true.mp h
  simp only [Bool.and_eq_true, decide_eq_true_eq] at hc
  exact List.mem_flatMap.mpr ⟨r, hr, List.mem_range'_1.mpr (by omega)⟩

/-- A table that has no code point in common with that of the blanks. -/
def isApart (table : List (ℕ × ℕ)) : Bool :=
  table.all fun r => blankRanges.all fun b => r.2 < b.1 || b.2 < r.1

lemma inRanges_of_isBlank {table : List (ℕ × ℕ)} (htable : isApart table = true) {c : Char}
    (h : isBlank c = true) : inRanges table c = false := by
  obtain ⟨b, hb, hc⟩ := List.any_eq_true.mp h
  refine List.any_eq_false.mpr fun r hr hc' => ?_
  have hapart := List.all_eq_true.mp (List.all_eq_true.mp htable r hr) b hb
  simp only [Bool.and_eq_true, Bool.or_eq_true, decide_eq_true_eq] at hc hc' hapart
  omega

lemma isLetter_of_isBlank {c : Char} (h : isBlank c = true) : isLetter c = false :=
  inRanges_of_isBlank (by decide +kernel) h

/-- Blanks are not part of words. -/
lemma isWordChar_of_isBlank {c : Char} (h : isBlank c = true) : isWordChar c = false := by
  have hletter := isLetter_of_isBlank h
  have hmark : inRanges markRanges c = false := inRanges_of_isBlank (by decide +kernel) h
  have hdigit : isDecimalDigit c = false := inRanges_of_isBlank (by decide +kernel) h
  have hconnector : inRanges connectorRanges c = false :=
    inRanges_of_isBlank (by decide +kernel) h
  have hjoiner : inRanges joinerRanges c = false := inRanges_of_isBlank (by decide +kernel) h
  simp [isWordChar, hletter, hmark, hdigit, hconnector, hjoiner]

lemma isBlank_of_isWordChar {c : Char} (h : isWordChar c = true) : isBlank c = false := by
  by_contra hblank
  rw [isWordChar_of_isBlank (by simpa using hblank)] at h
  cases h

lemma isLetterOrNumber_of_isBlank {c : Char} (h : isBlank c = true) :
    isLetterOrNumber c = false := by
  have hletter := isLetter_of_isBlank h
  have hnumber : inRanges numericRanges c = false := inRanges_of_isBlank (by decide +kernel) h
  simp [isLetterOrNumber, hletter, hnumber]

/-- There are no blanks in identifiers. -/
lemma isBlank_of_isIdentifier {cs : List Char} (h : isIdentifier cs = true) :
    ∀ c ∈ cs, isBlank c = false := by
  have hunderscore : isBlank '_' = false := by decide
  cases cs with
  | nil => cases h
  | cons c cs =>
    simp only [isIdentifier, Bool.and_eq_true, Bool.or_eq_true, beq_iff_eq, List.all_eq_true] at h
    intro x hx
    by_contra hblank
    rw [Bool.not_eq_false] at hblank
    have hx' : x ≠ '_' := by
      rintro rfl
      rw [hunderscore] at hblank
      cases hblank
    have hnot := isLetterOrNumber_of_isBlank hblank
    rcases List.mem_cons.mp hx with rfl | hx
    · have hletter := h.1.resolve_left hx'
      rw [isLetterOrNumber, hletter] at hnot
      cases hnot
    · rw [(h.2 x hx).resolve_left hx'] at hnot
      cases hnot

/-! ### Trimming -/

/-- A run of blanks, which may be empty. -/
def IsGap (g : List Char) : Prop := ∀ c ∈ g, isBlank c = true

lemma isGap_nil : IsGap [] := nofun

lemma isGap_singleton {c : Char} (h : isBlank c = true) : IsGap [c] := by simpa [IsGap] using h

lemma IsGap.append {g g' : List Char} (hg : IsGap g) (hg' : IsGap g') : IsGap (g ++ g') :=
  fun c hc => (List.mem_append.mp hc).elim (hg c) (hg' c)

lemma IsGap.not_mem {g : List Char} (h : IsGap g) {x : Char} (hx : isBlank x = false) : x ∉ g := by
  intro hmem
  rw [h x hmem] at hx
  cases hx

/-- A text that neither starts nor ends with a blank. -/
structure IsSolid (cs : List Char) : Prop where
  head : ∀ c ∈ cs.head?, isBlank c = false
  last : ∀ c ∈ cs.getLast?, isBlank c = false

section Trimming

variable {g g' cs : List Char}

lemma trimLeft_of_head (h : ∀ c ∈ cs.head?, isBlank c = false) (hg : IsGap g) :
    trimLeft (g ++ cs) = cs := by
  rw [trimLeft, List.dropWhile_append_of_pos hg]
  cases cs with
  | nil => rfl
  | cons c cs => rw [List.dropWhile_cons_of_neg (by simp [h c rfl])]

lemma trimRight_of_last (h : ∀ c ∈ cs.getLast?, isBlank c = false) (hg : IsGap g) :
    trimRight (cs ++ g) = cs := by
  have hrev : trimLeft (g.reverse ++ cs.reverse) = cs.reverse :=
    trimLeft_of_head (by simpa using h) fun c hc => hg c (List.mem_reverse.mp hc)
  rw [trimLeft, ← List.reverse_append] at hrev
  rw [trimRight, hrev, List.reverse_reverse]

lemma trim_solid (h : IsSolid cs) (hg : IsGap g) (hg' : IsGap g') : trim (g ++ cs ++ g') = cs := by
  rcases cs with _ | ⟨c, cs⟩
  · have hall : IsGap (g ++ [] ++ g') := by
      intro x hx
      simp only [List.append_nil, List.mem_append] at hx
      exact hx.elim (hg x) (hg' x)
    have hnone : trimLeft (g ++ [] ++ g' ++ []) = [] := trimLeft_of_head nofun hall
    rw [List.append_nil] at hnone
    rw [trim, hnone]
    rfl
  · have hleft : trimLeft (g ++ (c :: cs ++ g')) = c :: cs ++ g' :=
      trimLeft_of_head (fun x hx => h.head x hx) hg
    rw [trim, List.append_assoc, hleft, trimRight_of_last h.last hg']

lemma trim_self (h : IsSolid cs) : trim cs = cs := by
  simpa using trim_solid h isGap_nil isGap_nil

lemma mem_of_mem_trim {c : Char} (h : c ∈ trim cs) : c ∈ cs := by
  have hleft := (List.dropWhile_sublist _).subset (List.mem_reverse.mp h)
  exact (List.dropWhile_sublist _).subset (List.mem_reverse.mp hleft)

lemma IsSolid.append (h : IsSolid cs) {x : List Char} (hx : IsSolid x) (hne : cs ≠ [])
    (hne' : x ≠ []) (m : List Char) : IsSolid (cs ++ m ++ x) := by
  refine ⟨fun c hc => h.head c ?_, fun c hc => hx.last c ?_⟩
  · rw [List.append_assoc, List.head?_append_of_ne_nil _ hne] at hc
    exact hc
  · rw [List.getLast?_append_of_ne_nil _ hne'] at hc
    exact hc

lemma isSolid_of_forall (h : ∀ c ∈ cs, isBlank c = false) : IsSolid cs :=
  ⟨fun c hc => h c (List.mem_of_mem_head? hc), fun c hc => h c (List.mem_of_getLast? hc)⟩

lemma trim_gap (hg : IsGap g) : trim g = [] := by
  have hnone : IsSolid [] := isSolid_of_forall nofun
  simpa using trim_solid hnone isGap_nil hg

lemma isSolid_singleton {c : Char} (h : isBlank c = false) : IsSolid [c] :=
  isSolid_of_forall (by simpa using h)

end Trimming

/-! ### Cutting at an alias -/

section Alias

variable {g u r : List Char}

/-- The cut at the first alias is put off by `u`. -/
def SkipsAlias (u r : List Char) : Prop :=
  splitOnce " as ".toList (u ++ r) = (splitOnce " as ".toList r).map fun p => (u ++ p.1, p.2)

lemma SkipsAlias.cons {c : Char} (hc : ¬ " as ".toList <+: c :: (u ++ r)) (h : SkipsAlias u r) :
    SkipsAlias (c :: u) r := by
  have hnone : " as ".toList.isPrefixOf? (c :: (u ++ r)) = none := by
    rw [Option.eq_none_iff_forall_ne_some]
    intro rest hrest
    exact hc ⟨rest, List.isPrefixOf?_eq_some_iff_append_eq.mp hrest⟩
  rw [SkipsAlias, List.cons_append, splitOnce, hnone]
  dsimp only
  rw [h]
  simp [Function.comp_def]

lemma SkipsAlias.append {v : List Char} (hu : SkipsAlias u (v ++ r)) (hv : SkipsAlias v r) :
    SkipsAlias (u ++ v) r := by
  rw [SkipsAlias, List.append_assoc, hu, hv, Option.map_map]
  simp [Function.comp_def]

lemma skipsAlias_of_not_mem (hu : ' ' ∉ u) : SkipsAlias u r := by
  induction u with
  | nil => simp [SkipsAlias]
  | cons c u ih =>
    obtain ⟨hc, hu⟩ := List.ne_and_not_mem_of_not_mem_cons hu
    exact (ih hu).cons fun hpre => hc (List.cons_prefix_cons.mp hpre).1

/-- Blanks are passed over, unless an alias follows the last of them. -/
lemma skipsAlias_gap (hg : IsGap g)
    (hr : ¬ "as ".toList <+: r ∨ g.getLast? ≠ some ' ') : SkipsAlias g r := by
  induction g with
  | nil => simp [SkipsAlias]
  | cons c g ih =>
    obtain ⟨hc, hg⟩ := List.forall_mem_cons.mp hg
    rcases g with _ | ⟨c', g⟩
    · refine SkipsAlias.cons (fun hpre => ?_) (by simp [SkipsAlias])
      obtain ⟨hspace, hpre⟩ := List.cons_prefix_cons.mp hpre
      rcases hr with hr | hr
      · exact hr hpre
      · exact hr (by rw [← hspace]; rfl)
    · refine (ih hg (by rwa [List.getLast?_cons_cons] at hr)).cons fun hpre => ?_
      -- the blank that comes next is not the first letter of the alias
      have ha := (List.cons_prefix_cons.mp (List.cons_prefix_cons.mp hpre).2).1
      have hblank := hg c' List.mem_cons_self
      rw [← ha] at hblank
      revert hblank
      decide

end Alias

end ContractBuild.Text

import Mathlib
import ContractBuild.Proofs.Text.Blank
import ContractBuild.Proofs.Text.Delimited

/-!
Texts with brackets: what is passed over when a text is cut outside its brackets, and the parts into
which it is cut.
-/

namespace ContractBuild.Text

/-! ### Blanks around a text -/

section Trimming

variable {cs : List Char}

/-- Trimming takes a run of blanks off each end. -/
lemma exists_gaps (cs : List Char) : ∃ g g', IsGap g ∧ IsGap g' ∧ cs = g ++ trim cs ++ g' := by
  have hleft : cs = cs.takeWhile isBlank ++ trimLeft cs := List.takeWhile_append_dropWhile.symm
  have hright : trimLeft cs =
      trim cs ++ ((trimLeft cs).reverse.takeWhile isBlank).reverse := by
    rw [trim, trimRight, ← List.reverse_append, List.takeWhile_append_dropWhile,
      List.reverse_reverse]
  refine ⟨cs.takeWhile isBlank, ((trimLeft cs).reverse.takeWhile isBlank).reverse,
    fun c hc => List.mem_takeWhile_imp hc,
    fun c hc => List.mem_takeWhile_imp (List.mem_reverse.mp hc), ?_⟩
  rw [List.append_assoc, ← hright, ← hleft]

lemma isGap_of_trim (h : trim cs = []) : IsGap cs := by
  obtain ⟨g, g', hg, hg', heq⟩ := exists_gaps cs
  rw [heq, h, List.append_nil]
  exact hg.append hg'

lemma isSolid_trim (cs : List Char) : IsSolid (trim cs) := by
  have hlast : ∀ c ∈ (trim cs).getLast?, isBlank c = false := by
    intro c hc
    rw [trim, trimRight, List.getLast?_reverse] at hc
    have hnot := List.head?_dropWhile_not isBlank (trimLeft cs).reverse
    rw [Option.mem_def.mp hc] at hnot
    simpa using hnot
  refine ⟨fun c hc => ?_, hlast⟩
  have hprefix : trim cs <+: trimLeft cs := by
    rw [trim, trimRight, ← List.reverse_suffix, List.reverse_reverse]
    exact List.dropWhile_suffix _
  obtain ⟨r, hr⟩ := hprefix
  have hhead : (trimLeft cs).head? = some c := by
    rw [← hr, List.head?_append, Option.mem_def.mp hc]
    rfl
  have hnot := List.head?_dropWhile_not isBlank cs
  rw [← trimLeft, hhead] at hnot
  simpa using hnot

@[simp] lemma trim_trim (cs : List Char) : trim (trim cs) = trim cs := trim_self (isSolid_trim cs)

/-- Blanks around a text do not count when it is trimmed. -/
lemma trim_gaps {g g' : List Char} (hg : IsGap g) (hg' : IsGap g') :
    trim (g ++ cs ++ g') = trim cs := by
  obtain ⟨h, h', hh, hh', heq⟩ := exists_gaps cs
  have hmore : g ++ cs ++ g' = (g ++ h) ++ trim cs ++ (h' ++ g') := by
    conv_lhs => rw [heq]
    simp
  rw [hmore, trim_solid (isSolid_trim cs) (hg.append hh) (hh'.append hg')]

/-- Behind a solid text blanks are trimmed off the end only. -/
lemma exists_trim_append {u : List Char} (hu : IsSolid u) (hne : u ≠ []) (x : List Char) :
    ∃ y g, IsGap g ∧ x = y ++ g ∧ trim (u ++ x) = u ++ y := by
  obtain ⟨g, g', hg, hg', hx⟩ := exists_gaps x
  by_cases hnil : trim x = []
  · refine ⟨[], x, isGap_of_trim hnil, rfl, ?_⟩
    simpa using trim_solid hu isGap_nil (isGap_of_trim hnil)
  · have hsolid := hu.append (isSolid_trim x) hne hnil g
    refine ⟨g ++ trim x, g', hg', hx, ?_⟩
    conv_lhs => rw [hx]
    simpa using trim_solid hsolid isGap_nil hg'

/-- Trimming leaves the first character that is no blank in front. -/
lemma head?_trim {g : List Char} {c : Char} (hg : IsGap g) (hc : isBlank c = false)
    (t : List Char) :
    (trim (g ++ c :: t)).head? = some c := by
  obtain ⟨g₁, g₂, hg₁, hg₂, heq⟩ := exists_gaps (g ++ c :: t)
  have hsolid := isSolid_trim (g ++ c :: t)
  have hleft : trimLeft (g ++ c :: t) = c :: t := trimLeft_of_head (by simpa using hc) hg
  cases htrim : trim (g ++ c :: t) with
  | nil =>
    have hmem : c ∈ g₁ ++ g₂ := by
      rw [htrim, List.append_nil] at heq
      exact heq ▸ List.mem_append_right g List.mem_cons_self
    have hgap : c ∉ g₁ ∧ c ∉ g₂ := ⟨hg₁.not_mem hc, hg₂.not_mem hc⟩
    exact absurd hmem (by simpa using hgap)
  | cons x xs =>
    rw [htrim] at heq hsolid
    have hright : trimLeft (g₁ ++ (x :: xs ++ g₂)) = x :: xs ++ g₂ :=
      trimLeft_of_head (fun y hy => hsolid.head y hy) hg₁
    rw [heq, List.append_assoc, hright] at hleft
    exact congrArg some (List.cons.inj hleft).1

end Trimming

/-! ### What is passed over -/

section Passing

variable {sep : Char} {d : ℕ} {u v r : List Char}

/-- From depth `d` on, a text is read without a cut, and leaves the depth as it was. -/
def Passes (sep : Char) (d : ℕ) (u : List Char) : Prop :=
  ∀ r, splitAtDepth sep d (u ++ r) = (splitAtDepth sep d r).modifyHead (u ++ ·)

lemma splitAtDepth_ne_nil (sep : Char) (d : ℕ) (cs : List Char) : splitAtDepth sep d cs ≠ [] := by
  induction cs generalizing d with
  | nil => nofun
  | cons c cs ih =>
    unfold splitAtDepth
    split_ifs
    · simpa using ih _
    · nofun
    · simpa using ih _

lemma passes_nil : Passes sep d [] := by
  intro r
  obtain ⟨p, ps, hp⟩ := List.exists_cons_of_ne_nil (splitAtDepth_ne_nil sep d r)
  simp [hp]

lemma Passes.append (hu : Passes sep d u) (hv : Passes sep d v) : Passes sep d (u ++ v) := by
  intro r
  obtain ⟨p, ps, hp⟩ := List.exists_cons_of_ne_nil (splitAtDepth_ne_nil sep d r)
  rw [List.append_assoc, hu, hv, hp]
  simp

/-- A character that is no bracket, and no separator outside brackets. -/
lemma passes_singleton {c : Char} (hc : isOpening c = false ∧ isClosing c = false)
    (hsep : c ≠ sep ∨ 0 < d) : Passes sep d [c] := by
  intro r
  have hcut : (c == sep && d == 0) = false := by
    rcases hsep with h | h
    · simp [h]
    · simp [Nat.ne_of_gt h]
  simp [splitAtDepth, hc, hcut]

lemma passes_of_forall (hu : ∀ c ∈ u, isOpening c = false ∧ isClosing c = false)
    (hsep : sep ∉ u ∨ 0 < d) : Passes sep d u := by
  induction u with
  | nil => exact passes_nil
  | cons c u ih =>
    obtain ⟨hc, hu⟩ := List.forall_mem_cons.mp hu
    refine (passes_singleton hc ?_).append (ih hu ?_)
    · exact hsep.imp_left fun h => (List.ne_of_not_mem_cons h).symm
    · exact hsep.imp_left List.not_mem_of_not_mem_cons

/-- A class of characters that has no bracket in it. -/
lemma not_bracket_of {p : Char → Bool} {c : Char}
    (hp : ['(', '[', '\x7b', ')', ']', '\x7d'].any p = false) (h : p c = true) :
    isOpening c = false ∧ isClosing c = false := by
  have hne : ∀ x ∈ ['(', '[', '\x7b', ')', ']', '\x7d'], c ≠ x := by
    rintro x hx rfl
    exact List.any_eq_false.mp hp c hx h
  simp only [List.forall_mem_cons] at hne
  simp [isOpening, isClosing, hne]

lemma isOpening_of_isBlank {c : Char} (h : isBlank c = true) :
    isOpening c = false ∧ isClosing c = false := not_bracket_of (by decide) h

lemma IsGap.passes {g : List Char} (hg : IsGap g) (hsep : isBlank sep = false) : Passes sep d g :=
  passes_of_forall (fun c hc => isOpening_of_isBlank (hg c hc)) (.inl (hg.not_mem hsep))

/-- Brackets with a text between them that is passed over inside. -/
lemma Passes.bracketed (hu : Passes sep (d + 1) u) : Passes sep d ('[' :: (u ++ [']'])) := by
  intro r
  have hopen : splitAtDepth sep d ('[' :: (u ++ [']']) ++ r) =
      (splitAtDepth sep (d + 1) (u ++ ']' :: r)).modifyHead ('[' :: ·) := by
    simp [splitAtDepth, isOpening, depthAfter]
  have hclose : splitAtDepth sep (d + 1) (']' :: r) =
      (splitAtDepth sep d r).modifyHead (']' :: ·) := by
    simp [splitAtDepth, isOpening, isClosing, depthAfter]
  obtain ⟨p, ps, hp⟩ := List.exists_cons_of_ne_nil (splitAtDepth_ne_nil sep d r)
  rw [hopen, hu, hclose, hp]
  simp

lemma Passes.splitTop (hu : Passes sep 0 u) : splitTop sep u = [u] := by
  have h := hu []
  rw [List.append_nil] at h
  rw [Text.splitTop, h]
  simp [splitAtDepth]

/-- A text that is passed over is cut off at the separator after it. -/
lemma Passes.splitTop_append (hu : Passes sep 0 u)
    (hsep : isOpening sep = false ∧ isClosing sep = false) :
    Text.splitTop sep (u ++ sep :: r) = u :: Text.splitTop sep r := by
  have hcut : splitAtDepth sep 0 (sep :: r) = [] :: splitAtDepth sep 0 r := by
    simp [splitAtDepth, hsep]
  rw [Text.splitTop, hu, hcut]
  simp [Text.splitTop]

end Passing

/-! ### Parts between separators -/

section Parts

variable {sep : Char} {d : ℕ} {ws : List (List Char)} {w g text : List Char}

/-- A text of parts with separators between them, and blanks around each. -/
inductive Separates (sep : Char) : List (List Char) → List Char → Prop where
  | last {g w g' : List Char} (hg : IsGap g) (hg' : IsGap g') : Separates sep [w] (g ++ w ++ g')
  | cons {g w g' r : List Char} {ws : List (List Char)} (hg : IsGap g) (hg' : IsGap g')
      (h : Separates sep ws r) : Separates sep (w :: ws) (g ++ w ++ g' ++ sep :: r)

/-- Parts in which no separator is outside brackets are those that the text is cut into. -/
lemma Separates.map_trim_eq (h : Separates sep ws text)
    (hsep : isOpening sep = false ∧ isClosing sep = false) (hblank : isBlank sep = false)
    (hws : ∀ w ∈ ws, Passes sep 0 w) : (splitTop sep text).map trim = ws.map trim := by
  induction h with
  | @last g w g' hg hg' =>
    have hw := hws w List.mem_cons_self
    rw [(((hg.passes hblank).append hw).append (hg'.passes hblank)).splitTop, List.map_singleton,
      trim_gaps hg hg', List.map_singleton]
  | @cons g w g' r ws hg hg' _ ih =>
    obtain ⟨hw, hws⟩ := List.forall_mem_cons.mp hws
    rw [(((hg.passes hblank).append hw).append (hg'.passes hblank)).splitTop_append hsep,
      List.map_cons, trim_gaps hg hg', ih hws, List.map_cons]

lemma Separates.map_trim_splitTop (h : Separates sep ws text)
    (hsep : isOpening sep = false ∧ isClosing sep = false) (hblank : isBlank sep = false)
    (hws : ∀ w ∈ ws, IsSolid w ∧ Passes sep 0 w) : (splitTop sep text).map trim = ws := by
  rw [h.map_trim_eq hsep hblank fun w hw => (hws w hw).2]
  conv_rhs => rw [← List.map_id ws]
  exact List.map_congr_left fun w hw => trim_self (hws w hw).1

/-- Parts without separators are those that the text is split into. -/
lemma Separates.map_trim_splitOn (h : Separates sep ws text) (hblank : isBlank sep = false)
    (hws : ∀ w ∈ ws, sep ∉ w) : (text.splitOn sep).map trim = ws.map trim := by
  have hpart : ∀ {g w g' : List Char}, IsGap g → IsGap g' → sep ∉ w →
      (g ++ w ++ g').splitOn sep = [g ++ w ++ g'] := by
    intro g w g' hg hg' hw
    exact splitOn_of_not_mem (by simp [hg.not_mem hblank, hg'.not_mem hblank, hw])
  induction h with
  | @last g w g' hg hg' =>
    rw [hpart hg hg' (hws w List.mem_cons_self), List.map_singleton, trim_gaps hg hg',
      List.map_singleton]
  | @cons g w g' r ws hg hg' _ ih =>
    obtain ⟨hw, hws⟩ := List.forall_mem_cons.mp hws
    rw [splitOn_append, hpart hg hg' hw, List.map_append, ih hws, List.map_singleton,
      trim_gaps hg hg', List.map_cons, List.singleton_append]

/-- Where a separator does not count, a text is passed over with its parts. -/
lemma Separates.passes {sep' : Char} (h : Separates sep ws text)
    (hsep : isOpening sep = false ∧ isClosing sep = false) (hblank : isBlank sep' = false)
    (hne : sep ≠ sep' ∨ 0 < d) (hws : ∀ w ∈ ws, Passes sep' d w) : Passes sep' d text := by
  induction h with
  | @last g w g' hg hg' =>
    exact ((hg.passes hblank).append (hws w List.mem_cons_self)).append (hg'.passes hblank)
  | @cons g w g' r ws hg hg' _ ih =>
    obtain ⟨hw, hws⟩ := List.forall_mem_cons.mp hws
    refine (((hg.passes hblank).append hw).append (hg'.passes hblank)).append ?_
    exact (passes_singleton hsep hne).append (ih hws)

lemma Separates.length_le (h : Separates sep ws text) :
    ∀ w ∈ ws, w.length + ws.length ≤ text.length + 1 := by
  induction h with
  | last hg hg' =>
    simp only [List.forall_mem_singleton, List.length_append, List.length_singleton]
    omega
  | @cons g w g' r ws hg hg' h ih =>
    have hlen : ws.length ≤ r.length + 1 := by
      rcases ws with _ | ⟨w', ws⟩
      · simp
      · have := ih w' List.mem_cons_self
        omega
    simp only [List.forall_mem_cons, List.length_append, List.length_cons]
    refine ⟨by omega, fun w' hw' => ?_⟩
    have := ih w' hw'
    omega

lemma intercalate_splitAtDepth (sep : Char) (d : ℕ) (text : List Char) :
    [sep].intercalate (splitAtDepth sep d text) = text := by
  have hcons : ∀ (c : Char) (ps : List (List Char)), ps ≠ [] →
      [sep].intercalate (ps.modifyHead (c :: ·)) = c :: [sep].intercalate ps := by
    intro c ps hps
    obtain ⟨p, ps, rfl⟩ := List.exists_cons_of_ne_nil hps
    cases ps <;> simp [List.intercalate]
  induction text generalizing d with
  | nil => simp [splitAtDepth, List.intercalate]
  | cons c text ih =>
    have hne := splitAtDepth_ne_nil sep
    rw [splitAtDepth]
    split_ifs with hbracket hcut
    · rw [hcons c _ (hne _ _), ih]
    · obtain ⟨p, ps, hp⟩ := List.exists_cons_of_ne_nil (hne d text)
      have hih := ih d
      simp only [Bool.and_eq_true, beq_iff_eq] at hcut
      rw [hp] at hih ⊢
      rw [hcut.1, ← hih]
      cases ps <;> simp [List.intercalate]
    · rw [hcons c _ (hne _ _), ih]

lemma splitTop_of_length_le (h : (splitTop sep text).length ≤ 1) : splitTop sep text = [text] := by
  have hjoin := intercalate_splitAtDepth sep 0 text
  obtain ⟨p, ps, hp⟩ := List.exists_cons_of_ne_nil (splitAtDepth_ne_nil sep 0 text)
  rw [splitTop, hp] at h
  obtain rfl : ps = [] := List.length_eq_zero_iff.mp (by simpa using h)
  rw [hp] at hjoin
  rw [splitTop, hp, ← hjoin]
  simp [List.intercalate]

/-- Every text is made of the parts that it is cut into. -/
lemma separates_splitTop (sep : Char) (text : List Char) :
    Separates sep ((splitTop sep text).map trim) text := by
  have hjoin : ∀ ps : List (List Char), ps ≠ [] →
      Separates sep (ps.map trim) ([sep].intercalate ps) := by
    intro ps hps
    induction ps with
    | nil => exact absurd rfl hps
    | cons p ps ih =>
      obtain ⟨g, g', hg, hg', hp⟩ := exists_gaps p
      cases ps with
      | nil =>
        have hlast : Separates sep [trim p] (g ++ trim p ++ g') := .last hg hg'
        rw [← hp] at hlast
        simpa [List.intercalate] using hlast
      | cons q ps =>
        have hmore : Separates sep _ (g ++ trim p ++ g' ++ _) := .cons hg hg' (ih nofun)
        rw [← hp] at hmore
        simpa [List.intercalate] using hmore
  have h := hjoin (splitTop sep text) (splitAtDepth_ne_nil sep 0 text)
  rwa [splitTop, intercalate_splitAtDepth] at h

/-- Blanks around a text do not count when it is cut. -/
lemma length_splitTop_trim (hsep : isBlank sep = false) (text : List Char) :
    (splitTop sep (trim text)).length = (splitTop sep text).length := by
  have hright : ∀ (g : List Char), IsGap g → ∀ (d : ℕ) (u : List Char),
      (splitAtDepth sep d (u ++ g)).length = (splitAtDepth sep d u).length := by
    intro g hg d u
    induction u generalizing d with
    | nil =>
      have h := (hg.passes (d := d) hsep) []
      rw [List.append_nil] at h
      rw [List.nil_append, h, List.length_modifyHead]
    | cons c u ih =>
      rw [List.cons_append, splitAtDepth, splitAtDepth]
      split_ifs <;> simp [ih]
  obtain ⟨g, g', hg, hg', htext⟩ := exists_gaps text
  conv_rhs => rw [htext, List.append_assoc, splitTop, hg.passes hsep, List.length_modifyHead,
    hright g' hg']
  rfl

end Parts

/-! ### The first occurrence of a character -/

section First

variable {c : Char} {u r : List Char}

lemma splitOnce_of_not_mem (hu : c ∉ u) : splitOnce [c] u = none := by
  induction u with
  | nil => rfl
  | cons x u ih =>
    obtain ⟨hne, hu⟩ := List.ne_and_not_mem_of_not_mem_cons hu
    simp [splitOnce, List.isPrefixOf?, hne, ih hu]

lemma splitOnce_append (hu : c ∉ u) : splitOnce [c] (u ++ c :: r) = some (u, r) := by
  induction u with
  | nil => simp [splitOnce, List.isPrefixOf?]
  | cons x u ih =>
    obtain ⟨hne, hu⟩ := List.ne_and_not_mem_of_not_mem_cons hu
    simp [splitOnce, List.isPrefixOf?, hne, ih hu]

end First

end ContractBuild.Text

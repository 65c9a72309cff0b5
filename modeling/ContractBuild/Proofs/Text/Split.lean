import Mathlib
import ContractBuild.Proofs.Text.Offset
import ContractBuild.Proofs.Text.Outside

/-!
Cutting a text and joining its parts. The parts that a text is cut into are the only ones that make
it up, have no separator outside their brackets, and leave none of these open before a separator.
-/

namespace ContractBuild.Text

variable {sep c : Char} {d : ℕ} {ws : List (List Char)} {w text : List Char}

/-- Parts with separators between them, in a text that starts at depth `d`. The last part may leave
brackets open. -/
inductive AreParts (sep : Char) : ℕ → List (List Char) → Prop where
  | last {d : ℕ} {w : List Char} (hw : sep ∉ outsideFrom d w) : AreParts sep d [w]
  | cons {d : ℕ} {w : List Char} {ws : List (List Char)} (hw : sep ∉ outsideFrom d w)
      (hclosed : w.foldl depthAfter d = 0) (h : AreParts sep 0 ws) : AreParts sep d (w :: ws)

lemma AreParts.ne_nil (h : AreParts sep d ws) : ws ≠ [] := by
  cases h <;> nofun

lemma AreParts.not_mem_outside {ws : List (List Char)} :
    AreParts sep 0 ws → ∀ w ∈ ws, sep ∉ outside w
  | .last hw => List.forall_mem_singleton.mpr hw
  | .cons hw _ h => List.forall_mem_cons.mpr ⟨hw, h.not_mem_outside⟩

lemma areParts_of_forall (hne : ws ≠ []) (hws : ∀ w ∈ ws, sep ∉ outside w ∧ IsClosed w) :
    AreParts sep 0 ws := by
  induction ws with
  | nil => exact absurd rfl hne
  | cons w ws ih =>
    obtain ⟨⟨hw, hclosed⟩, hws⟩ := List.forall_mem_cons.mp hws
    cases ws with
    | nil => exact .last hw
    | cons v vs => exact .cons hw hclosed (ih nofun hws)

/-! ### Cutting -/

/-- A character in front belongs to the first part, unless it is a separator outside brackets. -/
lemma AreParts.modifyHead (hcut : ¬ (c == sep && d == 0) = true)
    (h : AreParts sep (depthAfter d c) ws) : AreParts sep d (ws.modifyHead (c :: ·)) := by
  cases h with
  | last hw => exact .last (not_mem_outsideFrom_cons.mpr ⟨hcut, hw⟩)
  | cons hw hclosed h => exact .cons (not_mem_outsideFrom_cons.mpr ⟨hcut, hw⟩) hclosed h

lemma areParts_splitAtDepth (hsep : isOpening sep = false ∧ isClosing sep = false) (d : ℕ)
    (text : List Char) : AreParts sep d (splitAtDepth sep d text) := by
  induction text generalizing d with
  | nil => exact .last List.not_mem_nil
  | cons c text ih =>
    rw [splitAtDepth]
    split_ifs with hbracket hcut
    · -- a bracket is no separator
      refine (ih _).modifyHead fun hcut => ?_
      obtain ⟨rfl, -⟩ : c = sep ∧ d = 0 := by simpa using hcut
      simp [hsep] at hbracket
    · obtain ⟨-, rfl⟩ : c = sep ∧ d = 0 := by simpa using hcut
      exact .cons List.not_mem_nil rfl (ih 0)
    · refine AreParts.modifyHead hcut ?_
      rw [depthAfter_of_not_or hbracket]
      exact ih d

/-! ### Joining -/

lemma AreParts.splitAtDepth_intercalate (hsep : isOpening sep = false ∧ isClosing sep = false)
    (h : AreParts sep d ws) : splitAtDepth sep d ([sep].intercalate ws) = ws := by
  induction h with
  | last hw => rw [List.intercalate_singleton, splitAtDepth_of_outside hw]
  | cons hw hclosed h ih =>
    rw [List.intercalate_cons_of_ne_nil h.ne_nil, List.append_assoc, List.singleton_append,
      splitAtDepth_append_cons hsep hclosed, splitAtDepth_of_outside hw, splitTop, ih,
      List.singleton_append]

/-- A text is cut in one way only. -/
lemma splitTop_eq_iff (hsep : isOpening sep = false ∧ isClosing sep = false) :
    splitTop sep text = ws ↔ [sep].intercalate ws = text ∧ AreParts sep 0 ws := by
  constructor
  · rintro rfl
    exact ⟨intercalate_splitAtDepth sep 0 text, areParts_splitAtDepth hsep 0 text⟩
  · rintro ⟨rfl, h⟩
    exact h.splitAtDepth_intercalate hsep

/-- A part is not cut any further. -/
lemma splitTop_of_mem (hsep : isOpening sep = false ∧ isClosing sep = false)
    (hw : w ∈ splitTop sep text) : splitTop sep w = [w] :=
  splitTop_of_outside ((areParts_splitAtDepth hsep 0 text).not_mem_outside w hw)

/-- **Cutting and joining undo each other.** The parts of a text, which are slices of it at byte
offsets, make it up again; and parts that close their brackets, with no separator outside these,
are the parts of the text that they make up. -/
theorem splitTop_intercalate (hsep : isOpening sep = false ∧ isClosing sep = false) :
    (∀ text, slicesTop sep text = .ok (splitTop sep text) ∧
      [sep].intercalate (splitTop sep text) = text) ∧
    ∀ ws, ws ≠ [] → (∀ w ∈ ws, sep ∉ outside w ∧ IsClosed w) →
      splitTop sep ([sep].intercalate ws) = ws := by
  constructor
  · intro text
    exact ⟨slicesTop_eq sep text, intercalate_splitAtDepth sep 0 text⟩
  · intro ws hne hws
    exact (splitTop_eq_iff hsep).mpr ⟨rfl, areParts_of_forall hne hws⟩

/-- Parts with closing brackets that nothing opened, with separators inside brackets, and an empty
one. -/
def unevenParts : List (List Char) :=
  ["é)".toList, "dict[str, list[int]]".toList, [], "]\x7ba, (b,)\x7d".toList]

theorem splitTop_unevenParts : (isOpening ',' = false ∧ isClosing ',' = false) ∧
    [','].intercalate (splitTop ',' "é),(b,[c".toList) = "é),(b,[c".toList ∧
      unevenParts ≠ [] ∧ (∀ w ∈ unevenParts, ',' ∉ outside w ∧ IsClosed w) ∧
        splitTop ',' "é),dict[str, list[int]],,]\x7ba, (b,)\x7d".toList = unevenParts := by
  have hsep : isOpening ',' = false ∧ isClosing ',' = false := by decide
  have hparts : ∀ w ∈ unevenParts, ',' ∉ outside w ∧ IsClosed w := by decide
  have htext : "é),dict[str, list[int]],,]\x7ba, (b,)\x7d".toList =
      [','].intercalate unevenParts := by decide
  obtain ⟨hcut, hjoin⟩ := splitTop_intercalate hsep
  refine ⟨hsep, (hcut _).2, nofun, hparts, ?_⟩
  rw [htext, hjoin unevenParts nofun hparts]

/-- A bracket left open takes in what comes after it. -/
example : splitTop ',' ([','].intercalate ["(a".toList, "b".toList]) = ["(a,b".toList] := by decide

end ContractBuild.Text

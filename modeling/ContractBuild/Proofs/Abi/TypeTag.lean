import Mathlib
import ContractBuild.Abi.TypeTag
import ContractBuild.Proofs.Program
import ContractBuild.Proofs.Text.Delimited

/-!
What the type of a parameter and of a result may be, and what is written for it. The type of
functions that never return is in no text that is written.
-/

namespace ContractBuild.Abi

/-! ### Everywhere in a tree -/

section Everywhere

variable {α : Type} {children : α → List α} {P : α → Prop} {a : α}

/-- A property of a node and of all below it. -/
def Everywhere (children : α → List α) (P : α → Prop) (a : α) : Prop :=
  ∀ b, Relation.ReflTransGen (fun x y => y ∈ children x) a b → P b

lemma everywhere_iff :
    Everywhere children P a ↔ P a ∧ ∀ b ∈ children a, Everywhere children P b := by
  constructor
  · exact fun h => ⟨h a .refl, fun b hb c hc => h c (.head hb hc)⟩
  · rintro ⟨ha, h⟩ b hb
    rcases Relation.ReflTransGen.cases_head hb with rfl | ⟨c, hc, hb⟩
    · exact ha
    · exact h c hc b hb

end Everywhere

namespace TypeTag

/-- The types that a type is made of. -/
def children : TypeTag → List TypeTag
  | .scalar _ => []
  | .list t | .tupleOf t | .optional t => [t]
  | .dict key value => [key, value]
  | .tuple ts | .union ts => ts

lemma everywhere_scalar {P : TypeTag → Prop} {s : Scalar} (h : P (.scalar s)) :
    Everywhere children P (.scalar s) := everywhere_iff.mpr ⟨h, nofun⟩

/-- Neither the type nor any type inside of it is the scalar. -/
def IsWithout (s : Scalar) (t : TypeTag) : Prop := Everywhere children (· ≠ .scalar s) t

lemma isWithout_scalar {s t : Scalar} (h : t ≠ s) : IsWithout s (.scalar t) :=
  everywhere_scalar (by simp [h])

mutual

/-- The check for the type of functions that never return looks everywhere. -/
lemma hasNever_eq_false : ∀ t : TypeTag, hasNever t = false ↔ IsWithout .never t
  | .scalar s => by rw [IsWithout, everywhere_iff]; simp [hasNever, children]
  | .list item => by
    rw [IsWithout, everywhere_iff, hasNever, hasNever_eq_false item]
    simp [children, IsWithout]
  | .dict key value => by
    rw [IsWithout, everywhere_iff, hasNever, Bool.or_eq_false_iff, hasNever_eq_false key,
      hasNever_eq_false value]
    simp [children, IsWithout]
  | .tuple items => by
    rw [IsWithout, everywhere_iff, hasNever, anyHasNever_eq_false items]
    simp [children, IsWithout]
  | .tupleOf item => by
    rw [IsWithout, everywhere_iff, hasNever, hasNever_eq_false item]
    simp [children, IsWithout]
  | .optional inner => by
    rw [IsWithout, everywhere_iff, hasNever, hasNever_eq_false inner]
    simp [children, IsWithout]
  | .union members => by
    rw [IsWithout, everywhere_iff, hasNever, anyHasNever_eq_false members]
    simp [children, IsWithout]

lemma anyHasNever_eq_false : ∀ ts : List TypeTag,
    anyHasNever ts = false ↔ ∀ t ∈ ts, IsWithout .never t
  | [] => by simp [anyHasNever]
  | t :: ts => by
    rw [anyHasNever, Bool.or_eq_false_iff, hasNever_eq_false t, anyHasNever_eq_false ts,
      List.forall_mem_cons]

end

/-! ### Texts of types -/

lemma mem_toList_intercalate {c : Char} {sep : String} (hc : c ∉ sep.toList) (ss : List String) :
    c ∈ (String.intercalate sep ss).toList ↔ ∃ s ∈ ss, c ∈ s.toList := by
  rw [String.toList_intercalate, Text.mem_intercalate hc]
  simp

lemma mem_scalar (s : Scalar) : 'v' ∈ s.text.toList ↔ s = .never := by
  cases s <;> decide

mutual

/-- Of all the words that types are written with, only `never` has a `v` in it. -/
lemma mem_render : ∀ t : TypeTag, 'v' ∈ (render t).toList ↔ hasNever t = true
  | .scalar s => by simp [render, hasNever, mem_scalar]
  | .list item => by simp [render, hasNever, toString, mem_render item]
  | .dict key value => by simp [render, hasNever, toString, mem_render key, mem_render value]
  | .tuple items => by
    have hcomma : 'v' ∉ ", ".toList := by decide
    have hitems := mem_toList_intercalate hcomma (renderAll items)
    rw [mem_renderAll items] at hitems
    simp [render, hasNever, ← hitems]
  | .tupleOf item => by simp [render, hasNever, toString, mem_render item]
  | .optional inner => by simp [render, hasNever, toString, mem_render inner]
  | .union members => by
    rw [render, mem_toList_intercalate (by decide), mem_renderAll members, hasNever]

lemma mem_renderAll : ∀ ts : List TypeTag,
    (∃ s ∈ renderAll ts, 'v' ∈ s.toList) ↔ anyHasNever ts = true
  | [] => by simp [renderAll, anyHasNever]
  | t :: ts => by simp [renderAll, anyHasNever, mem_render t, mem_renderAll ts]

end

/-- Types with the same text agree on whether there is `never` in them. -/
lemma isWithout_congr {t u : TypeTag} (h : render t = render u) :
    IsWithout .never t ↔ IsWithout .never u := by
  have hsame : hasNever t = hasNever u := by
    rw [Bool.eq_iff_iff, ← mem_render, ← mem_render, h]
  rw [← hasNever_eq_false, ← hasNever_eq_false, hsame]

/-! ### Parameters and results -/

/-- What is written for the type of a parameter. -/
inductive TagsParameter : Option String → String → Prop
  | unannotated : TagsParameter none "unknown"
  | annotated {text : String} {tag : TypeTag} (hparse : parse text = .ok tag)
    (hnever : IsWithout .never tag) : TagsParameter (some text) (render tag)

/-- What is written for the type of a result, and whether the function never returns. -/
inductive TagsResult : Option String → Option String → Bool → Prop
  | unannotated : TagsResult none (some "unknown") false
  | nothing {text : String} (hparse : parse text = .ok (.scalar .null)) :
    TagsResult (some text) none false
  | never {text : String} (hparse : parse text = .ok (.scalar .never)) :
    TagsResult (some text) none true
  | value {text : String} {tag : TypeTag} (hparse : parse text = .ok tag)
    (hnull : tag ≠ .scalar .null) (hnever : IsWithout .never tag) :
    TagsResult (some text) (some (render tag)) false

lemma ofParameter_eq_ok {text : Option String} {t : String} :
    ofParameter text = .ok t ↔ TagsParameter text t := by
  constructor
  · intro h
    cases text with
    | none =>
      cases h
      exact .unannotated
    | some text =>
      obtain ⟨tag, hparse, h⟩ := except_bind_ok.mp h
      split_ifs at h with hnever
      cases h
      exact .annotated hparse ((hasNever_eq_false tag).mp (by simpa using hnever))
  · intro h
    cases h with
    | unannotated => rfl
    | annotated hparse hnever =>
      simp [ofParameter, hparse, (hasNever_eq_false _).mpr hnever, bind, Except.bind, pure, Except.pure]

lemma ofReturn_eq_ok {text r : Option String} {panics : Bool} :
    ofReturn text = .ok (r, panics) ↔ TagsResult text r panics := by
  constructor
  · intro h
    cases text with
    | none =>
      cases h
      exact .unannotated
    | some text =>
      obtain ⟨tag, hparse, h⟩ := except_bind_ok.mp h
      split_ifs at h with hnull hnever hmixed
      · cases h
        exact .nothing (hnull ▸ hparse)
      · cases h
        exact .never (hnever ▸ hparse)
      · cases h
        exact .value hparse hnull ((hasNever_eq_false tag).mp (by simpa using hmixed))
  · intro h
    cases h with
    | unannotated => rfl
    | nothing hparse => simp [ofReturn, hparse, bind, Except.bind, pure, Except.pure]
    | never hparse => simp [ofReturn, hparse, bind, Except.bind, pure, Except.pure]
    | @value text tag hparse hnull hnever =>
      have hne : tag ≠ .scalar .never := by
        rintro rfl
        exact hnever _ .refl rfl
      simp [ofReturn, hparse, hnull, hne, (hasNever_eq_false _).mpr hnever, bind, Except.bind, pure, Except.pure]

/-- An annotation that a parameter may have. -/
def IsParameterType (text : String) : Prop := ∃ tag, parse text = .ok tag ∧ IsWithout .never tag

/-- An annotation that a result may have: `never` only on its own. -/
def IsResultType (text : String) : Prop :=
  ∃ tag, parse text = .ok tag ∧ (tag = .scalar .never ∨ IsWithout .never tag)

lemma exists_tagsParameter {text : Option String} :
    (∃ t, TagsParameter text t) ↔ ∀ a ∈ text, IsParameterType a := by
  constructor
  · rintro ⟨t, h⟩ a ha
    cases h with
    | unannotated => cases ha
    | annotated hparse hnever =>
      cases ha
      exact ⟨_, hparse, hnever⟩
  · intro h
    cases text with
    | none => exact ⟨_, .unannotated⟩
    | some a =>
      obtain ⟨tag, hparse, hnever⟩ := h a rfl
      exact ⟨_, .annotated hparse hnever⟩

lemma exists_tagsResult {text : Option String} :
    (∃ r panics, TagsResult text r panics) ↔ ∀ a ∈ text, IsResultType a := by
  constructor
  · rintro ⟨r, panics, h⟩ a ha
    cases h with
    | unannotated => cases ha
    | nothing hparse =>
      cases ha
      exact ⟨_, hparse, .inr (isWithout_scalar (by decide))⟩
    | never hparse =>
      cases ha
      exact ⟨_, hparse, .inl rfl⟩
    | value hparse hnull hnever =>
      cases ha
      exact ⟨_, hparse, .inr hnever⟩
  · intro h
    cases text with
    | none => exact ⟨_, _, .unannotated⟩
    | some a =>
      obtain ⟨tag, hparse, rfl | hnever⟩ := h a rfl
      · exact ⟨_, _, .never hparse⟩
      · by_cases hnull : tag = .scalar .null
        · exact ⟨_, _, .nothing (hnull ▸ hparse)⟩
        · exact ⟨_, _, .value hparse hnull hnever⟩

/-! ### No text for `never` -/

lemma TagsParameter.isWithout {text : Option String} {t : String} {tag : TypeTag}
    (h : TagsParameter text t) (ht : render tag = t) : IsWithout .never tag := by
  cases h with
  | unannotated =>
    exact (isWithout_congr (u := .scalar .unknown) ht).mpr (isWithout_scalar (by decide))
  | annotated hparse hnever => exact (isWithout_congr ht).mpr hnever

lemma TagsResult.isWithout {text : Option String} {t : String} {panics : Bool}
    {tag : TypeTag} (h : TagsResult text (some t) panics) (ht : render tag = t) :
    IsWithout .never tag := by
  cases h with
  | unannotated =>
    exact (isWithout_congr (u := .scalar .unknown) ht).mpr (isWithout_scalar (by decide))
  | value hparse hnull hnever => exact (isWithout_congr ht).mpr hnever

end TypeTag

end ContractBuild.Abi

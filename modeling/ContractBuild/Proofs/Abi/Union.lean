import Mathlib
import ContractBuild.Proofs.Abi.Parse
import ContractBuild.Proofs.Abi.TypeTag

/-!
Unions of types. Whatever is read lists no alternative twice in one union and has no optional type
in a union or in an optional type. A union is taken over by the one around it unless it is optional
itself: then it stays whole where other alternatives are added to it.
-/

namespace ContractBuild.Abi

open ContractBuild.Text TypeTag

namespace TypeTag

def isUnion : TypeTag → Bool
  | .union _ => true
  | _ => false

def isNullable : TypeTag → Bool
  | .scalar .null | .optional _ => true
  | _ => false

/-- A union of two or more types, all different and none of them nullable; an optional type that is
not nullable without it. -/
def IsReduced : TypeTag → Prop
  | .union ts => 2 ≤ ts.length ∧ ts.Nodup ∧ ∀ t ∈ ts, t.isNullable = false
  | .optional t => t.isNullable = false
  | _ => True

/-- No union in a union. -/
def IsFlat : TypeTag → Prop
  | .union ts => ∀ t ∈ ts, t.isUnion = false
  | _ => True

end TypeTag

namespace Hint

def children : Hint → List Hint
  | .scalar _ | .anyList | .anyDict | .anyTuple => []
  | .list a | .tupleOf a | .optional a => [a]
  | .dict key value => [key, value]
  | .tuple items => items
  | .union first more => first :: more
  | .choice first second more => first :: second :: more

section Induction

variable {P : Hint → Prop}

mutual

/-- What holds of a hint when it holds of its children holds of all hints. -/
lemma induct (h : ∀ a, (∀ b ∈ a.children, P b) → P a) : ∀ a, P a
  | .scalar _ | .anyList | .anyDict | .anyTuple => h _ nofun
  | .list a | .tupleOf a | .optional a => h _ (List.forall_mem_singleton.mpr (induct h a))
  | .dict key value => h _ (by simpa [children] using ⟨induct h key, induct h value⟩)
  | .tuple items => h _ (inductAll h items)
  | .union first more => h _ (List.forall_mem_cons.mpr ⟨induct h first, inductAll h more⟩)
  | .choice first second more => h _ (List.forall_mem_cons.mpr
    ⟨induct h first, List.forall_mem_cons.mpr ⟨induct h second, inductAll h more⟩⟩)

lemma inductAll (h : ∀ a, (∀ b ∈ a.children, P b) → P a) : ∀ as : List Hint, ∀ b ∈ as, P b
  | [] => nofun
  | a :: as => List.forall_mem_cons.mpr ⟨induct h a, inductAll h as⟩

end

end Induction

/-- What is united, where there is something to unite. -/
def operands : Hint → List Hint
  | .optional a => [a, .scalar .null]
  | .union first more => first :: more
  | .choice first second more => first :: second :: more
  | _ => []

end Hint

/-! ### Distinct types -/

namespace TypeTag

section Distinct

variable {t : TypeTag} {acc xs ys : List TypeTag}

/-- The types but null, each where it first occurs. -/
def values (ts : List TypeTag) : List TypeTag := (ts.filter (· ≠ .scalar .null)).foldl insertNew []

lemma insertNew_of_mem {ts : List TypeTag} (h : t ∈ ts) : insertNew ts t = ts := if_pos h

lemma insertNew_of_not_mem {ts : List TypeTag} (h : t ∉ ts) : insertNew ts t = ts ++ [t] := if_neg h

/-- Inserting types one by one adds those that are not there, each once. -/
lemma foldl_insertNew (acc xs : List TypeTag) : xs.foldl insertNew acc =
    acc ++ (xs.foldl insertNew []).filter (· ∉ acc) := by
  induction xs using List.reverseRecOn with
  | nil => simp
  | append_singleton xs x ih =>
    rw [List.foldl_append, List.foldl_append, ih, List.foldl_cons, List.foldl_nil, List.foldl_cons,
      List.foldl_nil]
    by_cases hacc : x ∈ acc <;> by_cases hxs : x ∈ xs.foldl insertNew [] <;>
      simp [insertNew, hacc, hxs]

lemma mem_foldl_insertNew : t ∈ xs.foldl insertNew acc ↔ t ∈ acc ∨ t ∈ xs := by
  induction xs generalizing acc with
  | nil => simp
  | cons x xs ih =>
    rw [List.foldl_cons, ih, List.mem_cons]
    by_cases h : x ∈ acc
    · rw [insertNew_of_mem h]
      constructor
      · exact fun ht => ht.imp_right .inr
      · rintro (ht | rfl | ht)
        · exact .inl ht
        · exact .inl h
        · exact .inr ht
    · rw [insertNew_of_not_mem h, List.mem_append, List.mem_singleton, or_assoc]

lemma nodup_foldl_insertNew (h : acc.Nodup) : (xs.foldl insertNew acc).Nodup := by
  induction xs generalizing acc with
  | nil => exact h
  | cons x xs ih =>
    refine ih ?_
    by_cases hx : x ∈ acc
    · rwa [insertNew_of_mem hx]
    · rw [insertNew_of_not_mem hx]
      rw [← List.concat_eq_append]
      exact h.concat hx

lemma mem_values : t ∈ values xs ↔ t ∈ xs ∧ t ≠ .scalar .null := by
  simp [values, mem_foldl_insertNew]

lemma nodup_values (xs : List TypeTag) : (values xs).Nodup := nodup_foldl_insertNew List.nodup_nil

lemma values_append (xs ys : List TypeTag) :
    values (xs ++ ys) = values xs ++ (values ys).filter (· ∉ values xs) := by
  rw [values, List.filter_append, List.foldl_append, foldl_insertNew]
  rfl

lemma values_of_nodup (hnodup : xs.Nodup) (hnull : .scalar .null ∉ xs) : values xs = xs := by
  have hfilter : xs.filter (· ≠ .scalar .null) = xs := by
    rw [List.filter_eq_self]
    rintro t ht
    simpa using ne_of_mem_of_not_mem ht hnull
  rw [values, hfilter]
  clear hnull hfilter
  induction xs using List.reverseRecOn with
  | nil => rfl
  | append_singleton xs x ih =>
    rw [← List.concat_eq_append, List.nodup_concat] at hnodup
    rw [List.foldl_append, ih hnodup.2, List.foldl_cons, List.foldl_nil,
      insertNew_of_not_mem hnodup.1]

end Distinct

/-! ### One union -/

section Unite

variable {t v : TypeTag} {ts vs : List TypeTag} {nullable : Bool} {P : TypeTag → Prop}

/-- The union of distinct types, which are not null. -/
def assemble (vs : List TypeTag) (nullable : Bool) : TypeTag :=
  match vs with
  | [] => .scalar .null
  | [t] => if nullable then .optional t else t
  | ts => if nullable then .optional (.union ts) else .union ts

lemma unite_eq (ts : List TypeTag) : unite ts =
    assemble (values (ts.flatMap alternatives)) (.scalar .null ∈ ts.flatMap alternatives) := by
  unfold unite assemble
  simp only [decide_eq_true_eq]
  rfl

lemma assemble_of_two_le (h : 2 ≤ vs.length) :
    assemble vs nullable = if nullable then .optional (.union vs) else .union vs := by
  obtain _ | ⟨t, _ | ⟨u, vs⟩⟩ := vs
  · cases h
  · exact absurd h (by simp)
  · rfl

lemma everywhere_of_mem_alternatives (ht : Everywhere children P t) (hv : v ∈ alternatives t)
    (hne : v ≠ .scalar .null) : Everywhere children P v := by
  cases t with
  | union us => exact (everywhere_iff.mp ht).2 v hv
  | optional i =>
    rcases List.mem_pair.mp hv with rfl | rfl
    · exact (everywhere_iff.mp ht).2 v List.mem_cons_self
    · exact absurd rfl hne
  | scalar | list | dict | tuple | tupleOf =>
    rw [List.mem_singleton.mp hv]
    exact ht

lemma isNullable_of_mem_alternatives (ht : t.IsReduced) (hv : v ∈ alternatives t)
    (hne : v ≠ .scalar .null) : v.isNullable = false := by
  cases t with
  | union us => exact ht.2.2 v hv
  | optional i =>
    rcases List.mem_pair.mp hv with rfl | rfl
    · exact ht
    · exact absurd rfl hne
  | scalar s =>
    obtain rfl := List.mem_singleton.mp hv
    cases s <;> first | rfl | exact absurd rfl hne
  | list | dict | tuple | tupleOf =>
    rw [List.mem_singleton.mp hv]
    rfl

lemma isReduced_assemble (hvs : ∀ v ∈ vs, Everywhere children IsReduced v)
    (hnull : ∀ v ∈ vs, v.isNullable = false) (hnodup : vs.Nodup) :
    Everywhere children IsReduced (assemble vs nullable) := by
  have hoptional : ∀ t, Everywhere children IsReduced t → t.isNullable = false →
      Everywhere children IsReduced (if nullable then .optional t else t) := by
    intro t ht hnull
    cases nullable with
    | true => exact everywhere_iff.mpr ⟨hnull, List.forall_mem_singleton.mpr ht⟩
    | false => exact ht
  obtain _ | ⟨t, _ | ⟨u, vs⟩⟩ := vs
  · exact everywhere_scalar trivial
  · exact hoptional t (hvs t List.mem_cons_self) (hnull t List.mem_cons_self)
  · exact hoptional _ (everywhere_iff.mpr ⟨⟨by simp, hnodup, hnull⟩, hvs⟩) rfl

/-- The union of reduced types is reduced. -/
lemma isReduced_unite (h : ∀ t ∈ ts, Everywhere children IsReduced t) :
    Everywhere children IsReduced (unite ts) := by
  have hmem : ∀ v ∈ values (ts.flatMap alternatives),
      ∃ t ∈ ts, v ∈ alternatives t ∧ v ≠ .scalar .null := by
    intro v hv
    obtain ⟨hv, hne⟩ := mem_values.mp hv
    obtain ⟨t, ht, hv⟩ := List.mem_flatMap.mp hv
    exact ⟨t, ht, hv, hne⟩
  rw [unite_eq]
  refine isReduced_assemble (fun v hv => ?_) (fun v hv => ?_) (nodup_values _)
  · obtain ⟨t, ht, hv, hne⟩ := hmem v hv
    exact everywhere_of_mem_alternatives (h t ht) hv hne
  · obtain ⟨t, ht, hv, hne⟩ := hmem v hv
    exact isNullable_of_mem_alternatives (everywhere_iff.mp (h t ht)).1 hv hne

/-! ### Unions in a union -/

/-- An optional union has no other company than itself and null. -/
def AreUnmixed (ts : List TypeTag) : Prop :=
  ∀ us, .optional (.union us) ∈ ts → ∀ u ∈ ts, u = .optional (.union us) ∨ u = .scalar .null

lemma isFlat_assemble : Everywhere children IsFlat (assemble vs nullable) ↔
    (∀ v ∈ vs, Everywhere children IsFlat v) ∧ (2 ≤ vs.length → ∀ v ∈ vs, v.isUnion = false) := by
  have hoptional : ∀ t, Everywhere children IsFlat (if nullable then .optional t else t) ↔
      Everywhere children IsFlat t := by
    intro t
    cases nullable with
    | true =>
      rw [if_pos rfl, everywhere_iff]
      exact ⟨fun h => h.2 t List.mem_cons_self, fun h => ⟨trivial, List.forall_mem_singleton.mpr h⟩⟩
    | false => exact Iff.rfl
  obtain _ | ⟨t, _ | ⟨u, vs⟩⟩ := vs
  · exact ⟨fun _ => ⟨nofun, nofun⟩, fun _ => everywhere_scalar trivial⟩
  · refine (hoptional t).trans ⟨fun h => ⟨List.forall_mem_singleton.mpr h, fun hlen => ?_⟩,
      fun h => h.1 t List.mem_cons_self⟩
    exact absurd hlen (by simp)
  · refine (hoptional _).trans (everywhere_iff.trans ?_)
    exact ⟨fun h => ⟨h.2, fun _ => h.1⟩, fun h => ⟨h.2 (by simp), h.1⟩⟩

lemma mem_values_flatMap : v ∈ values (ts.flatMap alternatives) ↔
    (∃ t ∈ ts, v ∈ alternatives t) ∧ v ≠ .scalar .null := by
  rw [mem_values, List.mem_flatMap]

/-- What a reduced union has for members is all taken over. -/
lemma two_le_of_union_mem {us : List TypeTag} (hus : (TypeTag.union us).IsReduced)
    (hmem : .union us ∈ ts) : us ⊆ values (ts.flatMap alternatives) ∧
      2 ≤ (values (ts.flatMap alternatives)).length := by
  obtain ⟨hlen, hnodup, hnull⟩ := hus
  have hsub : us ⊆ values (ts.flatMap alternatives) := by
    intro u hu
    refine mem_values_flatMap.mpr ⟨⟨_, hmem, hu⟩, ?_⟩
    rintro rfl
    cases hnull _ hu
  exact ⟨hsub, hlen.trans (hnodup.subperm hsub).length_le⟩

lemma ne_null_of_isNullable (h : t.isNullable = false) : t ≠ .scalar .null := by
  rintro rfl
  cases h

/-- Where nothing but one union is taken over, every type is that union made optional, or null. -/
lemma eq_of_optional_union_mem {us : List TypeTag} (h : ∀ t ∈ ts, t.IsReduced)
    (hone : ∀ v ∈ values (ts.flatMap alternatives), v = .union us) :
    ∀ u ∈ ts, u = .optional (.union us) ∨ u = .scalar .null := by
  intro u hu
  by_cases hnull : u = .scalar .null
  · exact .inr hnull
  left
  cases u with
  | union ws =>
    obtain ⟨-, hlen⟩ := two_le_of_union_mem (h _ hu) hu
    have hsub : values (ts.flatMap alternatives) ⊆ [.union us] := fun v hv =>
      List.mem_singleton.mpr (hone v hv)
    have hle := ((nodup_values _).subperm hsub).length_le
    exact absurd (hlen.trans hle) (by simp)
  | optional i =>
    have hi : i ∈ values (ts.flatMap alternatives) :=
      mem_values_flatMap.mpr ⟨⟨_, hu, List.mem_cons_self⟩, ne_null_of_isNullable (h _ hu)⟩
    rw [hone i hi]
  | scalar | list | dict | tuple | tupleOf =>
    have hu := hone _ (mem_values_flatMap.mpr ⟨⟨_, hu, List.mem_singleton_self _⟩, hnull⟩)
    cases hu

/-- What is united is flat if all that is taken over from it is, and no union where there is more
than one of these. -/
lemma isFlat_of_values (ht : t ∈ ts) (hreduced : t.IsReduced)
    (hflat : ∀ v ∈ values (ts.flatMap alternatives), Everywhere children IsFlat v)
    (hunion : 2 ≤ (values (ts.flatMap alternatives)).length →
      ∀ v ∈ values (ts.flatMap alternatives), v.isUnion = false) :
    Everywhere children IsFlat t := by
  by_cases hnull : t = .scalar .null
  · rw [hnull]
    exact everywhere_scalar trivial
  cases t with
  | union us =>
    obtain ⟨hsub, hlen⟩ := two_le_of_union_mem hreduced ht
    exact everywhere_iff.mpr ⟨fun u hu => hunion hlen u (hsub hu), fun u hu => hflat u (hsub hu)⟩
  | optional i =>
    have hi : i ∈ values (ts.flatMap alternatives) :=
      mem_values_flatMap.mpr ⟨⟨_, ht, List.mem_cons_self⟩, ne_null_of_isNullable hreduced⟩
    exact everywhere_iff.mpr ⟨trivial, List.forall_mem_singleton.mpr (hflat i hi)⟩
  | scalar | list | dict | tuple | tupleOf =>
    exact hflat _ (mem_values_flatMap.mpr ⟨⟨_, ht, List.mem_singleton_self _⟩, hnull⟩)

/-- Nothing is taken over but the optional union, if that is not mixed with anything. -/
lemma AreUnmixed.values_subset {us : List TypeTag} (h : AreUnmixed ts)
    (hus : .optional (.union us) ∈ ts) : values (ts.flatMap alternatives) ⊆ [.union us] := by
  intro w hw
  obtain ⟨⟨u, hu, hwu⟩, hne⟩ := mem_values_flatMap.mp hw
  rcases h us hus u hu with rfl | rfl
  · exact List.mem_singleton.mpr ((List.mem_pair.mp hwu).resolve_right hne)
  · exact absurd (List.mem_singleton.mp hwu) hne

/-- A union is flat if what is united is, and no optional union is mixed with anything. -/
lemma isFlat_unite (h : ∀ t ∈ ts, t.IsReduced) : Everywhere children IsFlat (unite ts) ↔
    (∀ t ∈ ts, Everywhere children IsFlat t) ∧ AreUnmixed ts := by
  rw [unite_eq, isFlat_assemble]
  constructor
  · rintro ⟨hflat, hunion⟩
    refine ⟨fun t ht => isFlat_of_values ht (h t ht) hflat hunion, fun us hus => ?_⟩
    have hmem : .union us ∈ values (ts.flatMap alternatives) :=
      mem_values_flatMap.mpr ⟨⟨_, hus, List.mem_cons_self⟩, nofun⟩
    have hshort : (values (ts.flatMap alternatives)).length = 1 := by
      have hpos := List.length_pos_of_mem hmem
      by_contra hlen
      cases hunion (by omega) _ hmem
    obtain ⟨x, hx⟩ := List.length_eq_one_iff.mp hshort
    rw [hx] at hmem
    refine eq_of_optional_union_mem h fun v hv => ?_
    rw [hx] at hv
    rw [List.mem_singleton.mp hv, List.mem_singleton.mp hmem]
  · rintro ⟨hflat, hunmixed⟩
    constructor
    · intro v hv
      obtain ⟨⟨t, ht, hv⟩, hne⟩ := mem_values_flatMap.mp hv
      exact everywhere_of_mem_alternatives (hflat t ht) hv hne
    · intro hlen v hv
      obtain ⟨⟨t, ht, hvt⟩, hne⟩ := mem_values_flatMap.mp hv
      cases t with
      | union ws => exact (everywhere_iff.mp (hflat _ ht)).1 v hvt
      | optional i =>
        obtain rfl := (List.mem_pair.mp hvt).resolve_right hne
        cases v with
        | union us =>
          have hall := hunmixed.values_subset ht
          exact absurd (hlen.trans ((nodup_values _).subperm hall).length_le) (by simp)
        | _ => rfl
      | scalar | list | dict | tuple | tupleOf =>
        rw [List.mem_singleton.mp hvt]
        rfl

/-! ### The alternatives of a union -/

/-- Two lists with the same alternatives in the same order of first occurrences, where it does not
matter when null occurs. -/
structure SameAlternatives (xs ys : List TypeTag) : Prop where
  values : values xs = values ys
  null : .scalar .null ∈ xs ↔ .scalar .null ∈ ys

/-- A type that a union takes over as it is. -/
structure IsPlain (t : TypeTag) : Prop where
  notUnion : t.isUnion = false
  alternatives : alternatives t = [t]

lemma unite_of_isPlain (h : ∀ t ∈ ts, IsPlain t) :
    unite ts = assemble (values ts) (.scalar .null ∈ ts) := by
  have hflat : ts.flatMap alternatives = ts := by
    induction ts with
    | nil => rfl
    | cons t ts ih =>
      obtain ⟨ht, h⟩ := List.forall_mem_cons.mp h
      rw [List.flatMap_cons, ht.alternatives, ih h]
      rfl
  rw [unite_eq, hflat]

lemma unite_singleton (h : IsPlain t) : unite [t] = t := by
  rw [unite_of_isPlain (List.forall_mem_singleton.mpr h)]
  by_cases hnull : t = .scalar .null
  · rw [hnull]
    rfl
  · have hmem : .scalar .null ∉ [t] := List.mem_singleton.not.mpr (Ne.symm hnull)
    rw [values_of_nodup (List.nodup_singleton t) hmem, decide_eq_false hmem]
    rfl

lemma SameAlternatives.unite_eq {us : List TypeTag}
    (h : SameAlternatives (ts.flatMap TypeTag.alternatives) us) :
    unite ts = assemble (TypeTag.values us) (.scalar .null ∈ us) := by
  rw [TypeTag.unite_eq, h.values, decide_eq_decide.mpr h.null]

lemma SameAlternatives.append {xs ys xs' ys' : List TypeTag} (h : SameAlternatives xs ys)
    (h' : SameAlternatives xs' ys') : SameAlternatives (xs ++ xs') (ys ++ ys') := by
  constructor
  · rw [values_append, values_append, h.values, h'.values]
  · rw [List.mem_append, List.mem_append, h.null, h'.null]

/-- What the union of plain types contributes to another: just these types, unless it is an
optional union. -/
lemma unite_cases {ls : List TypeTag} (hne : ls ≠ []) (h : ∀ t ∈ ls, IsPlain t) :
    (∃ us, unite ls = .optional (.union us) ∧ values ls = us ∧ .scalar .null ∈ ls) ∨
      (∀ us, unite ls ≠ .optional (.union us)) ∧ SameAlternatives (alternatives (unite ls)) ls := by
  rw [unite_of_isPlain h]
  have hplain : ∀ v ∈ values ls, IsPlain v := fun v hv => h v (mem_values.mp hv).1
  have hvalues : values (values ls) = values ls :=
    values_of_nodup (nodup_values ls) fun hnull => (mem_values.mp hnull).2 rfl
  have hnotNull : .scalar .null ∉ values ls := fun hnull => (mem_values.mp hnull).2 rfl
  generalize hvs : values ls = vs at hplain hvalues hnotNull
  obtain _ | ⟨v, _ | ⟨w, vs⟩⟩ := vs
  · have hnull : .scalar .null ∈ ls := by
      obtain ⟨t, ht⟩ := List.exists_mem_of_ne_nil ls hne
      by_contra hnull
      have ht : t ∈ values ls := mem_values.mpr ⟨ht, ne_of_mem_of_not_mem ht hnull⟩
      rw [hvs] at ht
      cases ht
    exact .inr ⟨nofun, by rw [hvs]; rfl, by simp [assemble, alternatives, hnull]⟩
  · have hv := hplain v List.mem_cons_self
    have hv' : v ≠ .scalar .null := ne_of_mem_of_not_mem List.mem_cons_self hnotNull
    have hoptional : ∀ us, v ≠ .optional (.union us) := by
      rintro us rfl
      cases hv.alternatives
    by_cases hnull : .scalar .null ∈ ls
    · simp only [assemble, hnull, decide_true, if_true]
      refine .inr ⟨fun us heq => ?_, ?_, ?_⟩
      · cases heq
        cases hv.notUnion
      · rw [hvs]
        simp [values, alternatives, insertNew, hv']
      · simp [alternatives, hnull]
    · simp only [assemble, hnull, decide_false, Bool.false_eq_true, if_false]
      refine .inr ⟨hoptional, ?_, ?_⟩
      · rw [hv.alternatives, hvs, hvalues]
      · rw [hv.alternatives, List.mem_singleton]
        exact iff_of_false hv'.symm hnull
  · rw [assemble_of_two_le (by simp)]
    by_cases hnull : .scalar .null ∈ ls
    · exact .inl ⟨_, by simp [hnull], rfl, hnull⟩
    · simp only [hnull, decide_false, Bool.false_eq_true, if_false]
      exact .inr ⟨nofun, hvalues.trans hvs.symm, iff_of_false hnotNull hnull⟩

/-- Lists that each have certain values or none have these together. -/
lemma values_flatMap {α : Type} {as : List α} {f : α → List TypeTag} {us : List TypeTag}
    (h : ∀ a ∈ as, values (f a) = us ∨ values (f a) = []) (hsome : ∃ a ∈ as, values (f a) = us) :
    values (as.flatMap f) = us := by
  have hself : us ++ us.filter (· ∉ us) = us := by simp
  have hall : values (as.flatMap f) = us ∨
      values (as.flatMap f) = [] ∧ ∀ a ∈ as, values (f a) = [] := by
    clear hsome
    induction as with
    | nil => exact .inr ⟨rfl, nofun⟩
    | cons a as ih =>
      obtain ⟨ha, h⟩ := List.forall_mem_cons.mp h
      rw [List.flatMap_cons, values_append]
      rcases ha with ha | ha <;> rcases ih h with hrest | ⟨hrest, hnone⟩
      · rw [ha, hrest, hself]
        exact .inl rfl
      · rw [ha, hrest]
        simp
      · rw [ha, hrest]
        simp
      · rw [ha, hrest]
        exact .inr ⟨rfl, List.forall_mem_cons.mpr ⟨ha, hnone⟩⟩
  rcases hall with hall | ⟨hnil, hnone⟩
  · exact hall
  · obtain ⟨a, ha, hus⟩ := hsome
    rw [hnil, ← hus, hnone a ha]

end Unite

end TypeTag

/-! ### Hints -/

namespace Hint

variable {a : Hint} {bs : List Hint}

/-- No optional union is mixed with anything where this hint unites types. -/
def IsUnmixed (a : Hint) : Prop := AreUnmixed (tags a.operands)

mutual

/-- The alternatives of a hint, those of its operands included. -/
def leaves : Hint → List TypeTag
  | .optional a => leaves a ++ [.scalar .null]
  | .union first more => leaves first ++ leavesAll more
  | .choice first second more => leaves first ++ (leaves second ++ leavesAll more)
  | a => [tag a]

def leavesAll : List Hint → List TypeTag
  | [] => []
  | a :: r => leaves a ++ leavesAll r

end

lemma leavesAll_eq_flatMap (as : List Hint) : leavesAll as = as.flatMap leaves := by
  induction as with
  | nil => rfl
  | cons a as ih => rw [leavesAll, ih, List.flatMap_cons]

/-- A hint unites its operands, or has none. -/
inductive Unites : Hint → Prop where
  | plain {a : Hint} (hoperands : a.operands = []) (hleaves : a.leaves = [a.tag])
      (htag : IsPlain a.tag) : Unites a
  | united {a : Hint} (hne : a.operands ≠ []) (hleaves : a.leaves = a.operands.flatMap leaves)
      (htag : a.tag = unite (tags a.operands)) : Unites a

lemma unites (a : Hint) : a.Unites := by
  cases a with
  | optional a => exact .united (List.cons_ne_nil _ _) (by simp [leaves, operands, tag]) rfl
  | union first more =>
    exact .united (List.cons_ne_nil _ _) (by rw [leaves, leavesAll_eq_flatMap]; rfl) rfl
  | choice first second more =>
    exact .united (List.cons_ne_nil _ _) (by rw [leaves, leavesAll_eq_flatMap]; rfl) rfl
  | scalar | anyList | anyDict | anyTuple | list | dict | tuple | tupleOf =>
    exact .plain rfl rfl ⟨rfl, rfl⟩

/-- The operands of a hint are its children, and null. -/
lemma forall_operands {P : Hint → Prop} (hne : a.operands ≠ []) (hnull : P (.scalar .null)) :
    (∀ b ∈ a.operands, P b) ↔ ∀ b ∈ a.children, P b := by
  cases a with
  | optional a =>
    simp only [operands, children, List.forall_mem_cons, hnull, List.not_mem_nil, false_implies,
      implies_true, and_true]
  | union | choice => exact Iff.rfl
  | _ => exact absurd rfl hne

lemma leaves_spec (a : Hint) : a.leaves ≠ [] ∧ ∀ t ∈ a.leaves, IsPlain t := by
  induction a using induct with
  | h a ih =>
    cases a.unites with
    | plain _ hleaves htag =>
      rw [hleaves]
      exact ⟨nofun, List.forall_mem_singleton.mpr htag⟩
    | united hne hleaves _ =>
      have hoperands := (forall_operands hne
        ⟨nofun, List.forall_mem_singleton.mpr ⟨rfl, rfl⟩⟩).mpr ih
      rw [hleaves]
      obtain ⟨b, bs, hbs⟩ := List.exists_cons_of_ne_nil hne
      refine ⟨fun hnil => ?_, fun t ht => ?_⟩
      · have hb := hoperands b (by rw [hbs]; exact List.mem_cons_self)
        rw [hbs, List.flatMap_cons, List.append_eq_nil_iff] at hnil
        exact hb.1 hnil.1
      · obtain ⟨b, hb, ht⟩ := List.mem_flatMap.mp ht
        exact (hoperands b hb).2 t ht

/-- What an operand adds to the union of its alternatives, if it is an optional union or null. -/
lemma values_leaves (ha : a.tag = unite a.leaves) :
    (∀ us, a.tag = .optional (.union us) → values a.leaves = us ∧ .scalar .null ∈ a.leaves) ∧
      (a.tag = .scalar .null → values a.leaves = []) := by
  obtain ⟨hne, hplain⟩ := leaves_spec a
  rcases unite_cases hne hplain with ⟨us', hus, hvalues, hnull⟩ | ⟨hnot, hsame⟩
  · rw [ha, hus]
    refine ⟨fun us h => ?_, nofun⟩
    obtain rfl : us' = us := by simpa using h
    exact ⟨hvalues, hnull⟩
  · rw [ha]
    refine ⟨fun us h => absurd h (hnot us), fun h => ?_⟩
    rw [h] at hsame
    exact hsame.values.symm

/-- Operands that are not mixed are united as their alternatives are. -/
lemma unite_tags (hbs : ∀ b ∈ bs, b.tag = unite b.leaves) (hunmixed : AreUnmixed (tags bs)) :
    unite (tags bs) = unite (bs.flatMap leaves) := by
  have hplain : ∀ t ∈ bs.flatMap leaves, IsPlain t := by
    intro t ht
    obtain ⟨b, -, ht⟩ := List.mem_flatMap.mp ht
    exact (leaves_spec b).2 t ht
  rw [tags_eq_map] at hunmixed ⊢
  by_cases hoptional : ∃ us, .optional (.union us) ∈ bs.map tag
  · -- one optional union, again and again: the others are the same or null
    obtain ⟨us, hus⟩ := hoptional
    obtain ⟨b, hb, htag⟩ := List.mem_map.mp hus
    have hcompany : ∀ c ∈ bs, c.tag = .optional (.union us) ∨ c.tag = .scalar .null :=
      fun c hc => hunmixed us hus _ (List.mem_map_of_mem hc)
    obtain ⟨hvalues, hnull⟩ := (values_leaves (hbs b hb)).1 us htag
    have htags : values ((bs.map tag).flatMap alternatives) = [.union us] := by
      rw [List.flatMap_map]
      refine values_flatMap (fun c hc => ?_) ⟨b, hb, by rw [htag]; rfl⟩
      exact (hcompany c hc).imp (fun h => by rw [h]; rfl) (fun h => by rw [h]; rfl)
    have hleaves : values (bs.flatMap leaves) = us := by
      refine values_flatMap (fun c hc => ?_) ⟨b, hb, hvalues⟩
      exact (hcompany c hc).imp (fun h => ((values_leaves (hbs c hc)).1 us h).1)
        (values_leaves (hbs c hc)).2
    have hnullTags : .scalar .null ∈ (bs.map tag).flatMap alternatives :=
      List.mem_flatMap.mpr ⟨_, hus, by simp [alternatives]⟩
    have hnullLeaves : .scalar .null ∈ bs.flatMap leaves := List.mem_flatMap.mpr ⟨b, hb, hnull⟩
    calc unite (bs.map tag) = .optional (.union us) := by
          rw [unite_eq, htags, decide_eq_true hnullTags]; rfl
      _ = assemble us true := by
          rw [← htag, hbs b hb, unite_of_isPlain (leaves_spec b).2, hvalues, decide_eq_true hnull]
      _ = unite (bs.flatMap leaves) := by
          rw [unite_of_isPlain hplain, hleaves, decide_eq_true hnullLeaves]
  · have hsame : SameAlternatives ((bs.map tag).flatMap alternatives) (bs.flatMap leaves) := by
      clear hplain hunmixed
      induction bs with
      | nil => exact ⟨rfl, Iff.rfl⟩
      | cons b bs ih =>
        obtain ⟨hb, hbs⟩ := List.forall_mem_cons.mp hbs
        refine .append ?_ (ih hbs fun ⟨us, hus⟩ => hoptional ⟨us, List.mem_cons_of_mem _ hus⟩)
        obtain ⟨hne, hplain⟩ := leaves_spec b
        rcases unite_cases hne hplain with ⟨us, hus, -⟩ | ⟨-, hsame⟩
        · exact absurd ⟨us, List.mem_cons.mpr (.inl (hus ▸ hb).symm)⟩ hoptional
        · rw [hb]
          exact hsame
    rw [hsame.unite_eq, unite_of_isPlain hplain]

/-- What is not mixed anywhere has the type that its alternatives make up. -/
lemma tag_eq_unite_leaves (h : Everywhere children IsUnmixed a) : a.tag = unite a.leaves := by
  induction a using induct with
  | h a ih =>
    obtain ⟨ha, hchildren⟩ := everywhere_iff.mp h
    cases a.unites with
    | plain _ hleaves htag => rw [hleaves, unite_singleton htag]
    | united hne hleaves htag =>
      have hoperands := (forall_operands (P := fun b => b.tag = unite b.leaves) hne rfl).mpr
        fun b hb => ih b hb (hchildren b hb)
      rw [htag, hleaves, unite_tags hoperands ha]

/-- A type is made of the types of a hint's children, where nothing is united. -/
lemma everywhere_tag {P : TypeTag → Prop} (hoperands : a.operands = [])
    (hunion : ∀ t, t.isUnion = false → (∀ i, t ≠ .optional i) → P t) :
    Everywhere TypeTag.children P a.tag ↔
      ∀ b ∈ a.children, Everywhere TypeTag.children P b.tag := by
  have hscalar : ∀ s, Everywhere TypeTag.children P (.scalar s) := by
    refine fun s => everywhere_scalar (hunion _ rfl fun i hi => ?_)
    cases hi
  have hnode : P a.tag := by
    cases a with
    | optional | union | choice => cases hoperands
    | _ =>
      refine hunion _ rfl fun i hi => ?_
      cases hi
  rw [everywhere_iff, and_iff_right hnode]
  cases a with
  | optional | union | choice => cases hoperands
  | scalar => exact iff_of_true (List.forall_mem_nil _) (List.forall_mem_nil _)
  | anyList | anyDict | anyTuple =>
    exact iff_of_true (by simp [tag, TypeTag.children, hscalar]) (List.forall_mem_nil _)
  | list | dict | tupleOf => simp [tag, children, TypeTag.children]
  | tuple items =>
    simp only [tag, children, TypeTag.children, tags_eq_map, List.forall_mem_map]

/-- **Types of hints are reduced.** -/
lemma isReduced_tag (a : Hint) : Everywhere TypeTag.children IsReduced a.tag := by
  induction a using induct with
  | h a ih =>
    cases a.unites with
    | plain hoperands =>
      refine (everywhere_tag hoperands fun t hunion hoptional => ?_).mpr ih
      cases t with
      | union => cases hunion
      | optional i => exact absurd rfl (hoptional i)
      | _ => trivial
    | united hne _ htag =>
      rw [htag, tags_eq_map]
      exact isReduced_unite (List.forall_mem_map.mpr
        ((forall_operands hne (everywhere_scalar trivial)).mpr ih))

lemma isFlat_tag (a : Hint) :
    Everywhere TypeTag.children IsFlat a.tag ↔ Everywhere children IsUnmixed a := by
  induction a using induct with
  | h a ih =>
    rw [everywhere_iff (a := a), ← forall₂_congr ih]
    cases a.unites with
    | plain hoperands =>
      have hunmixed : a.IsUnmixed := by
        rw [IsUnmixed, hoperands]
        exact nofun
      rw [and_iff_right hunmixed]
      refine everywhere_tag hoperands fun t hunion _ => ?_
      cases t with
      | union => cases hunion
      | _ => trivial
    | united hne _ htag =>
      have hreduced : ∀ t ∈ tags a.operands, t.IsReduced := by
        rw [tags_eq_map, List.forall_mem_map]
        exact fun b _ => (everywhere_iff.mp b.isReduced_tag).1
      rw [htag, isFlat_unite hreduced, and_comm]
      refine and_congr_right fun _ => ?_
      rw [tags_eq_map, List.forall_mem_map]
      exact forall_operands hne (everywhere_scalar trivial)

end Hint

/-! ### Types of texts -/

/-- **The types that are read.** No union lists anything twice or anything nullable, and no optional
type is made of a nullable one, at any depth. However the text spells a hint, there is no union in a
union exactly if no optional union is mixed with other alternatives; and then only the alternatives
and the order in which they first occur matter, not how they are nested and repeated. -/
theorem parse_normal_form {text : String} {t : TypeTag} (h : parse text = .ok t) :
    Everywhere TypeTag.children IsReduced t ∧ (∃ a, Spells (trim text.toList) a) ∧
      ∀ a, Spells (trim text.toList) a →
        (Everywhere TypeTag.children IsFlat t ↔ Everywhere Hint.children (·.IsUnmixed) a) ∧
        ∀ (text' : String) (b : Hint), Spells (trim text'.toList) b →
          Everywhere Hint.children (·.IsUnmixed) a →
          Everywhere Hint.children (·.IsUnmixed) b → SameAlternatives a.leaves b.leaves →
          (parse text').map render = .ok (render t) := by
  obtain ⟨c, hc, rfl⟩ := parse_eq_ok.mp h
  refine ⟨c.isReduced_tag, ⟨c, hc⟩, fun a ha => ?_⟩
  obtain htag : c.tag = a.tag := Except.ok.inj (h.symm.trans (parse_eq_ok.mpr ⟨a, ha, rfl⟩))
  rw [htag]
  refine ⟨a.isFlat_tag, fun text' b hb hunmixed hunmixed' hsame => ?_⟩
  have htag : a.tag = b.tag := by
    rw [Hint.tag_eq_unite_leaves hunmixed, Hint.tag_eq_unite_leaves hunmixed',
      unite_of_isPlain a.leaves_spec.2, unite_of_isPlain b.leaves_spec.2, hsame.values,
      decide_eq_decide.mpr hsame.null]
  rw [htag, parse_eq_ok.mpr ⟨b, hb, rfl⟩]
  rfl

/-- The same alternatives, once with a repetition and once as one optional union. -/
theorem parse_normal_form_nested :
    ∃ t, parse "Optional[int] | Union[str, int]" = .ok t ∧
      Everywhere TypeTag.children IsReduced t ∧ Everywhere TypeTag.children IsFlat t ∧
      (parse "Optional[Union[int, str]]").map render = .ok (render t) := by
  have hspace : IsGap [' '] := List.forall_mem_singleton.mpr (by decide)
  have hint : Spells "int".toList (.scalar .int) := .scalar ⟨"", by decide, "int", by decide, rfl⟩
  have hstr : Spells "str".toList (.scalar .str) := .scalar ⟨"", by decide, "str", by decide, rfl⟩
  have hunion := Spells.two (f := .union) ⟨"", by decide, "Union", by decide, rfl⟩ hstr hspace
    hint rfl
  have hunion' := Spells.two (f := .union) ⟨"", by decide, "Union", by decide, rfl⟩ hint hspace
    hstr rfl
  have hoptional := Spells.one (f := .optional) ⟨"", by decide, "Optional", by decide, rfl⟩
    isGap_nil isGap_nil hint isGap_nil rfl
  have hoptional' := Spells.one (f := .optional) ⟨"", by decide, "Optional", by decide, rfl⟩
    isGap_nil isGap_nil hunion' isGap_nil rfl
  have hchoice := hoptional.either hspace hspace hunion rfl rfl
  have hflat : Everywhere TypeTag.children IsFlat
      (.optional (.union [.scalar .int, .scalar .str])) := by
    refine everywhere_iff.mpr ⟨trivial, List.forall_mem_singleton.mpr (everywhere_iff.mpr ⟨?_, ?_⟩)⟩
    · simp [IsFlat, isUnion]
    · exact List.forall_mem_cons.mpr ⟨everywhere_scalar trivial,
        List.forall_mem_singleton.mpr (everywhere_scalar trivial)⟩
  have hparse : parse "Optional[int] | Union[str, int]" =
      .ok (.optional (.union [.scalar .int, .scalar .str])) := by rfl
  obtain ⟨hreduced, -, hspelled⟩ := parse_normal_form hparse
  have hsame := (hspelled _ hchoice).2 "Optional[Union[int, str]]" _ hoptional'
    ((Hint.isFlat_tag _).mp hflat) ((Hint.isFlat_tag _).mp hflat) ⟨rfl, by decide⟩
  exact ⟨_, hparse, hreduced, hflat, hsame⟩

/-- An optional union that is mixed with one of its own alternatives lists it twice. -/
theorem mixed_union_is_not_flat :
    (parse "Optional[Union[int, str]] | int").map render = .ok "optional[int | str | int]" := by
  rfl

end ContractBuild.Abi

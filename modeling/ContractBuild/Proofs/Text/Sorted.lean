import Mathlib
import ContractBuild.Text.Sorted

/-!
Sorted sets and maps: one in increasing order is known by what it holds, in whatever order that is
given.
-/

namespace ContractBuild.Text

lemma mem_insertSorted {x y : String} {xs : List String} :
    y ∈ insertSorted x xs ↔ y = x ∨ y ∈ xs := by
  induction xs with
  | nil => simp [insertSorted]
  | cons z xs ih =>
    rw [insertSorted]
    split_ifs with h1 h2
    · subst h1; simp
    · simp
    · simp only [List.mem_cons, ih]; tauto

lemma pairwise_insertSorted {x : String} {xs : List String} (h : xs.Pairwise (· < ·)) :
    (insertSorted x xs).Pairwise (· < ·) := by
  induction xs with
  | nil => simp [insertSorted]
  | cons y xs ih =>
    obtain ⟨hy, hxs⟩ := List.pairwise_cons.mp h
    rw [insertSorted]
    split_ifs with heq hlt
    · exact h
    · refine List.pairwise_cons.mpr ⟨fun z hz => ?_, h⟩
      rcases List.mem_cons.mp hz with rfl | hz
      · exact hlt
      · exact hlt.trans (hy z hz)
    · refine List.pairwise_cons.mpr ⟨fun z hz => ?_, ih hxs⟩
      rcases mem_insertSorted.mp hz with rfl | hz
      · exact lt_of_le_of_ne (not_lt.mp hlt) (Ne.symm heq)
      · exact hy z hz

lemma mem_sortedSet {x : String} {xs : List String} : x ∈ sortedSet xs ↔ x ∈ xs := by
  have hfold (s : List String) :
      x ∈ xs.foldl (fun s x => insertSorted x s) s ↔ x ∈ s ∨ x ∈ xs := by
    induction xs generalizing s with
    | nil => simp
    | cons y xs ih =>
      rw [List.foldl_cons, ih, mem_insertSorted, List.mem_cons]
      tauto
  rw [sortedSet, hfold]
  simp

lemma pairwise_sortedSet (xs : List String) : (sortedSet xs).Pairwise (· < ·) := by
  have hfold (s : List String) (hs : s.Pairwise (· < ·)) :
      (xs.foldl (fun s x => insertSorted x s) s).Pairwise (· < ·) := by
    induction xs generalizing s with
    | nil => exact hs
    | cons y xs ih => exact ih _ (pairwise_insertSorted hs)
  exact hfold [] List.Pairwise.nil

/-- **The order in which elements are given does not matter.** -/
lemma sortedSet_congr {xs ys : List String} (h : ∀ x, x ∈ xs ↔ x ∈ ys) :
    sortedSet xs = sortedSet ys :=
  (pairwise_sortedSet xs).eq_of_mem_iff (pairwise_sortedSet ys) fun x => by
    rw [mem_sortedSet, mem_sortedSet, h]

/-! ### Sorted maps -/

variable {α : Type} {k : String} {v : α} {l : List (String × α)}

/-- The keys are in order, each once. -/
abbrev IsSorted (l : List (String × α)) : Prop := l.Pairwise fun p q => p.1 < q.1

lemma mem_putSorted {p : String × α} (h : p ∈ putSorted k v l) : p = (k, v) ∨ p ∈ l := by
  induction l with
  | nil => simpa [putSorted] using h
  | cons q l ih =>
    obtain ⟨k', v'⟩ := q
    rw [putSorted] at h
    split_ifs at h
    · exact (List.mem_cons.mp h).imp_right fun hp => List.mem_cons_of_mem _ hp
    · exact List.mem_cons.mp h
    · rcases List.mem_cons.mp h with rfl | hp
      · exact .inr List.mem_cons_self
      · exact (ih hp).imp_right fun hp => List.mem_cons_of_mem _ hp

lemma IsSorted.putSorted (h : IsSorted l) (k : String) (v : α) : IsSorted (putSorted k v l) := by
  induction l with
  | nil => simp [Text.putSorted]
  | cons q l ih =>
    obtain ⟨k', v'⟩ := q
    obtain ⟨hq, hl⟩ := List.pairwise_cons.mp h
    rw [Text.putSorted]
    split_ifs with heq hlt
    · exact List.pairwise_cons.mpr ⟨fun p hp => heq ▸ hq p hp, hl⟩
    · refine List.pairwise_cons.mpr ⟨fun p hp => ?_, h⟩
      rcases List.mem_cons.mp hp with rfl | hp
      · exact hlt
      · exact hlt.trans (hq p hp)
    · refine List.pairwise_cons.mpr ⟨fun p hp => ?_, ih hl⟩
      rcases mem_putSorted hp with rfl | hp
      · exact lt_of_le_of_ne (not_lt.mp hlt) (Ne.symm heq)
      · exact hq p hp

/-- Pairs in order of their keys; those of one key stay in order. -/
def sortByKey (l : List (String × α)) : List (String × α) := l.mergeSort fun p q => p.1 ≤ q.1

/-- A sorted map is restored by sorting, in whatever order its pairs are given. -/
lemma IsSorted.sortByKey_eq (h : IsSorted l) {l' : List (String × α)} (hperm : l'.Perm l) :
    sortByKey l' = l := by
  have hle : (sortByKey l').Pairwise fun p q => decide (p.1 ≤ q.1) = true :=
    List.pairwise_mergeSort
      (fun p q r hpq hqr => by simpa using le_trans (of_decide_eq_true hpq) (of_decide_eq_true hqr))
      (fun p q => by simpa using le_total p.1 q.1) l'
  have hsorted : (sortByKey l').Pairwise fun p q => p.1 ≤ q.1 := hle.imp of_decide_eq_true
  have hnodup : (l.map Prod.fst).Nodup := List.pairwise_map.mpr (h.imp ne_of_lt)
  have hback : (sortByKey l').Perm l := (List.mergeSort_perm _ _).trans hperm
  exact List.Perm.eq_of_pairwise (fun p q hp hq hpq hqp => List.inj_on_of_nodup_map hnodup
    (hback.mem_iff.mp hp) hq (le_antisymm hpq hqp)) hsorted (h.imp le_of_lt) hback

end ContractBuild.Text

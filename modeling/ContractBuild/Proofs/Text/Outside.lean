import Mathlib
import ContractBuild.Proofs.Text.Nested

/-!
What a text holds outside its brackets. Without a separator there it is not split, and without a
target there it is not cut.
-/

namespace ContractBuild.Text

/-- The characters outside all brackets, for a text that starts at depth `d`. -/
def outsideFrom : ℕ → List Char → List Char
  | _, [] => []
  | d, c :: r => if d = 0 then c :: outsideFrom (depthAfter d c) r else outsideFrom (depthAfter d c) r

/-- The characters of a text outside all brackets, with the brackets that stand there. -/
def outside (cs : List Char) : List Char := outsideFrom 0 cs

/-- A text that closes its brackets. -/
def IsClosed (cs : List Char) : Prop := cs.foldl depthAfter 0 = 0

instance (cs : List Char) : Decidable (IsGap cs) :=
  decidable_of_iff (cs.all isBlank = true) List.all_eq_true

instance (cs : List Char) : Decidable (IsClosed cs) :=
  inferInstanceAs (Decidable (cs.foldl depthAfter 0 = 0))

variable {c : Char} {d : ℕ} {g u v r : List Char}

/-! ### Depth -/

lemma depthAfter_of_not_bracket (hc : isOpening c = false ∧ isClosing c = false) :
    depthAfter d c = d := by
  simp [depthAfter, hc]

lemma foldl_depthAfter_of_forall (hu : ∀ c ∈ u, isOpening c = false ∧ isClosing c = false) :
    u.foldl depthAfter d = d := by
  induction u with
  | nil => rfl
  | cons c u ih =>
    obtain ⟨hc, hu⟩ := List.forall_mem_cons.mp hu
    rw [List.foldl_cons, depthAfter_of_not_bracket hc, ih hu]

lemma isClosed_of_forall (hu : ∀ c ∈ u, isOpening c = false ∧ isClosing c = false) : IsClosed u :=
  foldl_depthAfter_of_forall hu

lemma IsGap.isClosed (hg : IsGap g) : IsClosed g :=
  isClosed_of_forall fun c hc => isOpening_of_isBlank (hg c hc)

lemma IsClosed.append (hu : IsClosed u) (hv : IsClosed v) : IsClosed (u ++ v) := by
  rw [IsClosed, List.foldl_append, hu, hv]

lemma isClosed_singleton (hc : isOpening c = false ∧ isClosing c = false) : IsClosed [c] :=
  isClosed_of_forall (by simpa using hc)

lemma IsClosed.of_gap (hg : IsGap g) (h : IsClosed (u ++ g)) : IsClosed u := by
  rwa [IsClosed, List.foldl_append,
    foldl_depthAfter_of_forall fun c hc => isOpening_of_isBlank (hg c hc)] at h

/-! ### Characters outside -/

lemma outsideFrom_append (d : ℕ) (u v : List Char) :
    outsideFrom d (u ++ v) = outsideFrom d u ++ outsideFrom (u.foldl depthAfter d) v := by
  induction u generalizing d with
  | nil => rfl
  | cons c u ih =>
    rw [List.cons_append, outsideFrom, outsideFrom, ih, List.foldl_cons]
    split_ifs <;> rfl

lemma IsClosed.outside_append (hu : IsClosed u) : outside (u ++ v) = outside u ++ outside v := by
  rw [outside, outsideFrom_append, hu]
  rfl

lemma outsideFrom_subset (d : ℕ) (u : List Char) : outsideFrom d u ⊆ u := by
  induction u generalizing d with
  | nil => exact List.Subset.refl _
  | cons c u ih =>
    rw [outsideFrom]
    split_ifs
    · exact List.cons_subset_cons c (ih _)
    · exact List.subset_cons_of_subset c (ih _)

/-- A character outside stands behind a text that closes its brackets. -/
lemma exists_of_mem_outsideFrom {x : Char} (h : x ∈ outsideFrom d u) :
    ∃ p q, u = p ++ x :: q ∧ p.foldl depthAfter d = 0 := by
  induction u generalizing d with
  | nil => cases h
  | cons c u ih =>
    have hlater : x ∈ outsideFrom (depthAfter d c) u →
        ∃ p q, c :: u = p ++ x :: q ∧ p.foldl depthAfter d = 0 := by
      intro hx
      obtain ⟨p, q, rfl, hclosed⟩ := ih hx
      exact ⟨c :: p, q, rfl, hclosed⟩
    rw [outsideFrom] at h
    split_ifs at h with hd
    · rcases List.mem_cons.mp h with rfl | h
      · exact ⟨[], u, rfl, hd⟩
      · exact hlater h
    · exact hlater h

lemma not_mem_outside (h : c ∉ u) : c ∉ outside u := fun hc => h (outsideFrom_subset 0 u hc)

/-- The last character of a text that closes its brackets is a bracket or stands outside. -/
lemma IsClosed.mem_outside_of_getLast? (hu : IsClosed u) (hc : c ∈ u.getLast?)
    (hbracket : isOpening c = false ∧ isClosing c = false) : c ∈ outside u := by
  obtain ⟨p, rfl⟩ := List.getLast?_eq_some_iff.mp hc
  have hp : IsClosed p := by
    rwa [IsClosed, List.foldl_append, List.foldl_cons, List.foldl_nil,
      depthAfter_of_not_bracket hbracket] at hu
  rw [hp.outside_append]
  exact List.mem_append_right _ (by simp [outside, outsideFrom])

/-! ### Splitting and cutting -/

/-- Without `x` outside, a text is not cut at its first character, nor further on. -/
lemma not_mem_outsideFrom_cons {x : Char} : x ∉ outsideFrom d (c :: u) ↔
    ¬ (c == x && d == 0) = true ∧ x ∉ outsideFrom (depthAfter d c) u := by
  rw [outsideFrom, Bool.and_eq_true, beq_iff_eq, beq_iff_eq]
  split_ifs with hd
  · rw [List.mem_cons, not_or, and_iff_left hd, eq_comm]
  · exact (and_iff_right fun h => hd h.2).symm

lemma depthAfter_of_not_or (hc : ¬ (isOpening c || isClosing c) = true) : depthAfter d c = d := by
  rw [Bool.not_eq_true, Bool.or_eq_false_iff] at hc
  exact depthAfter_of_not_bracket hc

lemma splitAtDepth_append {sep : Char} (h : sep ∉ outsideFrom d u) :
    splitAtDepth sep d (u ++ r) =
      (splitAtDepth sep (u.foldl depthAfter d) r).modifyHead (u ++ ·) := by
  induction u generalizing d with
  | nil =>
    obtain ⟨p, ps, hp⟩ := List.exists_cons_of_ne_nil (splitAtDepth_ne_nil sep d r)
    simp [hp]
  | cons c u ih =>
    obtain ⟨hcut, htail⟩ := not_mem_outsideFrom_cons.mp h
    have hih := ih htail
    obtain ⟨p, ps, hp⟩ := List.exists_cons_of_ne_nil
      (splitAtDepth_ne_nil sep (u.foldl depthAfter (depthAfter d c)) r)
    rw [List.cons_append, splitAtDepth, List.foldl_cons, if_neg hcut]
    split_ifs with hc
    · rw [hih, hp]
      rfl
    · rw [depthAfter_of_not_or hc] at hih hp ⊢
      rw [hih, hp]
      rfl

lemma splitAtDepth_of_outside {sep : Char} (h : sep ∉ outsideFrom d u) :
    splitAtDepth sep d u = [u] := by
  have hcut := splitAtDepth_append (r := []) h
  rwa [List.append_nil, splitAtDepth, List.modifyHead_cons, List.append_nil] at hcut

lemma splitTop_of_outside {sep : Char} (h : sep ∉ outside u) : splitTop sep u = [u] :=
  splitAtDepth_of_outside h

/-- At a separator outside brackets a text is cut into what the texts on both sides are cut into. -/
lemma splitAtDepth_append_cons {sep : Char} (hsep : isOpening sep = false ∧ isClosing sep = false)
    (hu : u.foldl depthAfter d = 0) :
    splitAtDepth sep d (u ++ sep :: r) = splitAtDepth sep d u ++ splitTop sep r := by
  induction u generalizing d with
  | nil =>
    obtain rfl : d = 0 := hu
    simp [splitTop, splitAtDepth, hsep]
  | cons c u ih =>
    obtain ⟨p, ps, hp⟩ := List.exists_cons_of_ne_nil
      (splitAtDepth_ne_nil sep (depthAfter d c) u)
    have hih := ih hu
    rw [List.cons_append, splitAtDepth, splitAtDepth]
    split_ifs with hbracket hcut
    · rw [hih, hp]
      rfl
    · rw [depthAfter_of_not_or hbracket] at hih
      rw [hih]
      rfl
    · rw [depthAfter_of_not_or hbracket] at hih hp
      rw [hih, hp]
      rfl

lemma IsClosed.splitTop_append {sep : Char} (hu : IsClosed u)
    (hsep : isOpening sep = false ∧ isClosing sep = false) :
    splitTop sep (u ++ sep :: r) = splitTop sep u ++ splitTop sep r :=
  splitAtDepth_append_cons hsep hu

lemma passes_of_outside {sep : Char} (hu : IsClosed u) (h : sep ∉ outside u) :
    Passes sep 0 u := by
  intro r
  rw [splitAtDepth_append h, hu]

/-- A cut is put off by a text that has no target outside its brackets. -/
lemma cutAtDepth_append {target : Char} (prev : Option Char) (h : target ∉ outsideFrom d u) :
    cutAtDepth target prev d (u ++ r) =
      (cutAtDepth target (u.getLast?.or prev) (u.foldl depthAfter d) r).map
        fun p => (u ++ p.1, p.2) := by
  induction u generalizing d prev with
  | nil => simp
  | cons c u ih =>
    obtain ⟨hcut, htail⟩ := not_mem_outsideFrom_cons.mp h
    have hlast : (c :: u).getLast?.or prev = u.getLast?.or (some c) := by
      rw [List.getLast?_cons]
      cases u.getLast? <;> rfl
    have hih := ih (some c) htail
    rw [List.cons_append, cutAtDepth, hlast, List.foldl_cons, if_neg hcut]
    dsimp only
    split_ifs with hc
    · rw [hih, Option.map_map]
      rfl
    · rw [depthAfter_of_not_or hc] at hih ⊢
      rw [hih, Option.map_map]
      rfl

lemma cutTop_append {target : Char} (hu : IsClosed u) (h : target ∉ outside u) :
    cutTop target (u ++ r) =
      (cutAtDepth target u.getLast? 0 r).map fun p => (u ++ p.1, p.2) := by
  rw [cutTop, cutAtDepth_append none h, hu, Option.or_none]

lemma cutTop_of_outside {target : Char} (hu : IsClosed u) (h : target ∉ outside u) :
    cutTop target u = none := by
  have hcut := cutTop_append (r := []) hu h
  rwa [List.append_nil] at hcut

lemma cutTop_at {target : Char} (hu : IsClosed u) (h : target ∉ outside u)
    (htarget : isOpening target = false ∧ isClosing target = false) (hne : target ≠ '=') :
    cutTop target (u ++ target :: r) = some (u, r) := by
  rw [cutTop_append hu h, cutAtDepth]
  simp [htarget, hne]

/-- An equals sign that is no part of a longer operator. -/
lemma cutTop_equals (hu : IsClosed u) (h : '=' ∉ outside u)
    (hlast : ∀ c ∈ u.getLast?, joinsEquals c = false) (hr : r.head? ≠ some '=') :
    cutTop '=' (u ++ '=' :: r) = some (u, r) := by
  have hjoins : u.getLast?.any joinsEquals = false := by
    cases hc : u.getLast? with
    | none => rfl
    | some c => exact hlast c hc
  have hnext : (r.head? == some '=') = false := by simpa using hr
  rw [cutTop_append hu h, cutAtDepth]
  simp [hjoins, hnext, isOpening, isClosing]

end ContractBuild.Text

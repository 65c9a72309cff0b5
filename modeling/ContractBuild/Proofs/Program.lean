import Mathlib

/-!
Programs that may fail: what has happened when a sequence of steps succeeds or fails. Programs that
work on a state: what they ensure, and what they keep.
-/

namespace ContractBuild

section Pure

variable {ε α β : Type}

lemma except_bind_ok {x : Except ε α} {f : α → Except ε β} {b : β} :
    x >>= f = .ok b ↔ ∃ a, x = .ok a ∧ f a = .ok b := by
  rcases x with e | a
  · constructor
    · intro h; cases h
    · rintro ⟨a, h, -⟩; cases h
  · constructor
    · exact fun h => ⟨a, rfl, h⟩
    · rintro ⟨a', h, hf⟩
      cases h
      exact hf

lemma except_bind_error {x : Except ε α} {f : α → Except ε β} {e : ε} :
    x >>= f = .error e ↔ x = .error e ∨ ∃ a, x = .ok a ∧ f a = .error e := by
  rcases x with e' | a
  · constructor
    · intro h
      cases h
      exact .inl rfl
    · rintro (h | ⟨a, h, -⟩)
      · cases h
        rfl
      · cases h
  · constructor
    · exact fun h => .inr ⟨a, rfl, h⟩
    · rintro (h | ⟨a', h, hf⟩)
      · cases h
      · cases h
        exact hf

lemma except_map_eq_ok {x : Except ε α} {f : α → β} {b : β} :
    x.map f = .ok b ↔ ∃ a, x = .ok a ∧ f a = b := by
  rcases x with e | a <;> simp [Except.map]

lemma except_map_eq_error {x : Except ε α} {f : α → β} {e : ε} :
    x.map f = .error e ↔ x = .error e := by
  rcases x with e' | a <;> simp [Except.map]

/-- A list is mapped element by element. -/
lemma except_mapM_eq_ok {f : α → Except ε β} {xs : List α} {ys : List β} :
    xs.mapM f = .ok ys ↔ List.Forall₂ (fun x y => f x = .ok y) xs ys := by
  induction xs generalizing ys with
  | nil => cases ys <;> simp [pure, Except.pure]
  | cons x xs ih =>
    rw [List.mapM_cons]
    constructor
    · intro h
      obtain ⟨y, hy, h⟩ := except_bind_ok.mp h
      obtain ⟨ys', hys, h⟩ := except_bind_ok.mp h
      cases h
      exact .cons hy (ih.mp hys)
    · intro h
      cases h with
      | cons hy hys => exact except_bind_ok.mpr ⟨_, hy, except_bind_ok.mpr ⟨_, ih.mpr hys, rfl⟩⟩

lemma option_mapM_eq_some {f : α → Option β} {xs : List α} {ys : List β} :
    xs.mapM f = some ys ↔ List.Forall₂ (fun x y => f x = some y) xs ys := by
  induction xs generalizing ys with
  | nil => cases ys <;> simp
  | cons x xs ih =>
    rw [List.mapM_cons]
    constructor
    · intro h
      obtain ⟨y, hy, h⟩ := Option.bind_eq_some_iff.mp h
      obtain ⟨ys', hys, h⟩ := Option.bind_eq_some_iff.mp h
      cases h
      exact .cons hy (ih.mp hys)
    · intro h
      cases h with
      | cons hy hys => rw [hy, ih.mpr hys]; rfl

lemma forall_right_of_forall₂ {R : α → β → Prop} {P : β → Prop} {xs : List α} {ys : List β}
    (h : List.Forall₂ R xs ys) (hP : ∀ x y, R x y → P y) : ∀ y ∈ ys, P y := by
  induction h with
  | nil => nofun
  | cons hxy _ ih => exact List.forall_mem_cons.mpr ⟨hP _ _ hxy, ih⟩

lemma toOption_eq_some {x : Except ε α} {a : α} : x.toOption = some a ↔ x = .ok a := by
  cases x <;> simp [Except.toOption]

lemma toOption_any_eq_true {x : Except ε α} {p : α → Bool} :
    x.toOption.any p = true ↔ ∃ a, x = .ok a ∧ p a = true := by
  cases x <;> simp [Except.toOption]

end Pure

section Transformed

variable {ε α β : Type}

/-- Over a monad without effects, failing programs are just results. -/
lemma bind_eq_except (x : ExceptT ε Id α) (f : α → ExceptT ε Id β) :
    x >>= f = ((show Except ε α from x) >>= fun a => (show Except ε β from f a)) := by
  rcases x with e | a <;> rfl

lemma bind_eq_ok {x : ExceptT ε Id α} {f : α → ExceptT ε Id β} {b : β} :
    x >>= f = Except.ok b ↔ ∃ a, x = Except.ok a ∧ f a = Except.ok b := by
  rw [bind_eq_except]
  exact except_bind_ok

lemma bind_eq_error {x : ExceptT ε Id α} {f : α → ExceptT ε Id β} {e : ε} :
    x >>= f = Except.error e ↔ x = Except.error e ∨ ∃ a, x = Except.ok a ∧ f a = Except.error e := by
  rw [bind_eq_except]
  exact except_bind_error

lemma lift_eq_ok {x : Except ε α} {a : α} :
    (liftM x : ExceptT ε Id α) = Except.ok a ↔ x = .ok a := by
  rcases x with e | b
  · exact ⟨nofun, nofun⟩
  · constructor
    · intro h; cases h; rfl
    · intro h; cases h; rfl

lemma lift_eq_error {x : Except ε α} {e : ε} :
    (liftM x : ExceptT ε Id α) = Except.error e ↔ x = .error e := by
  rcases x with e' | a
  · constructor
    · intro h; cases h; rfl
    · intro h; cases h; rfl
  · exact ⟨nofun, nofun⟩

lemma lift_id_eq_ok {x a : α} :
    (liftM (show Id α from x) : ExceptT ε Id α) = Except.ok a ↔ x = a :=
  ⟨fun h => Except.ok.inj h, fun h => congrArg Except.ok h⟩

lemma foldlM_cons_ok {f : β → α → ExceptT ε Id β} {b b' : β} {a : α}
    {as : List α} (h : (a :: as).foldlM f b = Except.ok b') :
    ∃ c, f b a = Except.ok c ∧ as.foldlM f c = Except.ok b' := by
  rw [List.foldlM_cons] at h
  exact bind_eq_ok.mp h

/-- If all steps together fail, one of them does. -/
lemma exists_of_foldlM_error {f : β → α → ExceptT ε Id β} {e : ε} {as : List α} {b : β}
    (h : as.foldlM f b = Except.error e) : ∃ b', ∃ a ∈ as, f b' a = Except.error e := by
  induction as generalizing b with
  | nil => cases h
  | cons a as ih =>
    rw [List.foldlM_cons] at h
    rcases bind_eq_error.mp h with h | ⟨b', -, h⟩
    · exact ⟨b, a, List.mem_cons_self, h⟩
    · obtain ⟨b'', a', ha', h⟩ := ih h
      exact ⟨b'', a', List.mem_cons_of_mem _ ha', h⟩

lemma exists_foldlM {f : β → α → ExceptT ε Id β} {as : List α}
    (hf : ∀ a ∈ as, ∀ b, ∃ b', f b a = Except.ok b') (b : β) :
    ∃ b', as.foldlM f b = Except.ok b' := by
  induction as generalizing b with
  | nil => exact ⟨b, rfl⟩
  | cons a as ih =>
    obtain ⟨c, hc⟩ := hf a List.mem_cons_self b
    obtain ⟨b', hb'⟩ := ih (fun d hd => hf d (List.mem_cons_of_mem _ hd)) c
    exact ⟨b', by rw [List.foldlM_cons]; exact bind_eq_ok.mpr ⟨c, hc, hb'⟩⟩

/-- What every step preserves is preserved by all of them. -/
lemma foldlM_preserves {P : β → Prop} {f : β → α → ExceptT ε Id β}
    (hf : ∀ b a b', f b a = Except.ok b' → P b → P b') {as : List α} {b b' : β}
    (h : as.foldlM f b = Except.ok b') (hb : P b) : P b' := by
  induction as generalizing b with
  | nil => cases h; exact hb
  | cons a as ih =>
    obtain ⟨c, h1, h2⟩ := foldlM_cons_ok h
    exact ih h2 (hf b a c h1 hb)

/-- What every step keeps up with, all of them together keep up with. -/
lemma foldlM_mirrors {β' : Type} {R : β → β' → Prop} {f : β → α → ExceptT ε Id β}
    {f' : β' → α → ExceptT ε Id β'} {as : List α}
    (hf : ∀ a ∈ as, ∀ b b' c, R b b' → f b a = Except.ok c →
      ∃ c', f' b' a = Except.ok c' ∧ R c c') {b c : β} {b' : β'} (hb : R b b')
    (h : as.foldlM f b = Except.ok c) : ∃ c', as.foldlM f' b' = Except.ok c' ∧ R c c' := by
  induction as generalizing b b' with
  | nil =>
    cases h
    exact ⟨b', rfl, hb⟩
  | cons a as ih =>
    obtain ⟨b₁, h1, h2⟩ := foldlM_cons_ok h
    obtain ⟨b₁', h1', hb₁⟩ := hf a List.mem_cons_self b b' b₁ hb h1
    obtain ⟨c', h2', hc⟩ := ih (fun d hd => hf d (List.mem_cons_of_mem _ hd)) hb₁ h2
    exact ⟨c', by rw [List.foldlM_cons]; exact bind_eq_ok.mpr ⟨b₁', h1', h2'⟩, hc⟩

end Transformed

/-! ### Programs that work on a state -/

section Stateful

variable {σ ε δ α β : Type} {P : σ → Prop}

/-- Wherever `P` holds, the program ends with a result and a state for which `Q` holds. -/
def Ensures (P : σ → Prop) (act : StateM σ α) (Q : α → σ → Prop) : Prop :=
  ∀ s, P s → Q (act s : α × σ).1 (act s : α × σ).2

/-- The program does not leave the states where `P` holds. -/
abbrev Keeps (P : σ → Prop) (act : StateM σ α) : Prop := Ensures P act fun _ => P

lemma Ensures.mono {act : StateM σ α} {Q R : α → σ → Prop} (h : Ensures P act Q)
    (hQR : ∀ a s, Q a s → R a s) : Ensures P act R :=
  fun s hs => hQR _ _ (h s hs)

lemma Ensures.weaken {act : StateM σ α} {P' : σ → Prop} {Q : α → σ → Prop} (h : Ensures P act Q)
    (hP : ∀ s, P' s → P s) : Ensures P' act Q :=
  fun s hs => h s (hP s hs)

lemma Ensures.pure {a : α} {Q : α → σ → Prop} (h : ∀ s, P s → Q a s) :
    Ensures P (Pure.pure a : StateM σ α) Q := h

lemma Ensures.bind {x : StateM σ α} {f : α → StateM σ β} {Q : α → σ → Prop} {R : β → σ → Prop}
    (hx : Ensures P x Q) (hf : ∀ a, Ensures (Q a) (f a) R) : Ensures P (x >>= f) R :=
  fun s hs => hf _ _ (hx s hs)

lemma Keeps.pure (a : α) : Keeps P (Pure.pure a : StateM σ α) := fun _ h => h

lemma Keeps.bind {x : StateM σ α} {f : α → StateM σ β} (hx : Keeps P x) (hf : ∀ a, Keeps P (f a)) :
    Keeps P (x >>= f) :=
  Ensures.bind hx hf

lemma Keeps.map {x : StateM σ α} (hx : Keeps P x) (f : α → β) : Keeps P (f <$> x) := hx

lemma Keeps.of_eq {x : StateM σ α} {s s' : σ} {a : α} (hx : Keeps P x) (hs : P s)
    (h : x s = (a, s')) : P s' := by
  have := hx s hs
  rw [h] at this
  exact this

lemma Keeps.foldlM {f : β → α → StateM σ β} (hf : ∀ b a, Keeps P (f b a)) (as : List α) (b : β) :
    Keeps P (as.foldlM f b) := by
  induction as generalizing b with
  | nil => exact Keeps.pure b
  | cons a as ih =>
    rw [List.foldlM_cons]
    exact (hf b a).bind ih

lemma Keeps.forM {f : α → StateM σ PUnit} {as : List α} (hf : ∀ a ∈ as, Keeps P (f a)) :
    Keeps P (as.forM f) := by
  induction as with
  | nil => exact Keeps.pure _
  | cons a as ih =>
    exact (hf a List.mem_cons_self).bind fun _ => ih fun b hb => hf b (List.mem_cons_of_mem _ hb)

lemma Keeps.mapM {f : α → StateM σ β} (hf : ∀ a, Keeps P (f a)) (as : List α) :
    Keeps P (as.mapM f) := by
  induction as with
  | nil => exact Keeps.pure _
  | cons a as ih =>
    rw [List.mapM_cons]
    exact (hf a).bind fun _ => ih.bind fun _ => Keeps.pure _

/-! ### Failing programs that work on a state -/

/-- A success meets `Q`, and a failure meets `E`. -/
def Meets (E : ε → σ → Prop) (Q : α → σ → Prop) : Except ε α → σ → Prop
  | .ok a => Q a
  | .error e => E e

/-- A success meets `Q`, and a failure ends in a state where `E` holds. -/
abbrev Ends (E : σ → Prop) (Q : α → σ → Prop) : Except ε α → σ → Prop := Meets (fun _ => E) Q

lemma Ensures.bind_meets {x : ExceptT ε (StateM σ) α} {f : α → ExceptT ε (StateM σ) β}
    {E : ε → σ → Prop} {Q : α → σ → Prop} {R : β → σ → Prop} (hx : Ensures P x.run (Meets E Q))
    (hf : ∀ a, Ensures (Q a) (f a).run (Meets E R)) : Ensures P (x >>= f).run (Meets E R) := by
  intro s hs
  have hrun := hx s hs
  change Meets E R (ExceptT.bindCont f (x.run s : Except ε α × σ).1 (x.run s : Except ε α × σ).2).1
    (ExceptT.bindCont f (x.run s : Except ε α × σ).1 (x.run s : Except ε α × σ).2).2
  revert hrun
  generalize (x.run s : Except ε α × σ) = p
  obtain ⟨r, s'⟩ := p
  intro hrun
  cases r with
  | error e => exact hrun
  | ok a => exact hf a s' hrun

/-- Work that never fails has a result. -/
lemma Ensures.succeeds {x : ExceptT ε (StateM σ) α} {Q : α → σ → Prop}
    (hx : Ensures P x.run (Meets (fun _ _ => False) Q)) {s : σ} (hs : P s) :
    ∃ a s', x.run s = (.ok a, s') ∧ Q a s' := by
  have hrun := hx s hs
  revert hrun
  generalize (x.run s : Except ε α × σ) = p
  obtain ⟨r, s'⟩ := p
  intro hrun
  cases r with
  | error e => exact hrun.elim
  | ok a => exact ⟨a, s', rfl, hrun⟩

lemma Meets.imp {E E' : ε → σ → Prop} {Q Q' : α → σ → Prop} (hE : ∀ e s, E e s → E' e s)
    (hQ : ∀ a s, Q a s → Q' a s) : ∀ (r : Except ε α) (s : σ), Meets E Q r s → Meets E' Q' r s
  | .ok a, s, h => hQ a s h
  | .error e, s, h => hE e s h

lemma Ensures.bind_ok {x : ExceptT ε (StateM σ) α} {f : α → ExceptT ε (StateM σ) β} {E : σ → Prop}
    {Q : α → σ → Prop} {R : β → σ → Prop} (hx : Ensures P x.run (Ends E Q))
    (hf : ∀ a, Ensures (Q a) (f a).run (Ends E R)) : Ensures P (x >>= f).run (Ends E R) :=
  Ensures.bind_meets hx hf

lemma Ensures.pure_ok {a : α} {E : σ → Prop} {Q : α → σ → Prop} (h : ∀ s, P s → Q a s) :
    Ensures P (Pure.pure a : ExceptT ε (StateM σ) α).run (Ends E Q) := h

lemma Ensures.lift {x : StateM σ α} {E : σ → Prop} {Q : α → σ → Prop} (hx : Ensures P x Q) :
    Ensures P (liftM x : ExceptT ε (StateM σ) α).run (Ends E Q) := hx

lemma Ends.imp {E E' : σ → Prop} {Q Q' : α → σ → Prop} (hE : ∀ s, E s → E' s)
    (hQ : ∀ a s, Q a s → Q' a s) (r : Except ε α) (s : σ) (h : Ends E Q r s) : Ends E' Q' r s :=
  Meets.imp (fun _ => hE) hQ r s h

lemma ends_same (r : Except ε α) (s : σ) : Ends P (fun _ => P) r s ↔ P s := by
  cases r <;> rfl

lemma ensures_same {x : ExceptT ε (StateM σ) α} {Q : σ → Prop} :
    Ensures P x.run (Ends Q fun _ => Q) ↔ Ensures P x.run fun _ => Q :=
  ⟨fun h => h.mono fun r s => (ends_same r s).mp, fun h => h.mono fun r s => (ends_same r s).mpr⟩

lemma keeps_iff_ends {x : ExceptT ε (StateM σ) α} :
    Keeps P x.run ↔ Ensures P x.run (Ends P fun _ => P) :=
  ensures_same.symm

lemma Keeps.bind_ok {x : ExceptT ε (StateM σ) α} {f : α → ExceptT ε (StateM σ) β}
    (hx : Keeps P x.run) (hf : ∀ a, Keeps P (f a).run) : Keeps P (x >>= f).run :=
  keeps_iff_ends.mpr (Ensures.bind_ok (keeps_iff_ends.mp hx) fun a => keeps_iff_ends.mp (hf a))

lemma Keeps.pure_ok (a : α) : Keeps P (Pure.pure a : ExceptT ε (StateM σ) α).run := fun _ h => h

lemma Keeps.throw (e : ε) : Keeps P (throw e : ExceptT ε (StateM σ) α).run := fun _ h => h

lemma Keeps.lift {x : StateM σ α} (hx : Keeps P x) :
    Keeps P (liftM x : ExceptT ε (StateM σ) α).run := hx

lemma Keeps.foldlM_ok {f : β → α → ExceptT ε (StateM σ) β} (hf : ∀ b a, Keeps P (f b a).run)
    (as : List α) (b : β) : Keeps P (as.foldlM f b).run := by
  induction as generalizing b with
  | nil => exact Keeps.pure_ok b
  | cons a as ih =>
    rw [List.foldlM_cons]
    exact (hf b a).bind_ok ih

lemma Keeps.forM_ok {f : α → ExceptT ε (StateM σ) PUnit} (hf : ∀ a, Keeps P (f a).run)
    (as : List α) : Keeps P (as.forM f).run := by
  induction as with
  | nil => exact Keeps.pure_ok _
  | cons a as ih =>
    exact (hf a).bind_ok fun _ => ih

lemma Keeps.mapM_ok {f : α → ExceptT ε (StateM σ) β} (hf : ∀ a, Keeps P (f a).run)
    (as : List α) : Keeps P (as.mapM f).run := by
  induction as with
  | nil => exact Keeps.pure_ok _
  | cons a as ih =>
    rw [List.mapM_cons]
    exact (hf a).bind_ok fun _ => ih.bind_ok fun _ => Keeps.pure_ok _

lemma state_bind {x : StateM σ α} {f : α → StateM σ β} {s s' : σ} {a : α} (h : x s = (a, s')) :
    (x >>= f) s = f a s' := by
  change f (x s : α × σ).1 (x s : α × σ).2 = _
  rw [h]

lemma run_bind_lift (x : StateM σ α) (f : α → ExceptT ε (StateM σ) β) (s : σ) :
    ((liftM x : ExceptT ε (StateM σ) α) >>= f).run s = (f (x s : α × σ).1).run (x s : α × σ).2 :=
  rfl

lemma run_bind_of_ok {x : ExceptT ε (StateM σ) α} {f : α → ExceptT ε (StateM σ) β} {s s' : σ}
    {a : α} (h : x.run s = (.ok a, s')) : (x >>= f).run s = (f a).run s' := by
  change ExceptT.bindCont f (x.run s : Except ε α × σ).1 (x.run s : Except ε α × σ).2 = _
  rw [h]
  rfl

lemma run_bind_of_error {x : ExceptT ε (StateM σ) α} {f : α → ExceptT ε (StateM σ) β} {s s' : σ}
    {e : ε} (h : x.run s = (.error e, s')) : (x >>= f).run s = (.error e, s') := by
  change ExceptT.bindCont f (x.run s : Except ε α × σ).1 (x.run s : Except ε α × σ).2 = _
  rw [h]
  rfl

lemma run_bind_eq_ok {x : ExceptT ε (StateM σ) α} {f : α → ExceptT ε (StateM σ) β} {s s' : σ}
    {b : β} (h : (x >>= f).run s = (.ok b, s')) :
    ∃ a s₁, x.run s = (.ok a, s₁) ∧ (f a).run s₁ = (.ok b, s') := by
  have hrun : (x >>= f).run s =
      ExceptT.bindCont f (x.run s : Except ε α × σ).1 (x.run s : Except ε α × σ).2 := rfl
  rw [hrun] at h
  revert h
  generalize hp : (x.run s : Except ε α × σ) = p
  obtain ⟨r, s₁⟩ := p
  intro h
  cases r with
  | error e => cases h
  | ok a => exact ⟨a, s₁, rfl, h⟩

/-- Whatever the program succeeds with, `Q` holds of it. -/
def Gives (x : ExceptT ε (StateM σ) α) (Q : α → Prop) : Prop :=
  ∀ s a s', x.run s = (.ok a, s') → Q a

lemma Gives.bind {x : ExceptT ε (StateM σ) α} {f : α → ExceptT ε (StateM σ) β} {Q : α → Prop}
    {R : β → Prop} (hx : Gives x Q) (hf : ∀ a, Q a → Gives (f a) R) : Gives (x >>= f) R := by
  intro s b s' h
  obtain ⟨a, s₁, h1, h2⟩ := run_bind_eq_ok h
  exact hf a (hx s a s₁ h1) s₁ b s' h2

lemma Gives.bind_any {x : ExceptT ε (StateM σ) α} {f : α → ExceptT ε (StateM σ) β} {R : β → Prop}
    (hf : ∀ a, Gives (f a) R) : Gives (x >>= f) R :=
  Gives.bind (Q := fun _ => True) (fun _ _ _ _ => trivial) fun a _ => hf a

lemma Gives.pure {a : α} {Q : α → Prop} (h : Q a) :
    Gives (Pure.pure a : ExceptT ε (StateM σ) α) Q := by
  intro s b s' hrun
  cases hrun
  exact h

lemma Gives.throw {e : ε} {Q : α → Prop} : Gives (throw e : ExceptT ε (StateM σ) α) Q := by
  intro s a s' h
  cases h

lemma Gives.ofExcept {r : Except ε α} {Q : α → Prop} (h : ∀ a, r = .ok a → Q a) :
    Gives (liftM r : ExceptT ε (StateM σ) α) Q := by
  intro s a s' hrun
  cases r with
  | error e => cases hrun
  | ok b =>
    cases hrun
    exact h a rfl

lemma Gives.foldlM {f : β → α → ExceptT ε (StateM σ) β} {Q : β → Prop} {as : List α}
    (hf : ∀ b, ∀ a ∈ as, Q b → Gives (f b a) Q) {b : β} (hb : Q b) :
    Gives (as.foldlM f b) Q := by
  induction as generalizing b with
  | nil => exact Gives.pure hb
  | cons a as ih =>
    rw [List.foldlM_cons]
    exact (hf b a List.mem_cons_self hb).bind fun _ hc =>
      ih (fun b' a' ha' => hf b' a' (List.mem_cons_of_mem _ ha')) hc

lemma Gives.mapM {f : α → ExceptT ε (StateM σ) β} {Q : β → Prop} {as : List α}
    (hf : ∀ a ∈ as, Gives (f a) Q) : Gives (as.mapM f) fun bs => ∀ b ∈ bs, Q b := by
  induction as with
  | nil => exact Gives.pure fun b hb => nomatch hb
  | cons a as ih =>
    rw [List.mapM_cons]
    refine (hf a List.mem_cons_self).bind fun b hb => ?_
    refine (ih fun c hc => hf c (List.mem_cons_of_mem _ hc)).bind fun bs hbs => Gives.pure ?_
    intro c hc
    rcases List.mem_cons.mp hc with rfl | hc
    · exact hb
    · exact hbs c hc

end Stateful

end ContractBuild

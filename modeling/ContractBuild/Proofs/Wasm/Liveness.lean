import Mathlib
import ContractBuild.Proofs.Program
import ContractBuild.Wasm.Live

/-!
The functions found to be live are exactly those that can be reached: the worklist is emptied,
everything on it can be reached, and what was found mentions nothing else.
-/

namespace ContractBuild.Wasm

/-- What a section names as reachable without being called. -/
inductive Told.Names : Told → ℕ → Prop where
  | exported {items : List (ExternalKind × ℕ)} {f : ℕ} (h : (.function, f) ∈ items) :
      Names (.exports items) f
  | started (f : ℕ) : Names (.start f) f
  | listed {segments : List Segment} {fs : List ℕ} {f : ℕ} (hs : .functions fs ∈ segments)
      (hf : f ∈ fs) : Names (.elements segments) f
  | listedExpr {segments : List Segment} {exprs : List (List Operator)} {ops : List Operator}
      {f : ℕ} (hs : .exprs exprs ∈ segments) (ho : ops ∈ exprs) (hf : .refFunc f ∈ ops) :
      Names (.elements segments) f
  | global {inits : List (List Operator)} {ops : List Operator} {f : ℕ} (ho : ops ∈ inits)
      (hf : .refFunc f ∈ ops) : Names (.globals inits) f
  | table {inits : List (Option (List Operator))} {ops : List Operator} {f : ℕ}
      (ho : some ops ∈ inits) (hf : .refFunc f ∈ ops) : Names (.tables inits) f

namespace Live

/-! ### What can be reached -/

section Spec

variable (parts : List (Except String Payload))

/-- What the sections tell that can be read. -/
def tolds : List Told :=
  parts.filterMap fun
    | .ok (.other _ _ (.ok told)) => some told
    | _ => none

def bodiesIn : List Body :=
  parts.filterMap fun
    | .ok (.body b) => some b
    | _ => none

/-- The kinds of everything that is imported. -/
def imports : List ExternalKind :=
  (tolds parts).flatMap fun
    | .imports kinds => kinds
    | _ => []

/-- The number of imported functions, which come before the defined ones. -/
def importedCount : ℕ := (imports parts).count .function

/-- A function that can be reached without being called. -/
def IsRoot (f : ℕ) : Prop := ∃ told ∈ tolds parts, told.Names f

/-- The least set of functions with the roots in it and, for each body of a function in it, what
the body calls or refers to. -/
inductive IsReached : ℕ → Prop where
  | root {f : ℕ} (h : IsRoot parts f) : IsReached f
  | mention {i g : ℕ} {bytes : Bytes} {ops : List Operator}
      (h : IsReached (importedCount parts + i))
      (hb : (bodiesIn parts)[i]? = some ⟨bytes, .ok ops⟩)
      (hg : .call g ∈ ops ∨ .returnCall g ∈ ops ∨ .refFunc g ∈ ops) : IsReached g

end Spec

lemma mem_referred {ops : List Operator} {f : ℕ} : f ∈ referred ops ↔ .refFunc f ∈ ops := by
  rw [referred, List.mem_filterMap]
  constructor
  · rintro ⟨op, hop, h⟩
    cases op with
    | refFunc g => cases h; exact hop
    | call g => cases h
    | returnCall g => cases h
    | other => cases h
  · exact fun h => ⟨_, h, rfl⟩

lemma mem_mentioned {ops : List Operator} {g : ℕ} :
    g ∈ mentioned ops ↔ .call g ∈ ops ∨ .returnCall g ∈ ops ∨ .refFunc g ∈ ops := by
  rw [mentioned, List.mem_filterMap]
  constructor
  · rintro ⟨op, hop, h⟩
    cases op with
    | call f => cases h; exact .inl hop
    | returnCall f => cases h; exact .inr (.inl hop)
    | refFunc f => cases h; exact .inr (.inr hop)
    | other => cases h
  · rintro (h | h | h)
    · exact ⟨_, h, rfl⟩
    · exact ⟨_, h, rfl⟩
    · exact ⟨_, h, rfl⟩

lemma mem_exported {items : List (ExternalKind × ℕ)} {f : ℕ} :
    f ∈ items.filterMap exportedFunction ↔ (.function, f) ∈ items := by
  rw [List.mem_filterMap]
  constructor
  · rintro ⟨⟨kind, g⟩, he, h⟩
    unfold exportedFunction at h
    split_ifs at h with hk
    cases h
    exact hk ▸ he
  · exact fun h => ⟨_, h, rfl⟩

/-- The roots of a section are what it names. -/
lemma mem_rootsOf {told : Told} {f : ℕ} : f ∈ rootsOf told ↔ told.Names f := by
  constructor
  · intro h
    cases told with
    | imports kinds => cases h
    | nothing => cases h
    | exports items => exact .exported (mem_exported.mp h)
    | start g =>
      obtain rfl := List.mem_singleton.mp h
      exact .started f
    | elements segments =>
      obtain ⟨s, hs, h⟩ := List.mem_flatMap.mp h
      cases s with
      | functions fs => exact .listed hs h
      | exprs es =>
        obtain ⟨ops, ho, h⟩ := List.mem_flatMap.mp h
        exact .listedExpr hs ho (mem_referred.mp h)
    | globals inits =>
      obtain ⟨ops, ho, h⟩ := List.mem_flatMap.mp h
      exact .global ho (mem_referred.mp h)
    | tables inits =>
      obtain ⟨init, ho, h⟩ := List.mem_flatMap.mp h
      cases init with
      | none => cases h
      | some ops => exact .table ho (mem_referred.mp h)
  · intro h
    cases h with
    | exported h => exact mem_exported.mpr h
    | started => exact List.mem_singleton_self f
    | listed hs hf => exact List.mem_flatMap.mpr ⟨_, hs, hf⟩
    | listedExpr hs ho hf =>
      exact List.mem_flatMap.mpr ⟨_, hs, List.mem_flatMap.mpr ⟨_, ho, mem_referred.mpr hf⟩⟩
    | global ho hf => exact List.mem_flatMap.mpr ⟨_, ho, mem_referred.mpr hf⟩
    | table ho hf => exact List.mem_flatMap.mpr ⟨_, ho, mem_referred.mpr hf⟩

/-! ### The survey -/

section Survey

variable {parts : List (Except String Payload)} {part : Except String Payload} {s s' : Survey}

/-- The part can be read, and so can what it tells. -/
def IsRead (part : Except String Payload) : Prop :=
  ∃ a, part = .ok a ∧ ∀ id content told, a = .other id content told → ∃ t, told = .ok t

/-- A survey with what some parts tell. -/
def Survey.join (s : Survey) (parts : List (Except String Payload)) : Survey :=
  ⟨s.imported + importedCount parts, s.roots ++ (tolds parts).flatMap rootsOf,
    s.bodies ++ bodiesIn parts⟩

lemma tolds_cons (part : Except String Payload) (parts : List (Except String Payload)) :
    tolds (part :: parts) = tolds [part] ++ tolds parts :=
  List.filterMap_append (l := [part])

lemma bodiesIn_cons (part : Except String Payload) (parts : List (Except String Payload)) :
    bodiesIn (part :: parts) = bodiesIn [part] ++ bodiesIn parts :=
  List.filterMap_append (l := [part])

lemma importedCount_cons (part : Except String Payload) (parts : List (Except String Payload)) :
    importedCount (part :: parts) = importedCount [part] + importedCount parts := by
  simp only [importedCount, imports]
  rw [tolds_cons, List.flatMap_append, List.count_append]

lemma importedBy_eq (told : Told) (id : UInt8) (content : Bytes) :
    importedBy told = importedCount [.ok (.other id content (.ok told))] := by
  cases told <;> simp [importedBy, importedCount, imports, tolds]

lemma isRead_of_add {a : Payload} (h : s.add a = .ok s') : IsRead (.ok a) := by
  refine ⟨a, rfl, ?_⟩
  rintro id content told rfl
  cases told with
  | error reason => cases h
  | ok told => exact ⟨told, rfl⟩

lemma add_of_isRead {a : Payload} (h : IsRead (.ok a)) : s.add a = .ok (s.join [.ok a]) := by
  obtain ⟨b, hab, htold⟩ := h
  obtain rfl := Except.ok.inj hab
  cases a with
  | other id content told =>
    obtain ⟨told, rfl⟩ := htold id content told rfl
    simp only [Survey.add, Survey.join, ← importedBy_eq, tolds, bodiesIn,
      List.filterMap_cons, List.filterMap_nil, List.flatMap_singleton, List.append_nil]
    rfl
  | version layer => simp [Survey.add, Survey.join, importedCount, imports, tolds, bodiesIn]; rfl
  | custom name data => simp [Survey.add, Survey.join, importedCount, imports, tolds, bodiesIn]; rfl
  | code count => simp [Survey.add, Survey.join, importedCount, imports, tolds, bodiesIn]; rfl
  | body b => simp [Survey.add, Survey.join, importedCount, imports, tolds, bodiesIn]; rfl

/-- A part that can be read adds to a survey what it tells, and any other part ends it. -/
lemma addPart_eq_ok :
    (part >>= fun a => s.add a) = .ok s' ↔ IsRead part ∧ s' = s.join [part] := by
  cases part with
  | error reason =>
    constructor
    · intro h
      cases h
    · rintro ⟨⟨a, h, -⟩, -⟩
      cases h
  | ok a =>
    change s.add a = .ok s' ↔ _
    constructor
    · intro h
      have hread := isRead_of_add h
      exact ⟨hread, (Except.ok.inj ((add_of_isRead hread).symm.trans h)).symm⟩
    · rintro ⟨hread, rfl⟩
      exact add_of_isRead hread

lemma join_join (parts : List (Except String Payload)) :
    (s.join [part]).join parts = s.join (part :: parts) := by
  simp only [Survey.join, tolds_cons part parts, bodiesIn_cons part parts,
    importedCount_cons part parts, List.flatMap_append, List.append_assoc, Nat.add_assoc]

lemma foldlM_add_eq_ok :
    parts.foldlM (fun s part => part >>= fun a => Survey.add s a) s = .ok s' ↔
      (∀ part ∈ parts, IsRead part) ∧ s' = s.join parts := by
  induction parts generalizing s with
  | nil =>
    have hnil : s.join [] = s := by simp [Survey.join, importedCount, imports, tolds, bodiesIn]
    rw [hnil]
    simp [List.foldlM, pure, Except.pure, eq_comm]
  | cons part parts ih =>
    rw [List.foldlM_cons, except_bind_ok]
    simp only [addPart_eq_ok, ih, List.forall_mem_cons]
    constructor
    · rintro ⟨_, ⟨hread, rfl⟩, hparts, rfl⟩
      exact ⟨⟨hread, hparts⟩, join_join parts⟩
    · rintro ⟨⟨hread, hparts⟩, rfl⟩
      exact ⟨_, ⟨hread, rfl⟩, hparts, (join_join parts).symm⟩

/-- **The survey** succeeds if all parts can be read, with what they tell. -/
lemma survey_eq_ok : survey parts = .ok s ↔ (∀ part ∈ parts, IsRead part) ∧
    s = ⟨importedCount parts, (tolds parts).flatMap rootsOf, bodiesIn parts⟩ := by
  have h : survey parts = .ok s ↔ _ := foldlM_add_eq_ok
  rw [h, Survey.join]
  simp only [Nat.zero_add, List.nil_append]

end Survey

/-! ### The worklist -/

section Visit

variable {imported : ℕ} {bodies : List Body} {roots work seen out : List ℕ} {f : ℕ}

/-- Reached from the functions `roots` through the bodies. -/
inductive From (imported : ℕ) (bodies : List Body) (roots : List ℕ) : ℕ → Prop where
  | root {f : ℕ} (h : f ∈ roots) : From imported bodies roots f
  | step {i g : ℕ} {b : Body} {ops : List Operator} (h : From imported bodies roots (imported + i))
      (hb : bodies[i]? = some b) (ho : b.operators = .ok ops) (hg : g ∈ mentioned ops) :
      From imported bodies roots g

/-- The function is no defined one, or its place is in the list. -/
def Covered (imported : ℕ) (bodies : List Body) (seen : List ℕ) (f : ℕ) : Prop :=
  f < imported ∨ bodies[f - imported]? = none ∨ f - imported ∈ seen

lemma Covered.mono {seen' : List ℕ} (h : Covered imported bodies seen f)
    (hsub : seen ⊆ seen') : Covered imported bodies seen' f :=
  h.imp_right (Or.imp_right (@hsub _))

/-- What holds at each step: everything named can be reached, and a function that an opened body
mentions is covered or waits. -/
structure Going (imported : ℕ) (bodies : List Body) (roots work seen : List ℕ) : Prop where
  waiting : ∀ f ∈ work, From imported bodies roots f
  found : ∀ i ∈ seen, i < bodies.length ∧ From imported bodies roots (imported + i)
  closed : ∀ i ∈ seen, ∀ b ops, bodies[i]? = some b → b.operators = .ok ops →
    ∀ g ∈ mentioned ops, Covered imported bodies seen g ∨ g ∈ work

lemma Going.skip (h : Going imported bodies roots (f :: work) seen)
    (hf : Covered imported bodies seen f) : Going imported bodies roots work seen := by
  refine ⟨fun g hg => h.waiting g (List.mem_cons_of_mem _ hg), h.found, ?_⟩
  intro i hi b ops hb ho g hg
  rcases h.closed i hi b ops hb ho g hg with hc | hw
  · exact .inl hc
  · rcases List.mem_cons.mp hw with rfl | hw
    · exact .inl hf
    · exact .inr hw

lemma Going.enter {b : Body} {ops : List Operator}
    (h : Going imported bodies roots (f :: work) seen) (hf : imported ≤ f)
    (hb : bodies[f - imported]? = some b) (ho : b.operators = .ok ops) :
    Going imported bodies roots ((mentioned ops).reverse ++ work) ((f - imported) :: seen) := by
  have hreach : From imported bodies roots (imported + (f - imported)) := by
    rw [Nat.add_sub_cancel' hf]
    exact h.waiting f List.mem_cons_self
  refine ⟨?_, ?_, ?_⟩
  · intro g hg
    rcases List.mem_append.mp hg with hg | hg
    · exact .step hreach hb ho (List.mem_reverse.mp hg)
    · exact h.waiting g (List.mem_cons_of_mem _ hg)
  · intro i hi
    rcases List.mem_cons.mp hi with rfl | hi
    · exact ⟨(List.getElem?_eq_some_iff.mp hb).1, hreach⟩
    · exact h.found i hi
  · intro i hi c ops' hc ho' g hg
    rcases List.mem_cons.mp hi with rfl | hi
    · obtain rfl : b = c := Option.some.inj (hb.symm.trans hc)
      obtain rfl : ops = ops' := Except.ok.inj (ho.symm.trans ho')
      exact .inr (List.mem_append_left _ (List.mem_reverse.mpr hg))
    · rcases h.closed i hi c ops' hc ho' g hg with hcov | hw
      · exact .inl (hcov.mono (List.subset_cons_self _ _))
      · rcases List.mem_cons.mp hw with rfl | hw
        · exact .inl (.inr (.inr List.mem_cons_self))
        · exact .inr (List.mem_append_right _ hw)

/-- **The worklist is emptied**, whatever is on it, if the bodies can be read. -/
lemma exists_visit (hbodies : ∀ b ∈ bodies, ∃ ops, b.operators = .ok ops) (work seen : List ℕ) :
    ∃ out, visit imported bodies work seen = .ok out := by
  fun_induction visit imported bodies work seen with
  | case1 seen => exact ⟨seen, rfl⟩
  | case2 seen f work hlt ih => exact ih
  | case3 seen f work hlt hseen ih => exact ih
  | case4 seen f work hlt hseen hnone ih => exact ih
  | case5 seen f work hlt hseen b hb reason ho =>
    obtain ⟨ops, ho'⟩ := hbodies b (List.mem_of_getElem? hb)
    rw [ho] at ho'
    cases ho'
  | case6 seen f work hlt hseen b hb ops ho ih => exact ih

/-- What an emptied worklist gives: it led only to functions that can be reached, and everything
that was on it is covered. -/
structure Settled (imported : ℕ) (bodies : List Body) (roots work seen out : List ℕ) : Prop where
  going : Going imported bodies roots [] out
  subset : seen ⊆ out
  covered : ∀ f ∈ work, Covered imported bodies out f

lemma Settled.cons (h : Settled imported bodies roots work seen out)
    (hf : Covered imported bodies out f) : Settled imported bodies roots (f :: work) seen out :=
  ⟨h.going, h.subset, List.forall_mem_cons.mpr ⟨hf, h.covered⟩⟩

lemma Going.skipped (h : Going imported bodies roots (f :: work) seen)
    (hf : Covered imported bodies seen f)
    (ih : Going imported bodies roots work seen → Settled imported bodies roots work seen out) :
    Settled imported bodies roots (f :: work) seen out :=
  have hrest := ih (h.skip hf)
  hrest.cons (hf.mono hrest.subset)

/-- Bodies that are not opened need not be readable. -/
lemma Going.visit (h : Going imported bodies roots work seen)
    (hv : visit imported bodies work seen = .ok out) :
    Settled imported bodies roots work seen out := by
  fun_induction Live.visit imported bodies work seen with
  | case1 seen =>
    obtain rfl : seen = out := Except.ok.inj hv
    exact ⟨h, List.Subset.refl _, by simp⟩
  | case2 seen f work hlt ih => exact h.skipped (.inl hlt) fun h => ih h hv
  | case3 seen f work hlt hseen ih => exact h.skipped (.inr (.inr hseen)) fun h => ih h hv
  | case4 seen f work hlt hseen hnone ih => exact h.skipped (.inr (.inl hnone)) fun h => ih h hv
  | case5 seen f work hlt hseen b hb reason ho => cases hv
  | case6 seen f work hlt hseen b hb ops ho ih =>
    -- opened now
    have hrest := ih (h.enter (Nat.le_of_not_lt hlt) hb ho) hv
    have hsettled : Settled imported bodies roots work seen out :=
      ⟨hrest.going, fun i hi => hrest.subset (List.mem_cons_of_mem _ hi),
        fun g hg => hrest.covered g (List.mem_append_right _ hg)⟩
    exact hsettled.cons (.inr (.inr (hrest.subset List.mem_cons_self)))

/-- The worklist finds exactly the defined functions that can be reached. -/
lemma visit_exact (hv : visit imported bodies roots [] = .ok out) (i : ℕ) :
    i ∈ out ↔ i < bodies.length ∧ From imported bodies roots (imported + i) := by
  have hstart : Going imported bodies roots roots [] :=
    ⟨fun f hf => .root hf, by simp, by simp⟩
  obtain ⟨hgo, -, hroots⟩ := hstart.visit hv
  have hplace : ∀ i, i < bodies.length → Covered imported bodies out (imported + i) → i ∈ out := by
    intro i hi hc
    rw [Covered, Nat.add_sub_cancel_left, List.getElem?_eq_none_iff] at hc
    rcases hc with h | h | h
    · omega
    · omega
    · exact h
  -- the covered functions hold the roots and are closed
  have hall : ∀ f, From imported bodies roots f → Covered imported bodies out f := by
    intro f hf
    induction hf with
    | root h => exact hroots _ h
    | @step j g b ops _ hb ho hg ih =>
      have hj : j ∈ out := hplace j (List.getElem?_eq_some_iff.mp hb).1 ih
      exact (hgo.closed j hj b ops hb ho g hg).resolve_right (by simp)
  exact ⟨hgo.found i, fun ⟨hlt, hreach⟩ => hplace i hlt (hall _ hreach)⟩

end Visit

/-! ### What is found -/

section Reached

variable {parts : List (Except String Payload)} {live : List ℕ}

lemma from_iff {roots : List ℕ} {f : ℕ} (hroots : ∀ f, f ∈ roots ↔ IsRoot parts f) :
    From (importedCount parts) (bodiesIn parts) roots f ↔ IsReached parts f := by
  constructor
  · intro h
    induction h with
    | root h => exact .root ((hroots _).mp h)
    | @step i g b ops _ hb ho hg ih =>
      obtain ⟨bytes, operators⟩ := b
      obtain rfl : operators = .ok ops := ho
      exact .mention ih hb (mem_mentioned.mp hg)
  · intro h
    induction h with
    | root h => exact .root ((hroots _).mpr h)
    | @mention i g bytes ops _ hb hg ih => exact .step ih hb rfl (mem_mentioned.mpr hg)

lemma mem_roots {f : ℕ} : f ∈ ((tolds parts).flatMap rootsOf).reverse ↔ IsRoot parts f := by
  rw [List.mem_reverse, List.mem_flatMap, IsRoot]
  simp only [mem_rootsOf]

/-- The live functions are those reached, if there is an answer, and then all parts can be read. -/
lemma reached_eq_ok (h : reached parts = .ok live) : (∀ part ∈ parts, IsRead part) ∧
    ∀ i, i ∈ live ↔
      i < (bodiesIn parts).length ∧ IsReached parts (importedCount parts + i) := by
  obtain ⟨s, hs, hv⟩ := except_bind_ok.mp h
  obtain ⟨hread, rfl⟩ := survey_eq_ok.mp hs
  refine ⟨hread, fun i => ?_⟩
  rw [visit_exact hv, from_iff fun f => mem_roots]

/-- Everything that tells which functions are reached can be read. -/
structure Readable (parts : List (Except String Payload)) : Prop where
  read : ∀ part ∈ parts, IsRead part
  bodies : ∀ b ∈ bodiesIn parts, ∃ ops, b.operators = .ok ops

/-- **The live functions are exactly those reached.** -/
lemma exists_reached (h : Readable parts) : ∃ live, reached parts = .ok live := by
  obtain ⟨live, hlive⟩ := exists_visit h.bodies ((tolds parts).flatMap rootsOf).reverse []
  exact ⟨live, except_bind_ok.mpr ⟨_, survey_eq_ok.mpr ⟨h.read, rfl⟩, hlive⟩⟩

end Reached

end Live

end ContractBuild.Wasm

import Mathlib
import ContractBuild.Proofs.Cache.Refinement
import ContractBuild.Proofs.Cache.Removal

/-!
Storing that fails or is cut off. A cache represents a map, whatever was asked of it before and
failed. A store changes the map with its last step and not before, so up to there every key gives
what it gave.
-/

namespace ContractBuild.Cache

open ContractBuild.Digest ContractBuild.Disk ContractBuild.Host ContractBuild.Text

-- no digest is computed here, and publishing is known by what it ensures
attribute [local irreducible] sha256Hex publish

variable {c : Cache} {t : Tree} {as : List Artifact} {f : Key → Option Artifact}
  {times : Key → String} {a : Artifact} {now : String}

/-! ### What is found -/

/-- What is found under a key, and when it was stored, if no step is refused. -/
def found (c : Cache) (h : Host) (k : Key) : Option (Artifact × String) :=
  let h := { h with refuse := fun _ => none }
  match (c.lookup k.text h : Option Artifact × Host).1,
    (readEntry (c.entryPath k.text) h : Option Entry × Host).1 with
  | some a, some e => some (a, e.createdAt)
  | _, _ => none

lemma Records.entryAt (h : c.Records as f times t) (has : AreStorable as) {k : Key}
    (hk : f k = some a) :
    Cache.entryAt t (c.entryPath k.text) = some (a.entry k.text (times k)) := by
  obtain ⟨now, hentry⟩ := h.toRepresents.entryAt has hk
  have hdecode : Entry.decode? (a.entry k.text (times k)).encode = some (a.entry k.text now) := by
    rw [← hentry, Cache.entryAt, h.dated k a hk]
    simp only [Except.toOption, Option.bind_some]
  rw [hentry, Entry.eq_of_decode? hdecode]

lemma found_eq (has : AreStorable as) {h : Host} (hh : Unshared (c.Records as f times) h) (k : Key) :
    c.found h k = (f k).map fun a => (a, times k) := by
  have hs : Solitary (c.Records as f times) { h with refuse := fun _ => none } :=
    ⟨hh.others, fun _ => rfl, hh.tree⟩
  obtain ⟨hrep, hlookup⟩ := (c.ensures_lookup_solitary k.text _ hs).tree
  obtain ⟨hrep', hread⟩ := (ensures_readEntry_solitary (c.entryPath k.text) _ hs).tree
  rw [hrep.toRepresents.find?_eq has] at hlookup
  unfold found
  dsimp only
  rw [hlookup, hread]
  rcases hk : f k with _ | a
  · rfl
  · rw [hrep'.entryAt has hk]
    rfl

/-- A store that fails changes nothing that is found; one that succeeds changes it for its key. -/
lemma found_of_store (has : AreStorable as) (ha : a ∈ as) (k : Key)
    (hnow : Timestamp.isTimestamp now = true) {h h' : Host} (hh : Unshared (c.IsIntact as) h)
    {refuse : ℕ → Option Disk.Fault} {r : Except Fault Entry}
    (hrun : (c.store k.text a).run { h with now, refuse } = (r, h')) :
    Ends (fun h' => ∀ k', c.found h' k' = c.found h k')
      (fun _ h' => c.found h' k = some (a, now) ∧ ∀ k' ≠ k, c.found h' k' = c.found h k') r h' := by
  obtain ⟨f, hf⟩ := hh.tree
  obtain ⟨times, htimes⟩ := hf.records
  have hfound := found_eq has (h := h) ⟨hh.others, htimes⟩
  have hends := ensures_store has ha k hnow { h with now, refuse } ⟨⟨hh.others, htimes⟩, rfl⟩
  rw [hrun] at hends
  refine Ends.imp (fun h' hh' k' => ?_) (fun _ h' hh' => ⟨?_, fun k' hkk => ?_⟩) r h' hends
  · rw [found_eq has hh', hfound]
  · rw [found_eq has hh', Function.update_self, Function.update_self]
    rfl
  · rw [found_eq has hh', hfound, Function.update_of_ne hkk, Function.update_of_ne hkk]

/-! ### Requests that may fail -/

/-- A request some steps of which are refused, counted from its first. -/
structure Trial extends Request where
  refuse : ℕ → Option Disk.Fault := fun _ => none

/-- The time is one, and while files are removed, none that is there is taken for missing: the step
that looks for entries is not refused, and no refusal reads as if there were no file. -/
structure Trial.IsCandid (r : Trial) : Prop where
  time : Timestamp.isTimestamp r.now = true
  looks : r.operation.Collects → r.refuse 0 = none
  answers : r.operation.Collects → ∀ n, r.refuse n ≠ some .notFound

/-- Makes a request and carries on, whatever comes of it. -/
def Trial.run (c : Cache) (r : Trial) : OnHost Unit := do
  modify fun h => { h with now := r.now, refuse := fun n => r.refuse (n - h.steps) }
  let _ ← (r.operation.run c).run

def tryAll (c : Cache) (trials : List Trial) : OnHost Unit := trials.forM (Trial.run c)

lemma ensures_forget {ε α : Type} {P Q : Host → Prop} {x : Attempt ε α}
    (h : Ensures P x.run fun _ => Q) :
    Ensures P (do let _ ← x : Attempt ε Unit).run fun _ => Q :=
  ensures_same.mp (Ensures.bind_ok (ensures_same.mpr h) fun _ => Ensures.pure_ok fun _ hh => hh)

/-- Whatever becomes of a request, the directory represents a map afterwards. -/
lemma keeps_trial (has : AreStorable as) {r : Trial} (hr : r.IsCandid)
    (hstored : ∀ k a, r.operation = .store k a → a ∈ as) :
    Keeps (Unshared (c.IsIntact as)) (r.run c) := by
  have hoperation : Ensures (fun h => Unshared (c.IsIntact as) h ∧ h.now = r.now ∧
      h.refuse = fun n => r.refuse (n - h.steps)) (r.operation.run c).run
      fun _ => Unshared (c.IsIntact as) := by
    rintro h ⟨hh, htime, hrefuse⟩
    have hcandid : r.operation.Collects → Candid (c.IsIntact as) h ∧ h.refuse h.steps = none := by
      refine fun hcollects => ⟨⟨hh, fun n => ?_⟩, ?_⟩
      · rw [hrefuse]
        exact hr.answers hcollects _
      · rw [hrefuse]
        change r.refuse (h.steps - h.steps) = none
        rw [Nat.sub_self]
        exact hr.looks hcollects
    cases ho : r.operation with
    | store k a =>
      obtain ⟨f, hf⟩ := hh.tree
      obtain ⟨times, htimes⟩ := hf.records
      have hstore := (ensures_store has (hstored k a ho) k hr.time).mono (Ends.imp
        (fun _ hh => hh.mono fun _ (ht : c.Records as f times _) => ht.toRepresents.isIntact)
        fun _ _ hh => hh.mono fun _ ht => ht.toRepresents.isIntact)
      exact ensures_forget (ensures_same.mp hstore) h ⟨{ hh with tree := htimes }, htime⟩
    | prune version =>
      rw [ho] at hcandid
      exact (ensures_forget (ensures_prune_candid has version) h (hcandid trivial)).toUnshared
    | clear =>
      rw [ho] at hcandid
      exact (ensures_forget keeps_clear h (hcandid trivial).1).toUnshared
  refine Ensures.bind (Q := fun _ h => Unshared (c.IsIntact as) h ∧ h.now = r.now ∧
    h.refuse = fun n => r.refuse (n - h.steps)) (fun h hh => ?_) fun _ =>
      hoperation.bind fun _ => Keeps.pure _
  exact ⟨⟨hh.others, hh.tree⟩, rfl, rfl⟩

/-- The directory represents a map after any requests. -/
lemma keeps_tryAll (has : AreStorable as) {past : List Trial} (hpast : ∀ r ∈ past, r.IsCandid)
    (hstored : ∀ a ∈ artifacts (past.map Trial.toRequest), a ∈ as) :
    Keeps (Unshared (c.IsIntact as)) (tryAll c past) := by
  refine Keeps.forM fun r hr => keeps_trial has (hpast r hr) fun k a ho => hstored a ?_
  exact List.mem_filterMap.mpr ⟨r.toRequest, List.mem_map_of_mem hr, by rw [ho]⟩

/-! ### Storing -/

/-- Steps are refused as told before a number of them, and all from then on. A refused step leaves
the files as they are, so they end up as they were after that many steps. -/
def stoppingAt (m : ℕ) (refuse : ℕ → Option Disk.Fault) : ℕ → Option Disk.Fault :=
  fun n => if n < m then refuse n else some (.other "stopped")

/-- **A failed store loses nothing.** Let requests be made of an empty cache that nobody else
touches; they may fail as well, except that no file to be removed may seem missing. Then let an
artifact be stored. If that fails, whichever of its steps are refused, every key gives what it gave
before. And if it is stopped after any number of its steps, whichever of those are refused, its key
gives what it gave or the new artifact, and every other key what it gave. -/
theorem failed_store_loses_nothing {past : List Trial} {h : Host}
    (hh : Unshared (fun t => t.start.IsProper ∧ c.IsEmpty t) h) (hpast : ∀ r ∈ past, r.IsCandid)
    (k : Key) (hnow : Timestamp.isTimestamp now = true)
    (hstorable : AreStorable (a :: artifacts (past.map Trial.toRequest))) :
    let before := (tryAll c past h : Unit × Host).2
    (∀ refuse fault h', (c.store k.text a).run { before with now, refuse } = (.error fault, h') →
      ∀ k', c.found h' k' = c.found before k') ∧
    ∀ refuse n r h', (c.store k.text a).run
        { before with now, refuse := stoppingAt (before.steps + n) refuse } = (r, h') →
      (c.found h' k = c.found before k ∨ c.found h' k = some (a, now)) ∧
        ∀ k' ≠ k, c.found h' k' = c.found before k' := by
  intro before
  have hbefore : Unshared (c.IsIntact (a :: artifacts (past.map Trial.toRequest))) before :=
    keeps_tryAll hstorable hpast (fun _ => List.mem_cons_of_mem a) h
      (hh.mono fun t ht => (represents_empty _ ht.1 ht.2).isIntact)
  refine ⟨fun refuse fault h' hrun => ?_, fun refuse n r h' hrun => ?_⟩
  · exact found_of_store hstorable List.mem_cons_self k hnow hbefore hrun
  · have hends := found_of_store hstorable List.mem_cons_self k hnow hbefore hrun
    cases r with
    | error fault => exact ⟨.inl (hends k), fun k' _ => hends k'⟩
    | ok e => exact ⟨.inr hends.1, hends.2⟩

/-- A store fails if every step is refused. -/
lemma exists_fault_of_store_refused (c : Cache) (key : String) (a : Artifact) {h : Host}
    (hh : ∀ n, h.refuse n ≠ none) : ∃ fault h', (c.store key a).run h = (.error fault, h') := by
  have hput : ∀ p content, Ensures (fun h => ∀ n, h.refuse n ≠ none) (put p content).run
      (Ends (fun _ => True) fun _ _ => False) := by
    intro p content
    refine ensures_result (ensures_publish_refused p content) fun r => ?_
    cases r with
    | ok _ => exact fun _ => False.elim
    | error fault => exact fun _ _ => trivial
  have hstore : Ensures (fun h => ∀ n, h.refuse n ≠ none) (c.store key a).run
      (Ends (fun _ => True) fun _ _ => False) := by
    rw [store_eq]
    refine Ensures.bind_ok ensures_get fun h₀ => Ensures.weaken ?_ fun h hh => hh.2
    exact Ensures.bind_ok (hput _ _) fun _ _ => False.elim
  have hends := hstore h hh
  rcases hrun : (c.store key a).run h with ⟨fault | e, h'⟩
  · exact ⟨fault, h', rfl⟩
  · rw [hrun] at hends
    exact hends.elim

/-- One binary for two keys; storing the second is cut off, and so is pruning. -/
def troubledPast : List Trial := [
  { now := "2024-01-01T00:00:00Z", operation := .store left ⟨[1], [1], .size, "1"⟩ },
  { now := "2024-01-02T00:00:00Z", operation := .store right ⟨[1], [1], .size, "2"⟩,
    refuse := stoppingAt 7 fun _ => none },
  { now := "2024-01-03T00:00:00Z", operation := .prune "1", refuse := stoppingAt 3 fun _ => none }]

lemma isCandid_troubledPast : ∀ r ∈ troubledPast, r.IsCandid := by
  have htimes : ∀ r ∈ troubledPast, Timestamp.isTimestamp r.now = true := by decide
  have hlooks : ∀ r ∈ troubledPast, r.refuse 0 = none := by decide
  have hanswers : ∀ r ∈ troubledPast, ∀ n, r.refuse n ≠ some .notFound := by
    have hstop : ∀ m n, stoppingAt m (fun _ => none) n ≠ some .notFound := by
      intro m n
      unfold stoppingAt
      split_ifs <;> nofun
    simp only [troubledPast, List.forall_mem_cons]
    exact ⟨fun _ => nofun, hstop 7, hstop 3, List.forall_mem_nil _⟩
  exact fun r hr => ⟨htimes r hr, fun _ => hlooks r hr, fun _ => hanswers r hr⟩

lemma areStorable_troubledPast : AreStorable
    (⟨[1], [1], .size, "3"⟩ :: artifacts (troubledPast.map Trial.toRequest)) := by
  have hsame : ∀ b ∈ ⟨[1], [1], .size, "3"⟩ :: artifacts (troubledPast.map Trial.toRequest),
      ∀ x ∈ b.contents, x = [1] := by decide
  exact ⟨fun b hb x hx => by rw [hsame b hb x hx]; decide,
    fun b hb d hd x hx y hy _ => (hsame b hb x hx).trans (hsame d hd y hy).symm⟩

theorem failed_store_loses_nothing_fullDisk :
    let before := (tryAll ⟨⟨"/c"⟩⟩ troubledPast bare : Unit × Host).2
    ∃ fault h', (store ⟨⟨"/c"⟩⟩ left.text ⟨[1], [1], .size, "3"⟩).run
        { before with now := "2024-01-04T00:00:00Z", refuse := fun _ => some (.other "full") } =
          (.error fault, h') ∧
      ∀ k, found ⟨⟨"/c"⟩⟩ h' k = found ⟨⟨"/c"⟩⟩ before k := by
  have hbare : Unshared (fun t => t.start.IsProper ∧ Cache.IsEmpty ⟨⟨"/c"⟩⟩ t) bare :=
    ⟨fun _ _ => rfl, nofun, fun _ _ => rfl⟩
  have hnow : Timestamp.isTimestamp "2024-01-04T00:00:00Z" = true := by decide
  have hkept := (failed_store_loses_nothing hbare isCandid_troubledPast left hnow
    areStorable_troubledPast).1
  -- the requests before are not run: what they left behind does not matter any more
  generalize (tryAll ⟨⟨"/c"⟩⟩ troubledPast bare : Unit × Host).2 = before at hkept ⊢
  obtain ⟨fault, h', hrun⟩ := exists_fault_of_store_refused ⟨⟨"/c"⟩⟩ left.text
    ⟨[1], [1], .size, "3"⟩
    (h := { before with now := "2024-01-04T00:00:00Z", refuse := fun _ => some (.other "full") })
    fun _ => nofun
  exact ⟨fault, h', hrun, hkept _ fault h' hrun⟩

end ContractBuild.Cache

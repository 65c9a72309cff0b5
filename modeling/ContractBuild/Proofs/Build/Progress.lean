import Mathlib
import ContractBuild.Proofs.Build.Compile
import ContractBuild.Proofs.Build.History
import ContractBuild.Proofs.Build.Sources

/-!
The progress of a call: the states it goes through, what its listener hears of them, and the
diagnostics it ends with. Whatever comes of its parts, a call goes one way, to its end or to the
first fault.
-/

namespace ContractBuild.Build

/-! ### The way through a build -/

/-- How getting the binary is reported. -/
def fetched (fromCache : Bool) : Status := if fromCache then .cached else .completed

/-- The states of a build that succeeds. -/
def route (fromCache : Bool) : List (State × Status) :=
  [(.resolved, .completed), (.frozen, .completed), (.built fromCache, fetched fromCache),
    (.optimized, fetched fromCache), (.abiExtracted, .completed), (.done, .completed)]

/-- What is heard of them. -/
def reports (fromCache : Bool) : List (Stage × Status) :=
  [(.resolve, .completed), (.freeze, .completed), (.build, fetched fromCache),
    (.optimize, fetched fromCache), (.abi, .completed), (.emit, .completed)]

section Route

variable (fromCache : Bool) (n : ℕ)

lemma isChain_route :
    (State.init :: (route fromCache).map Prod.fst).IsChain fun s t => s.accepts t = true := by
  cases fromCache <;> decide

/-- A build may fail anywhere before its end. -/
lemma isChain_route_failed (hn : n < 6) (stage : Stage) : (State.init ::
    ((route fromCache).take n).map Prod.fst ++ [State.failed stage]).IsChain
      fun s t => s.accepts t = true := by
  rw [List.isChain_append]
  refine ⟨?_, List.isChain_singleton _, ?_⟩
  · rw [List.map_take, ← List.take_succ_cons]
    exact (isChain_route fromCache).take (n + 1)
  · intro s hs t ht
    obtain rfl := List.mem_singleton.mp (List.mem_of_mem_head? ht)
    interval_cases n <;> (obtain rfl := Option.some.inj hs; rfl)

lemma nodup_reports : ((reports fromCache).map Prod.fst).Nodup := by
  cases fromCache <;> decide

/-- What is heard of the first part of the way. -/
lemma events_route : ((route fromCache).take n).filterMap (fun m => m.1.stage.map (·, m.2)) =
    (reports fromCache).take n := by
  rcases n with _ | _ | _ | _ | _ | _ | n <;> simp [route, reports, State.stage]

lemma status_of_mem_reports {e : Stage × Status} (h : e ∈ reports fromCache) :
    e.2 ≠ .failed := by
  revert e
  cases fromCache <;> decide

lemma emit_notMem_take (hn : n < 6) :
    (Stage.emit, Status.completed) ∉ (reports fromCache).take n := by
  interval_cases n <;> cases fromCache <;> decide

end Route

/-- A run that is `n` states along the way, with the warnings raised so far. -/
structure Stands (fromCache : Bool) (n : ℕ) (ws : List Diagnostic) (r : Run) : Prop where
  moves : r.moves = (route fromCache).take n
  warnings : r.warnings = ws

section Steps

variable {fromCache : Bool} {n : ℕ} {ws : List Diagnostic} {r : Run} {ε α : Type}

/-- Until the binary is there, nothing tells where it comes from. -/
lemma Stands.either (h : Stands fromCache n ws r) (hn : n ≤ 2) (other : Bool) :
    Stands other n ws r := by
  refine ⟨h.moves.trans ?_, h.warnings⟩
  interval_cases n <;> rfl

lemma keeps_stands_atHost (act : OnHost α) : Keeps (Stands fromCache n ws) (atHost act) :=
  fun _ hr => ⟨hr.moves, hr.warnings⟩

lemma moves_advance (listener : Listener) (next : State) (status : Status) (r : Run) :
    (advance listener next status r : Unit × Run).2.moves = r.moves ++ [(next, status)] := by
  unfold advance
  cases next.stage <;> rfl

/-- **One step on the way.** -/
lemma ensures_advance (listener : Listener) {next : State} {status : Status}
    (hnext : (route fromCache)[n]? = some (next, status)) :
    Ensures (Stands fromCache n ws) (advance listener next status)
      fun _ => Stands fromCache (n + 1) ws := by
  intro r hr
  refine ⟨?_, (warnings_advance listener next status r).trans hr.warnings⟩
  rw [moves_advance, hr.moves, List.take_add_one, hnext]
  rfl

lemma ensures_warn (d : Diagnostic) : Ensures (Stands fromCache n ws) (warn d)
    fun _ => Stands fromCache n (ws ++ [d]) := by
  intro r hr
  refine ⟨hr.moves, ?_⟩
  change r.warnings ++ [d] = _
  rw [hr.warnings]

lemma ensures_warnings {β : Type} (f : β → Diagnostic) (as : List β) {E : ε → Run → Prop} :
    Ensures (Stands fromCache n ws)
      (as.forM fun a => (warn (f a) : RunAttempt ε PUnit)).run
      (Meets E fun _ => Stands fromCache n (ws ++ as.map f)) := by
  induction as generalizing ws with
  | nil =>
    rw [List.map_nil, List.append_nil]
    exact fun r hr => hr
  | cons a as ih =>
    rw [List.map_cons, List.append_cons]
    exact Ensures.bind_meets (Q := fun _ => Stands fromCache n (ws ++ [f a]))
      (ensures_warn (f a)) fun _ => ih

end Steps

/-! ### Faults on the way -/

/-- A run that stands on the way when a fault occurs in a stage not yet reported. The optimizer is
not left out when the binary was cached. -/
def Halts (ws : List Diagnostic) (f : Fault) (r : Run) : Prop :=
  ∃ (fromCache : Bool) (n : ℕ), n < 6 ∧ (n = 3 → fromCache = false) ∧
    f.stage ∉ ((reports fromCache).take n).map Prod.fst ∧ Stands fromCache n ws r

section Faults

variable {fromCache : Bool} {n : ℕ} {ws : List Diagnostic} {ε α : Type}

lemma Stands.halts {r : Run} (h : Stands fromCache n ws r) {f : Fault} (hn : n < 6)
    (hcached : n = 3 → fromCache = false)
    (hstage : f.stage ∉ ((reports fromCache).take n).map Prod.fst) : Halts ws f r :=
  ⟨fromCache, n, hn, hcached, hstage, h⟩

/-- Work between two steps, whose faults are of a stage to come. -/
lemma ensures_work {wrap : ε → Fault} (act : BenchAttempt ε α) (hn : n < 6)
    (hcached : n = 3 → fromCache = false)
    (hstage : ∀ e, (wrap e).stage ∉ ((reports fromCache).take n).map Prod.fst) :
    Ensures (Stands fromCache n ws) (atBench wrap act).run
      (Meets (Halts ws) fun _ => Stands fromCache n ws) := by
  intro r hr
  change Meets _ _ (atBench wrap act r).1 (atBench wrap act r).2
  unfold atBench
  split
  · exact ⟨hr.moves, hr.warnings⟩
  · next e bench _ =>
    have hstands : Stands fromCache n ws { r with bench } := ⟨hr.moves, hr.warnings⟩
    exact hstands.halts hn hcached (hstage e)

lemma ensures_stage (listener : Listener) {next : State} {status : Status}
    (hnext : (route fromCache)[n]? = some (next, status)) {E : ε → Run → Prop} :
    Ensures (Stands fromCache n ws) (advance listener next status : RunAttempt ε Unit).run
      (Meets E fun _ => Stands fromCache (n + 1) ws) :=
  ensures_advance listener hnext

lemma ensures_look (act : OnHost α) {E : ε → Run → Prop} :
    Ensures (Stands fromCache n ws) (liftM (atHost act) : RunAttempt ε α).run
      (Meets E fun _ => Stands fromCache n ws) :=
  keeps_stands_atHost act

end Faults

namespace Compiler

variable (c : Compiler) {ws : List Diagnostic}

/-- The warnings of getting the binary: one if it could not be stored. -/
def IsLate (late : List Diagnostic) : Prop :=
  late = [] ∨ ∃ f : Cache.Fault, late = [.warning .cache s!"build was not cached: {f.message}"]

/-- A run that has its binary. -/
def Fetched (ws : List Diagnostic) (built : Built) (r : Run) : Prop :=
  ∃ late, IsLate late ∧ Stands built.fromCache 4 (ws ++ late) r

lemma ensures_storeBuild (cache : Cache) (key : String) (a : Cache.Artifact) :
    Ensures (Stands false 4 ws) (storeBuild cache key a)
      fun _ r => ∃ late, IsLate late ∧ Stands false 4 (ws ++ late) r := by
  refine Ensures.bind (keeps_stands_atHost _) fun res => ?_
  cases res with
  | ok _ => exact Ensures.pure fun r hr => ⟨[], .inl rfl, by rwa [List.append_nil]⟩
  | error f =>
    exact fun r hr => ⟨_, .inr ⟨f, rfl⟩, ensures_warn _ r hr⟩

lemma ensures_buildFresh (o : Wasm.Optimizer) (frozen : Frozen) (flags : BuildFlags)
    (slot : Option (Cache × String × String)) :
    Ensures (Stands false 2 ws) (c.buildFresh o frozen flags slot).run
      (Meets (Halts ws) (Fetched ws)) := by
  refine Ensures.bind_meets (ensures_work _ (by decide) nofun
    fun e => by simp [reports, Fault.stage]) fun raw => ?_
  refine Ensures.bind_meets (ensures_stage _ rfl) fun _ => ?_
  refine Ensures.bind_meets (ensures_work _ (by decide) (fun _ => rfl)
    fun e => by simp [reports, Fault.stage]) fun wasm => ?_
  refine Ensures.bind_meets (ensures_stage _ rfl) fun _ => ?_
  rcases slot with _ | ⟨cache, key, version⟩
  · exact fun r hr => ⟨[], .inl rfl, by rwa [List.append_nil]⟩
  · have hstore : Ensures (Stands false 4 ws)
        (storeBuild cache key ⟨raw, wasm, flags.mode, version⟩)
        fun _ r => ∃ late, IsLate late ∧ Stands false 4 (ws ++ late) r :=
      ensures_storeBuild cache key _
    dsimp only
    -- what storing does in detail is of no interest here
    generalize storeBuild cache key _ = act at hstore ⊢
    exact Ensures.bind_meets (Q := fun _ r => ∃ late, IsLate late ∧
      Stands false 4 (ws ++ late) r) hstore fun _ r hr => hr

lemma ensures_cacheSlot (o : Wasm.Optimizer) (frozen : Frozen) (flags : BuildFlags) :
    Ensures (Stands false 2 ws) (c.cacheSlot o frozen flags).run
      (Meets (Halts ws) fun _ => Stands false 2 ws) := by
  unfold cacheSlot
  rcases c.cache? with _ | cache
  · exact fun r hr => hr
  · refine Ensures.bind_meets (ensures_work _ (by decide) nofun
      fun e => by simp [reports, Fault.stage]) fun version => ?_
    exact fun r hr => hr

lemma ensures_fetch (o : Wasm.Optimizer) (frozen : Frozen) (flags : BuildFlags) :
    Ensures (Stands false 2 ws) (c.fetch o frozen flags).run (Meets (Halts ws) (Fetched ws)) := by
  refine Ensures.bind_meets (c.ensures_cacheSlot o frozen flags) fun slot => ?_
  rcases slot with _ | ⟨cache, key, version⟩
  · exact c.ensures_buildFresh o frozen flags none
  · refine Ensures.bind_meets (ensures_look (cache.lookup key)) fun found => ?_
    cases found with
    | none => exact c.ensures_buildFresh o frozen flags _
    | some hit =>
      intro r hr
      refine Ensures.bind_meets (P := Stands true 2 ws) (ensures_stage _ rfl) (fun _ => ?_) r
        (hr.either (by decide) true)
      refine Ensures.bind_meets (ensures_stage _ rfl) fun _ => ?_
      exact fun r hr => ⟨[], .inl rfl, by rwa [List.append_nil]⟩

lemma ensures_buildGraph (manifest : Manifest) (g : Graph) :
    Ensures (Stands false 1 ws) (c.buildGraph manifest g).run
      (Meets (Halts ws) (Fetched ws)) := by
  refine Ensures.bind_meets (ensures_work _ (by decide) nofun
    fun e => by simp [reports, Fault.stage]) fun frozen => ?_
  refine Ensures.bind_meets (ensures_stage _ rfl) fun _ => ?_
  refine Ensures.bind_meets (ensures_work _ (by decide) nofun
    fun e => by simp [reports, Fault.stage]) fun o => ?_
  exact c.ensures_fetch o frozen _

lemma ensures_finish (project : Path) (manifest : Manifest) (g : Graph) (built : Built)
    (abi : Abi.Descriptor) : Ensures (Stands built.fromCache 4 ws)
      (c.finish project manifest g built abi).run
      (Meets (Halts ws) fun out r => out.fromCache = built.fromCache ∧ out.diagnostics = ws ∧
        Stands built.fromCache 6 ws r) := by
  have hcheck : Ensures (Stands built.fromCache 4 ws)
      (liftM (checkAbi g.entry abi built.frozen) : RunAttempt Fault Unit).run
      (Meets (Halts ws) fun _ => Stands built.fromCache 4 ws) := by
    unfold checkAbi
    dsimp only
    split
    · exact fun r hr => hr
    · exact fun r hr => hr.halts (by decide) nofun (by simp [reports, Fault.stage])
  refine Ensures.bind_meets hcheck fun _ => ?_
  refine Ensures.bind_meets (ensures_stage _ rfl) fun _ => ?_
  refine Ensures.bind_meets (ensures_work _ (by decide) nofun
    fun e => by simp [reports, Fault.stage]) fun _ => ?_
  refine Ensures.bind_meets (ensures_stage _ rfl) fun _ => ?_
  exact fun r hr => ⟨rfl, hr.warnings, hr⟩

end Compiler

/-! ### A whole call -/

/-- The error of a result, if it is one. -/
def faultOf {ε α : Type} : Except ε α → List ε
  | .error e => [e]
  | .ok _ => []

namespace Call

variable {c : Call}

/-- The warnings of resolution. -/
def early (c : Call) : List Diagnostic :=
  match (Graph.resolve Host.files c.project c.manifest c.compiler.settings.base).run
    c.before.bench.host with
  | (.ok res, _) => res.warnings.map .ofWarning
  | (.error _, _) => []

/-- The errors that a call meets: that of the build before that of the ABI. -/
def errors (c : Call) : List Fault :=
  match c.front.run c.before with
  | (.error f, _) => [f]
  | (.ok (g, abi), r) =>
    match (c.compiler.buildGraph c.manifest g).run r, abi with
    | (.ok built, r), .ok abi =>
      faultOf ((c.compiler.finish c.project c.manifest g built abi).run r :
        Except Fault Output × Run).1
    | (built, _), abi => faultOf built ++ (faultOf abi).map (.abi g.entry)

/-- Resolution leads to the first state of the way. -/
lemma ensures_front (hmoves : c.before.moves = []) (hwarnings : c.before.warnings = []) :
    Meets (Halts c.early) (fun _ => Stands false 1 c.early)
      (c.front.run c.before : Except Fault (Graph × Except Abi.Fault Abi.Descriptor) × Run).1
      (c.front.run c.before : Except Fault (Graph × Except Abi.Fault Abi.Descriptor) × Run).2 := by
  have hresolve : Ensures (· = c.before) (atBench Fault.resolution (onHost
      (Graph.resolve Host.files c.project c.manifest c.compiler.settings.base))).run
      (Meets (Halts c.early) fun res r =>
        res.warnings.map .ofWarning = c.early ∧ Stands false 0 [] r) := by
    rintro r rfl
    have hstart : ∀ bench, Stands false 0 [] { c.before with bench } :=
      fun bench => ⟨hmoves, hwarnings⟩
    rcases hrun : (Graph.resolve Host.files c.project c.manifest c.compiler.settings.base).run
      c.before.bench.host with ⟨f | res, host⟩
    · have hearly : c.early = [] := by rw [early, hrun]
      rw [run_atBench_of_error (run_onHost hrun), hearly]
      exact (hstart _).halts (by decide) nofun (by simp)
    · have hearly : c.early = res.warnings.map .ofWarning := by rw [early, hrun]
      rw [run_atBench_of_ok (run_onHost hrun)]
      exact ⟨hearly.symm, hstart _⟩
  refine Ensures.bind_meets (Q := fun _ => Stands false 0 c.early)
    (Ensures.bind_meets hresolve fun res => ?_) (fun g => ?_) c.before rfl
  · rintro r ⟨hearly, hr⟩
    rw [← hearly]
    refine Ensures.bind_meets (ensures_warnings _ _) (fun _ => ?_) r hr
    exact fun r hr => hr
  · refine Ensures.bind_meets (ensures_stage _ rfl) fun _ => ?_
    exact Ensures.bind_meets (ensures_look _) fun _ r hr => hr

/-- A call that failed with some errors, and what was heard of it. -/
def FailsWith (ws : List Diagnostic) (first : Fault) (more : List Fault) (failure : Failure)
    (r : Run) : Prop :=
  failure.stage = first.stage ∧ failure.diagnostics = ws ++ (first :: more).map .ofFault ∧
    r.warnings = ws ∧ ∃ (fromCache : Bool) (n : ℕ), n < 6 ∧ (n = 3 → fromCache = false) ∧
      first.stage ∉ ((reports fromCache).take n).map Prod.fst ∧
      r.moves = (route fromCache).take n ++ [(.failed first.stage, .failed)]

lemma failsWith_fail (listener : Listener) {ws : List Diagnostic} {first : Fault} {r : Run}
    (h : Halts ws first r) (more : List Fault) :
    FailsWith ws first more (fail listener first more r : Failure × Run).1
      (fail listener first more r : Failure × Run).2 := by
  obtain ⟨fromCache, n, hn, hcached, hstage, hr⟩ := h
  have hwarnings := (warnings_advance listener (.failed first.stage) .failed r).trans hr.warnings
  refine ⟨rfl, ?_, hwarnings, fromCache, n, hn, hcached, hstage, ?_⟩
  · change (advance listener (.failed first.stage) .failed r : Unit × Run).2.warnings ++ _ = _
    rw [hwarnings]
  · rw [← hr.moves]
    exact moves_advance listener (.failed first.stage) .failed r

/-- What a call comes to that meets the given errors. -/
def Concludes (c : Call) (errors : List Fault) : Except Failure Output → Run → Prop
  | .ok out, r => errors = [] ∧ ∃ late, Compiler.IsLate late ∧
      out.diagnostics = c.early ++ late ∧ Stands out.fromCache 6 (c.early ++ late) r
  | .error failure, r => ∃ first more late, errors = first :: more ∧ Compiler.IsLate late ∧
      FailsWith (c.early ++ late) first more failure r

lemma concludes_of_halts {late : List Diagnostic} {first : Fault} {r : Run}
    (hlate : Compiler.IsLate late) (h : Halts (c.early ++ late) first r)
    (more : List Fault) : c.Concludes (first :: more)
      (.error (fail c.compiler.listener first more r : Failure × Run).1)
      (fail c.compiler.listener first more r : Failure × Run).2 :=
  ⟨first, more, late, rfl, hlate, failsWith_fail c.compiler.listener h more⟩

lemma concludes (hmoves : c.before.moves = []) (hwarnings : c.before.warnings = []) :
    c.Concludes c.errors c.result c.after := by
  have hfront := ensures_front hmoves hwarnings
  have hnone : Compiler.IsLate [] := .inl rfl
  rw [result, after, compile_eq]
  unfold errors
  rcases hrun : c.front.run c.before with ⟨f | ⟨g, abi⟩, r⟩
  · rw [hrun] at hfront
    rw [state_bind hrun]
    exact concludes_of_halts hnone (by rwa [List.append_nil]) []
  rw [hrun] at hfront
  have hbuild := c.compiler.ensures_buildGraph c.manifest g r hfront
  rw [state_bind hrun]
  dsimp only
  rcases hbuilt : (c.compiler.buildGraph c.manifest g).run r with ⟨built, r'⟩
  rw [hbuilt] at hbuild
  rw [state_bind hbuilt]
  rcases built with f | built <;> rcases abi with e | abi
  · exact concludes_of_halts hnone (by rwa [List.append_nil]) _
  · exact concludes_of_halts hnone (by rwa [List.append_nil]) []
  · obtain ⟨late, hlate, hr⟩ := hbuild
    exact concludes_of_halts hlate
      (hr.halts (by decide) (by omega) (by simp [reports, Fault.stage])) []
  · obtain ⟨late, hlate, hr⟩ := hbuild
    have hfinish := c.compiler.ensures_finish c.project c.manifest g built abi r' hr
    rw [conclude]
    rcases hres : (c.compiler.finish c.project c.manifest g built abi).run r' with ⟨f | out, r''⟩
    · rw [hres] at hfinish
      rw [state_bind hres]
      dsimp only
      rw [hres]
      exact concludes_of_halts hlate hfinish []
    · rw [hres] at hfinish
      rw [state_bind hres]
      dsimp only
      rw [hres]
      obtain ⟨hfrom, hdiagnostics, hstands⟩ := hfinish
      rw [← hfrom] at hstands
      exact ⟨rfl, late, hlate, hdiagnostics, hstands⟩

/-- How a call goes, whatever comes of its parts. -/
structure Progress (c : Call) : Prop where
  /-- Each state may follow the one before. -/
  accepted : (State.init :: c.after.moves.map Prod.fst).IsChain fun s t => s.accepts t = true
  once : (c.after.events.map Prod.fst).Nodup
  succeeds_iff : (∃ out, c.result = .ok out) ↔ (Stage.emit, Status.completed) ∈ c.after.events
  fails_iff : (∃ f, c.result = .error f) ↔ ∃ stage, (stage, Status.failed) ∈ c.after.events
  /-- Warnings of resolution come before that of storing. -/
  warnings : ∃ late, Compiler.IsLate late ∧ c.after.warnings = c.early ++ late
  success : ∀ out, c.result = .ok out → c.errors = [] ∧
    c.after.events = reports out.fromCache ∧ out.diagnostics = c.after.warnings
  /-- A failure is heard after the stages that went well, and after both or none of the two that
  the cache may stand for. -/
  failure : ∀ failure, c.result = .error failure → ∃ first more fromCache n,
    c.errors = first :: more ∧ n < 6 ∧ (n = 3 → fromCache = false) ∧
    c.after.events = (reports fromCache).take n ++ [(first.stage, .failed)] ∧
    failure.stage = first.stage ∧
    failure.diagnostics = c.after.warnings ++ (first :: more).map .ofFault

/-- **The progress of a call.** Whatever its parts come to, a new run goes only where its state
allows, its listener hears of each stage once and in order, and the failure, if there is one, comes
last and is that of the first error. -/
theorem progress_of_compile (hmoves : c.before.moves = []) (hwarnings : c.before.warnings = []) :
    c.Progress := by
  have hconcludes := concludes hmoves hwarnings
  rcases hres : c.result with failure | out
  · rw [hres] at hconcludes
    obtain ⟨first, more, late, herrors, hlate, hstage, hdiagnostics, hraised, fromCache, n, hn,
      hcached, hnew, hmoves'⟩ := hconcludes
    have hevents : c.after.events = (reports fromCache).take n ++ [(first.stage, .failed)] := by
      rw [Run.events, hmoves', List.filterMap_append, events_route]
      rfl
    refine {
      accepted := ?_
      once := ?_
      succeeds_iff := ?_
      fails_iff := ?_
      warnings := ⟨late, hlate, hraised⟩
      success := fun out h => nomatch hres.symm.trans h
      failure := fun failure' h => ?_ }
    · rw [hmoves', List.map_append]
      exact isChain_route_failed fromCache n hn first.stage
    · rw [hevents, List.map_append]
      refine List.Nodup.append ?_ (List.nodup_singleton _) (List.disjoint_singleton.mpr hnew)
      rw [List.map_take]
      exact (nodup_reports fromCache).sublist (List.take_sublist _ _)
    · rw [hres, hevents]
      simp [emit_notMem_take fromCache n hn]
    · rw [hres, hevents]
      exact ⟨fun _ => ⟨first.stage, by simp⟩, fun _ => ⟨failure, rfl⟩⟩
    · cases hres.symm.trans h
      exact ⟨first, more, fromCache, n, herrors, hn, hcached, hevents, hstage,
        by rw [hraised, hdiagnostics]⟩
  · rw [hres] at hconcludes
    obtain ⟨herrors, late, hlate, hdiagnostics, hstands⟩ := hconcludes
    have hevents : c.after.events = reports out.fromCache := by
      rw [Run.events, hstands.moves, events_route]
      rfl
    refine {
      accepted := ?_
      once := ?_
      succeeds_iff := ?_
      fails_iff := ?_
      warnings := ⟨late, hlate, hstands.warnings⟩
      success := fun out' h => ?_
      failure := fun failure h => nomatch hres.symm.trans h }
    · rw [hstands.moves]
      exact isChain_route out.fromCache
    · rw [hevents]
      exact nodup_reports out.fromCache
    · rw [hres, hevents]
      exact ⟨fun _ => by simp [reports], fun _ => ⟨out, rfl⟩⟩
    · rw [hres, hevents]
      refine ⟨nofun, fun ⟨stage, h⟩ => ?_⟩
      exact absurd rfl (status_of_mem_reports _ h)
    · cases hres.symm.trans h
      exact ⟨herrors, hevents, by rw [hstands.warnings, hdiagnostics]⟩

end Call

/-! ### A cache that cannot be written to -/

/-- The small project on a host where nothing may be written to the cache. -/
def refusedCall : Call := smallCall true
  { tree := smallTree, refuse := fun n => if n = 7 then some .accessDenied else none }

/-- The call succeeds all the same: it makes its binary and warns of the cache. -/
lemma result_refusedCall : ∃ out, refusedCall.result = .ok out ∧ out.fromCache = false ∧
    out.diagnostics.length = 1 := by
  have hout : refusedCall.result.toOption.any (fun out =>
      decide (out.fromCache = false ∧ out.diagnostics.length = 1)) = true := by decide +kernel
  obtain ⟨out, hrun, hmade⟩ := toOption_any_eq_true.mp hout
  exact ⟨out, hrun, of_decide_eq_true hmade⟩

/-- The call whose cache cannot be written to makes its binary all the same, and says so. -/
theorem progress_of_refusedCall : refusedCall.Progress ∧
    ∃ out, refusedCall.result = .ok out ∧ refusedCall.after.events = reports false ∧
      out.diagnostics.length = 1 := by
  obtain ⟨out, hrun, hmade, hlength⟩ := result_refusedCall
  have hprogress := Call.progress_of_compile (c := refusedCall) rfl rfl
  have hevents := (hprogress.success out hrun).2.1
  rw [hmade] at hevents
  exact ⟨hprogress, out, hrun, hevents, hlength⟩

end ContractBuild.Build

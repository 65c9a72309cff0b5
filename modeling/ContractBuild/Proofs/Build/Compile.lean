import Mathlib
import ContractBuild.Proofs.Build.Call
import ContractBuild.Proofs.Build.Run

/-!
One call on a cache in order: whether the binary is found or made, it is the output of what the call
gathered, and the cache is in order afterwards.
-/

namespace ContractBuild.Build

open ContractBuild.Disk ContractBuild.Host

lemma Compiler.gives_graphOf (c : Compiler) (project : Path) (manifest : Manifest) :
    Gives (c.graphOf project manifest) fun g => g.IsRead := by
  refine (gives_atBench (gives_onHost (Graph.gives_resolve _ _ _))).bind fun res hres => ?_
  exact Gives.bind_any fun _ => Gives.pure hres

namespace Call

/-! ### What a call gathers -/

/-- The graph of the project, and the ABI of its entry file. -/
def front (c : Call) : RunAttempt Fault (Graph × Except Abi.Fault Abi.Descriptor) := do
  let g ← c.compiler.graphOf c.project c.manifest
  advance c.compiler.listener .resolved .completed
  let abi ← (atHost (Abi.extractFile Host.files g.entry (Compiler.entryPath g)) :
    InRun (Except Abi.Fault Abi.Descriptor))
  return (g, abi)

/-- The frozen project and the optimizer. -/
def prepare (c : Call) (g : Graph) : RunAttempt Fault (Frozen × Wasm.Optimizer) := do
  let frozen ← atBench Fault.staleSource
    (onHost (Frozen.freeze Host.files c.compiler.settings.base g))
  advance c.compiler.listener .frozen .completed
  let o ← atBench Fault.optimization c.findOptimizer
  return (frozen, o)

/-- All that happens before the cache is looked at. -/
def gather (c : Call) : RunAttempt Fault (Frozen × Wasm.Optimizer) := do
  let (g, _) ← c.front
  c.prepare g

/-- The inputs that a frozen project and an optimizer make. -/
def inputs (c : Call) (frozen : Frozen) (o : Wasm.Optimizer) : Cache.Inputs :=
  ⟨frozen, c.flags, c.version, o.fingerprint⟩

/-- What the binary of the call is made from, if it comes to one. -/
def Uses (c : Call) (i : Cache.Inputs) : Prop :=
  ∃ frozen o r, c.gather.run c.before = (.ok (frozen, o), r) ∧ i = c.inputs frozen o

variable {c : Call} {R : Recipe} {dir : Place} {used : Cache.Inputs → Prop}

/-- Where a run is while the cache is in order. -/
abbrev InOrder (c : Call) (dir : Place) (R : Recipe) (used : Cache.Inputs → Prop) : Run → Prop :=
  OnRun (c.Orderly dir (R.ledger used))

/-! ### What the parts of a call keep -/

/-- What looks, listeners and the programs of a call keep, at moments of the call. -/
structure Preserves (c : Call) (P : Bench → Prop) : Prop where
  moment : ∀ b, P b → c.Moment b
  look : ∀ tools, Quiet fun h => P ⟨h, tools⟩
  tell : ∀ stage status tools, Keeps (fun h => P ⟨h, tools⟩) (c.compiler.listener stage status)
  version : Keeps P c.compiler.builder.version.run
  build : ∀ frozen, Keeps P (c.compiler.builder.build frozen c.flags).run
  detect : Keeps P c.findOptimizer.run
  optimize : ∀ o raw tools, c.Finds o → Keeps (fun h => P ⟨h, tools⟩)
    (o.optimize c.flags.mode c.flags.debugSymbols raw).run

lemma Respects.preserves {L : Cache.Ledger} (hr : c.Respects dir) :
    c.Preserves (c.Orderly dir L) where
  moment _ hb := hb.moment
  look := quiet_orderly hr
  tell := keeps_tell hr
  version := keeps_version hr
  build := keeps_build hr
  detect := keeps_findOptimizer hr
  optimize _ raw tools ho := keeps_optimize hr ho raw tools

section Keeping

variable {P : Bench → Prop} (hp : c.Preserves P)

include hp

lemma keeps_listener (next : State) (status : Status) :
    Keeps (OnRun P) (advance c.compiler.listener next status) :=
  keeps_advance hp.tell next status

lemma keeps_front : Keeps (OnRun P) c.front.run := by
  have hgraph : Keeps (OnRun P) (c.compiler.graphOf c.project c.manifest).run := by
    refine (keeps_atBench (keeps_onHost fun tools =>
      Graph.keeps_resolve (hp.look tools).files _ _ _)).bind_ok fun res => ?_
    exact (Keeps.forM_ok (fun w => Keeps.lift (keeps_warn _)) _).bind_ok fun _ => Keeps.pure_ok _
  refine hgraph.bind_ok fun g => ?_
  refine Keeps.bind_ok (Keeps.lift (keeps_listener hp _ _)) fun _ => ?_
  refine Keeps.bind_ok (Keeps.lift (keeps_atHost fun tools =>
    Abi.keeps_extractFile (hp.look tools).files _ _)) fun _ => ?_
  exact Keeps.pure_ok _

/-- The optimizer that is prepared is one that the call finds. -/
lemma ensures_prepare (g : Graph) :
    Ensures (OnRun P) (c.prepare g).run (Ends (OnRun P) fun p r => c.Finds p.2 ∧ OnRun P r) := by
  have hfreeze : Keeps (OnRun P) (atBench Fault.staleSource
      (onHost (Frozen.freeze Host.files c.compiler.settings.base g))).run :=
    keeps_atBench (keeps_onHost fun tools => Frozen.keeps_freeze (hp.look tools).files _ _)
  have hfind : Ensures P c.findOptimizer.run (Ends P fun o b => c.Finds o ∧ P b) := by
    intro b hb
    have hkept := hp.detect b hb
    rcases hrun : c.findOptimizer.run b with ⟨res, b'⟩
    rw [hrun] at hkept
    cases res with
    | ok o => exact ⟨⟨b, b', hp.moment b hb, hrun⟩, hkept⟩
    | error f => exact hkept
  refine Ensures.bind_ok (keeps_iff_ends.mp hfreeze) fun frozen => ?_
  refine Ensures.bind_ok (Ensures.lift (keeps_listener hp _ _)) fun _ => ?_
  refine Ensures.bind_ok (ensures_atBench hfind) fun o => ?_
  exact Ensures.pure_ok fun r hr => hr

end Keeping

/-! ### Making the binary -/

section Fetching

variable (hr : c.Respects dir) (hf : c.Follows R) {frozen : Frozen} {o : Wasm.Optimizer}
  (ho : c.Finds o)

include hr hf in
lemma ensures_raw : Ensures (c.Orderly dir (R.ledger used))
    (c.compiler.builder.build frozen c.flags).run
    (Ends (c.Orderly dir (R.ledger used)) fun raw b =>
      raw = R.raw (c.inputs frozen o) ∧ c.Orderly dir (R.ledger used) b) := by
  intro b hb
  have hkept := keeps_build hr frozen b hb
  rcases hrun : (c.compiler.builder.build frozen c.flags).run b with ⟨res, b'⟩
  rw [hrun] at hkept
  cases res with
  | ok raw => exact ⟨hf.build b frozen raw b' hb.moment hrun, hkept⟩
  | error f => exact hkept

include hr hf ho in
lemma ensures_optimized {raw : Bytes} (hraw : raw = R.raw (c.inputs frozen o)) :
    Ensures (c.Orderly dir (R.ledger used))
      (onHost (o.optimize c.flags.mode c.flags.debugSymbols raw)).run
      (Ends (c.Orderly dir (R.ledger used)) fun wasm b =>
        wasm = R.output (c.inputs frozen o) ∧ c.Orderly dir (R.ledger used) b) := by
  refine ensures_onHost fun tools h hh => ?_
  have hkept := keeps_optimize hr ho raw tools h hh
  rcases hrun : (o.optimize c.flags.mode c.flags.debugSymbols raw).run h with ⟨res, h'⟩
  rw [hrun] at hkept
  cases res with
  | ok wasm =>
    refine ⟨?_, hkept⟩
    rw [hf.optimize ⟨h, tools⟩ o raw wasm h' hh.moment ho hrun, hraw]
    rfl
  | error f => exact hkept

/-- A slot in the cache of the call, for the inputs. -/
def IsSlot (c : Call) (i : Cache.Inputs) (slot : Option (Cache × String × String)) : Prop :=
  ∀ cache key version, slot = some (cache, key, version) → cache = c.cache ∧ key = i.key

/-- A build that gives the output of the inputs, and leaves the cache in order. -/
def Makes (c : Call) (dir : Place) (R : Recipe) (used : Cache.Inputs → Prop) (i : Cache.Inputs)
    (built : Built) (r : Run) : Prop :=
  built.wasm = R.output i ∧ c.InOrder dir R used r

include hr in
lemma keeps_storeBuild {i : Cache.Inputs} (hi : used i) (version : String) :
    Keeps (c.InOrder dir R used)
      (Compiler.storeBuild c.cache i.key ⟨R.raw i, R.output i, c.flags.mode, version⟩) := by
  have hstore := keeps_atHost (keeps_store (L := R.ledger used) hr hi c.flags.mode version)
  refine hstore.bind fun r => ?_
  cases r with
  | ok _ => exact Keeps.pure _
  | error f => exact keeps_warn _

include hr hf ho in
lemma ensures_buildFresh {slot : Option (Cache × String × String)}
    (hi : used (c.inputs frozen o)) (hslot : c.IsSlot (c.inputs frozen o) slot) :
    Ensures (c.InOrder dir R used) (c.compiler.buildFresh o frozen c.flags slot).run
      (Ends (c.InOrder dir R used) (c.Makes dir R used (c.inputs frozen o))) := by
  refine Ensures.bind_ok (ensures_atBench (ensures_raw (o := o) hr hf)) fun raw => ?_
  rintro r ⟨rfl, hr₁⟩
  refine Ensures.bind_ok (Ensures.lift (keeps_listener hr.preserves _ _)) (fun _ => ?_) r hr₁
  refine Ensures.bind_ok (ensures_atBench (ensures_optimized hr hf ho rfl)) fun wasm => ?_
  rintro r ⟨rfl, hr₂⟩
  refine Ensures.bind_ok (Ensures.lift (keeps_listener hr.preserves _ _)) (fun _ => ?_) r hr₂
  rcases slot with _ | ⟨cache, key, version⟩
  · exact Ensures.pure_ok fun r hr₃ => ⟨rfl, hr₃⟩
  · obtain ⟨hcache, hkey⟩ := hslot cache key version rfl
    have hstore := keeps_storeBuild (R := R) hr hi version
    rw [hcache, hkey]
    dsimp only
    -- what storing does in detail is of no interest here
    generalize Compiler.storeBuild c.cache (c.inputs frozen o).key _ = act at hstore ⊢
    refine Ensures.bind_ok (Ensures.lift hstore) fun _ => ?_
    exact Ensures.pure_ok fun r hr₃ => ⟨rfl, hr₃⟩

include hr hf in
lemma ensures_cacheSlot : Ensures (c.InOrder dir R used)
    (c.compiler.cacheSlot o frozen c.flags).run
    (Ends (c.InOrder dir R used) fun slot r =>
      c.IsSlot (c.inputs frozen o) slot ∧ c.InOrder dir R used r) := by
  unfold Compiler.cacheSlot
  rcases hcache : c.compiler.cache? with _ | cache
  · exact Ensures.pure_ok fun r hr₁ => ⟨fun _ _ _ h => (nomatch h), hr₁⟩
  · have hversion : Ensures (c.Orderly dir (R.ledger used)) c.compiler.builder.version.run
        (Ends (c.Orderly dir (R.ledger used)) fun v b =>
          v = c.version ∧ c.Orderly dir (R.ledger used) b) := by
      intro b hb
      have hkept := keeps_version hr b hb
      rcases hrun : c.compiler.builder.version.run b with ⟨res, b'⟩
      rw [hrun] at hkept
      cases res with
      | ok v => exact ⟨hf.version b v b' hb.moment hrun, hkept⟩
      | error f => exact hkept
    have hsame : cache = c.cache := by
      unfold Compiler.cache? at hcache
      split_ifs at hcache
      exact (Option.some.inj hcache).symm
    refine Ensures.bind_ok (ensures_atBench hversion) fun v => ?_
    rintro r ⟨rfl, hr₁⟩
    refine ⟨fun cache' key version h => ?_, hr₁⟩
    cases h
    exact ⟨hsame, rfl⟩

include hr hf ho in
/-- Found or made, a binary is the output of the inputs. -/
lemma ensures_fetch (hL : (R.ledger used).IsCollisionFree) (hi : used (c.inputs frozen o)) :
    Ensures (c.InOrder dir R used) (c.compiler.fetch o frozen c.flags).run
      (Ends (c.InOrder dir R used) (c.Makes dir R used (c.inputs frozen o))) := by
  refine Ensures.bind_ok (ensures_cacheSlot (o := o) hr hf) fun slot => ?_
  rintro r ⟨hslot, hr₁⟩
  have hfresh := ensures_buildFresh hr hf ho hi hslot
  rcases slot with _ | ⟨cache, key, version⟩
  · exact hfresh r hr₁
  · obtain ⟨hcache, hkey⟩ := hslot cache key version rfl
    have hlookup := ensures_atHost (ensures_lookup hr hL hi)
    rw [hcache, hkey] at hfresh ⊢
    dsimp only
    refine Ensures.bind_ok (Ensures.lift hlookup) (fun found => ?_) r hr₁
    cases found with
    | none => exact fun r hr₂ => hfresh r hr₂.1
    | some hit =>
      rintro r ⟨hr₂, hhit⟩
      refine Ensures.bind_ok (Ensures.lift (keeps_listener hr.preserves _ _)) (fun _ => ?_)
        r hr₂
      refine Ensures.bind_ok (Ensures.lift (keeps_listener hr.preserves _ _)) fun _ => ?_
      exact Ensures.pure_ok fun r hr₃ => ⟨hhit hit rfl, hr₃⟩

end Fetching

/-! ### A whole call -/

section Ending

variable (hr : c.Respects dir) {W : Bytes → Prop}

/-- A call that ends in order, and whose binary is one of `W` if it has one. -/
def EndsWith (c : Call) (dir : Place) (R : Recipe) (used : Cache.Inputs → Prop) (W : Bytes → Prop) :
    Except Failure Output → Run → Prop :=
  Ends (c.InOrder dir R used) fun out r => W out.wasm ∧ c.InOrder dir R used r

include hr

lemma ensures_finish (g : Graph) {built : Built} (hW : W built.wasm) (abi : Abi.Descriptor) :
    Ensures (c.InOrder dir R used) (c.compiler.finish c.project c.manifest g built abi).run
      (Ends (c.InOrder dir R used) fun out r => W out.wasm ∧ c.InOrder dir R used r) := by
  have hcheck : Keeps (c.InOrder dir R used)
      (liftM (Compiler.checkAbi g.entry abi built.frozen) : RunAttempt Fault Unit).run := by
    cases Compiler.checkAbi g.entry abi built.frozen with
    | ok u => exact Keeps.pure_ok u
    | error f => exact Keeps.throw f
  have hemit : Keeps (c.InOrder dir R used) (Compiler.emit (c.project.join c.manifest.output)
      (c.project.join c.manifest.abiOutput) built.wasm abi).run :=
    keeps_atBench (keeps_onHost (keeps_emit hr [built.wasm, Text.Utf8.encode abi.toText]))
  refine Ensures.bind_ok (keeps_iff_ends.mp hcheck) fun _ => ?_
  refine Ensures.bind_ok (Ensures.lift (keeps_listener hr.preserves _ _)) fun _ => ?_
  refine Ensures.bind_ok (keeps_iff_ends.mp hemit) fun _ => ?_
  refine Ensures.bind_ok (Ensures.lift (keeps_listener hr.preserves _ _)) fun _ => ?_
  exact fun r hr₁ => ⟨hW, hr₁⟩

lemma ensures_failing (first : Fault) (more : List Fault) :
    Ensures (c.InOrder dir R used)
      (do return .error (← fail c.compiler.listener first more)) (c.EndsWith dir R used W) :=
  Ensures.bind (keeps_fail (keeps_tell hr) first more) fun _ => Ensures.pure fun _ h => h

end Ending


/-- What the binary and the ABI come to. -/
def conclude (c : Call) (g : Graph) :
    Except Fault Built → Except Abi.Fault Abi.Descriptor → InRun (Except Failure Output)
  | .ok built, .ok abi => do
    Compiler.orFail c.compiler.listener
      (← (c.compiler.finish c.project c.manifest g built abi).run)
  | .error f, .ok _ => return .error (← fail c.compiler.listener f [])
  | .ok _, .error f => return .error (← fail c.compiler.listener (.abi g.entry f) [])
  | .error f, .error e => return .error (← fail c.compiler.listener f [.abi g.entry e])

lemma ensures_conclude (hr : c.Respects dir) {W : Bytes → Prop} (g : Graph)
    (built : Except Fault Built) (abi : Except Abi.Fault Abi.Descriptor) :
    Ensures (Ends (c.InOrder dir R used) (fun b r => W b.wasm ∧ c.InOrder dir R used r) built)
      (c.conclude g built abi) (c.EndsWith dir R used W) := by
  rcases built with f | built <;> rcases abi with e | abi
  · exact ensures_failing hr _ _
  · exact ensures_failing hr _ _
  · exact fun r h => ensures_failing hr _ _ r h.2
  · rintro r ⟨hW, hr₁⟩
    refine Ensures.bind (ensures_finish hr g hW abi) (fun res => ?_) r hr₁
    cases res with
    | ok out => exact Ensures.pure fun _ h => h
    | error f => exact ensures_failing hr _ _

lemma compile_eq (c : Call) : c.compiler.compile c.project c.manifest = (do
    match ← c.front.run with
    | .error f => return .error (← fail c.compiler.listener f [])
    | .ok (g, abi) =>
      let built ← (c.compiler.buildGraph c.manifest g).run
      c.conclude g built abi) := by
  unfold Compiler.compile front
  rw [ExceptT.run_bind, bind_assoc]
  congr 1
  funext res
  cases res with
  | error f => rfl
  | ok g =>
    funext r
    rfl

lemma buildGraph_eq (c : Call) (g : Graph) : c.compiler.buildGraph c.manifest g =
    (c.prepare g >>= fun p => c.compiler.fetch p.2 p.1 c.flags) := by
  simp only [Compiler.buildGraph, prepare, bind_assoc, pure_bind]
  rfl

/-- The output of something that the call uses. -/
def Yields (c : Call) (R : Recipe) (wasm : Bytes) : Prop := ∃ i, c.Uses i ∧ wasm = R.output i

lemma ensures_buildGraph (hr : c.Respects dir) (hf : c.Follows R)
    (hL : (R.ledger used).IsCollisionFree) (hused : ∀ i, c.Uses i → used i) {g : Graph}
    {abi : Except Abi.Fault Abi.Descriptor} {r : Run}
    (hfront : c.front.run c.before = (.ok (g, abi), r)) :
    Ensures (fun s => s = r ∧ c.InOrder dir R used s) (c.compiler.buildGraph c.manifest g).run
      (Ends (c.InOrder dir R used) fun b s => c.Yields R b.wasm ∧ c.InOrder dir R used s) := by
  have hprepare : Ensures (fun s => s = r ∧ c.InOrder dir R used s) (c.prepare g).run
      (Ends (c.InOrder dir R used) fun p s =>
        c.Uses (c.inputs p.1 p.2) ∧ c.Finds p.2 ∧ c.InOrder dir R used s) := by
    rintro s ⟨rfl, hs⟩
    have hends := ensures_prepare hr.preserves g s hs
    rcases hrun : (c.prepare g).run s with ⟨res, s'⟩
    rw [hrun] at hends
    cases res with
    | ok p => exact ⟨⟨p.1, p.2, s', by rw [gather, run_bind_of_ok hfront, hrun], rfl⟩, hends⟩
    | error f => exact hends
  rw [buildGraph_eq]
  refine Ensures.bind_ok hprepare fun p => ?_
  rintro s ⟨huses, hfinds, hs⟩
  have hfetch := ensures_fetch hr hf hfinds hL (hused _ huses)
  refine (hfetch.mono (Ends.imp (fun _ h => h) fun b s' h => ?_)) s hs
  exact ⟨⟨_, huses, h.1⟩, h.2⟩

/-- A call on a cache in order gives the output of what it uses, and leaves the cache in order. -/
lemma ensures_compile (hr : c.Respects dir) (hf : c.Follows R)
    (hL : (R.ledger used).IsCollisionFree) (hused : ∀ i, c.Uses i → used i)
    (hbefore : c.InOrder dir R used c.before) :
    c.EndsWith dir R used (c.Yields R) c.result c.after := by
  rw [result, after, compile_eq]
  have hfront : Ensures (fun r => r = c.before ∧ c.InOrder dir R used r) c.front.run
      (Ends (c.InOrder dir R used) fun p r =>
        c.front.run c.before = (.ok p, r) ∧ c.InOrder dir R used r) := by
    rintro r ⟨rfl, hr₁⟩
    have hkept := keeps_front hr.preserves c.before hr₁
    rcases hrun : c.front.run c.before with ⟨res, r'⟩
    rw [hrun] at hkept
    cases res with
    | ok p => exact ⟨rfl, hkept⟩
    | error f => exact hkept
  refine Ensures.bind hfront (fun res => ?_) c.before ⟨rfl, hbefore⟩
  rcases res with f | ⟨g, abi⟩
  · exact ensures_failing hr _ _
  · rintro r ⟨hrun, hr₁⟩
    refine Ensures.bind (ensures_buildGraph hr hf hL hused hrun) (fun built => ?_) r ⟨rfl, hr₁⟩
    exact ensures_conclude hr g built abi

end Call

end ContractBuild.Build

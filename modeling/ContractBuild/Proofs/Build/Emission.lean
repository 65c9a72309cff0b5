import Mathlib
import ContractBuild.Proofs.Build.Fixed
import ContractBuild.Proofs.Host.Atomic
import ContractBuild.Proofs.Host.Replace

/-!
What a call leaves at the two paths it publishes to: what it reports if it succeeds, and what was
there before if it fails.
-/

namespace ContractBuild

open ContractBuild.Disk

/-! ### After publishing a group -/

namespace Host

variable {files : List (Path × Bytes)} {h h' : Host}

/-- A group that could not be published leaves the files at its targets as they were. -/
lemma keepsFiles_of_publishAll_error (hh : Undisturbed files h) (hfresh : Fresh files h)
    {f : PublishFault} (hrun : (publishAll files).run h = (.error f, h')) :
    Tree.KeepsFiles (files.map Prod.fst) h.tree h'.tree := by
  obtain ⟨r, h'', v₀, scraps, hrun', hstart, hgrown, -, hhidden, hview, -⟩ :=
    run_publishAll hh hfresh
  obtain ⟨rfl, rfl⟩ := Prod.mk.inj (hrun'.symm.trans hrun)
  have hgrown' : ∀ place ∉ scraps,
      GrowsAt files (files.map Prod.fst) h.tree h''.tree.get? place := fun place hplace => by
    rw [GrowsAt, ← View.without_of_not_mem (v := h''.tree.get?) hplace, hview]
    exact hgrown place
  have hkeeps : Tree.KeepsDirectories h.tree h''.tree := by
    refine ⟨hstart, fun place hdir => (hgrown' place fun hplace => ?_).directory hdir⟩
    obtain ⟨g, hg, n, hn, hscrap⟩ := hhidden place hplace
    rw [hfresh.absent g hg n hn place hscrap] at hdir
    cases hdir
  refine ⟨hstart, fun p hp => ?_, fun p _ hknows => hknows.mono hkeeps⟩
  have hplace : p.destination h.tree.start ∉ scraps := by
    intro hplace
    obtain ⟨g, hg, rfl⟩ := List.mem_map.mp hp
    obtain ⟨g', hg', n, hn, hscrap⟩ := hhidden _ hplace
    exact hfresh.apart g' hg' n hn _ hscrap g hg rfl
  rcases hgrown' _ hplace with hsame | ⟨hnone, hdir, -⟩ | ⟨hspecial, hnone, -⟩
  · exact Tree.file?_congr hsame
  · rw [Tree.file?, Tree.file?, hnone, hdir]
  · rw [Tree.file?, Tree.file?, hspecial, hnone]

/-- A target of a group has what comes last for its place. -/
lemma read_of_publishAll_ok (hh : Undisturbed files h) (hfresh : Fresh files h)
    (hrun : (publishAll files).run h = (.ok (), h')) {earlier later : List (Path × Bytes)}
    {target p : Path} {content : Bytes} (hfiles : files = earlier ++ (target, content) :: later)
    (hlast : ∀ f ∈ later, f.1.destination h.tree.start ≠ target.destination h.tree.start)
    (hp : p ∈ files.map Prod.fst)
    (hplace : p.destination h.tree.start = target.destination h.tree.start) :
    h'.tree.read p = .ok content := by
  obtain ⟨r, h'', v₀, scraps, hrun', hstart, -, -, -, hview, hok⟩ := run_publishAll hh hfresh
  obtain ⟨rfl, rfl⟩ := Prod.mk.inj (hrun'.symm.trans hrun)
  obtain ⟨rfl, hknows⟩ := hok rfl
  obtain ⟨f, hf, rfl⟩ := List.mem_map.mp hp
  rw [View.without_nil] at hview
  refine Tree.read_eq_ok_iff.mpr ⟨hknows f hf, false, ?_⟩
  rw [hview, hstart, hplace, outcome, hfiles, List.reverse_append, List.reverse_cons,
    List.append_assoc]
  exact overlay_of_latest fun f hf => hlast f (List.mem_reverse.mp hf)

end Host

namespace Build

open ContractBuild.Host

-- publishing is known by what it leaves
attribute [local irreducible] publishAll

/-- Two paths hold two contents, unless they lead to one place: then both hold the second. -/
structure HoldBoth (start : Place) (p q : Path) (x y : Bytes) (t : Tree) : Prop where
  first : p.destination start ≠ q.destination start → t.read p = .ok x
  second : t.read q = .ok y
  clash : p.destination start = q.destination start → t.read p = .ok y

section

variable {start : Place} {p q : Path} {x y : Bytes} {t t' : Tree}

lemma HoldBoth.keeps (h : HoldBoth start p q x y t) (hkeeps : Tree.KeepsFiles [p, q] t t') :
    HoldBoth start p q x y t' :=
  ⟨fun hne => hkeeps.read (by simp) (h.first hne), hkeeps.read (by simp) h.second,
    fun heq => hkeeps.read (by simp) (h.clash heq)⟩

lemma holdBoth_of_publishAll {h h' : Host} (hh : Undisturbed [(p, x), (q, y)] h)
    (hfresh : Fresh [(p, x), (q, y)] h)
    (hrun : (publishAll [(p, x), (q, y)]).run h = (.ok (), h')) :
    HoldBoth h.tree.start p q x y h'.tree := by
  have hsecond : ∀ p' ∈ [p, q], p'.destination h.tree.start = q.destination h.tree.start →
      h'.tree.read p' = .ok y := fun p' hp' =>
    read_of_publishAll_ok hh hfresh hrun (show _ = [(p, x)] ++ (q, y) :: [] from rfl) (by simp) hp'
  refine ⟨fun hne => ?_, hsecond q (by simp) rfl, hsecond p (by simp)⟩
  refine read_of_publishAll_ok hh hfresh hrun (show _ = [] ++ (p, x) :: [(q, y)] from rfl)
    (fun f hf => ?_) (by simp) rfl
  rw [List.mem_singleton.mp hf]
  exact hne.symm

end

namespace Call

variable {c : Call}

/-! ### Before publishing -/

/-- Checks the ABI against the build before both are published. -/
def check (c : Call) (g : Graph) :
    Except Fault Built → Except Abi.Fault Abi.Descriptor →
      RunAttempt (Fault × List Fault) (Graph × Built × Abi.Descriptor)
  | .ok built, .ok abi =>
    match Compiler.checkAbi g.entry abi built.frozen with
    | .error f => throw (f, [])
    | .ok () => do
      advance c.compiler.listener .abiExtracted .completed
      return (g, built, abi)
  | .error f, .ok _ => throw (f, [])
  | .ok _, .error f => throw (.abi g.entry f, [])
  | .error f, .error e => throw (f, [.abi g.entry e])

/-- All that a call does before it publishes. -/
def work (c : Call) : RunAttempt (Fault × List Fault) (Graph × Built × Abi.Descriptor) := do
  match ← (c.front.run : InRun (Except Fault (Graph × Except Abi.Fault Abi.Descriptor))) with
  | .error f => throw (f, [])
  | .ok (g, abi) =>
    let built ← ((c.compiler.buildGraph c.manifest g).run : InRun (Except Fault Built))
    c.check g built abi

/-- Publishes the binary and the ABI, and reports both. -/
def report (c : Call) (g : Graph) (built : Built) (abi : Abi.Descriptor) :
    RunAttempt Fault Output := do
  let wasmPath := c.project.join c.manifest.output
  let abiPath := c.project.join c.manifest.abiOutput
  Compiler.emit wasmPath abiPath built.wasm abi
  advance c.compiler.listener .done .completed
  return {
    wasm := built.wasm
    abi
    wasmPath
    abiPath
    fromCache := built.fromCache
    cacheKey := built.cacheKey
    frozenDigest := built.frozen.digest
    modules := g.names
    diagnostics := (← get).warnings }

/-- What the work of a call comes to. -/
def settle (c : Call) : Except (Fault × List Fault) (Graph × Built × Abi.Descriptor) →
    InRun (Except Failure Output)
  | .error (f, more) => return .error (← fail c.compiler.listener f more)
  | .ok (g, built, abi) => do Compiler.orFail c.compiler.listener (← (c.report g built abi).run)

lemma conclude_eq (c : Call) (g : Graph) (built : Except Fault Built)
    (abi : Except Abi.Fault Abi.Descriptor) :
    c.conclude g built abi = (do c.settle (← (c.check g built abi).run)) := by
  rcases built with f | built <;> rcases abi with e | abi
  · rfl
  · rfl
  · rfl
  · have hfinish : c.compiler.finish c.project c.manifest g built abi = (do
        liftM (Compiler.checkAbi g.entry abi built.frozen)
        advance c.compiler.listener .abiExtracted .completed
        c.report g built abi) := rfl
    rw [conclude, hfinish, check]
    cases Compiler.checkAbi g.entry abi built.frozen with
    | error f => rfl
    | ok u =>
      funext r
      rfl

/-- A call works, and then it publishes or fails. -/
lemma compile_eq_work (c : Call) :
    c.compiler.compile c.project c.manifest = (do c.settle (← c.work.run)) := by
  rw [compile_eq]
  funext r
  rcases hfront : c.front.run r with ⟨f | ⟨g, abi⟩, r₁⟩
  · have hwork : c.work.run r = (.error (f, []), r₁) := by
      rw [work, run_bind_lift, hfront]
      rfl
    rw [state_bind hfront, state_bind hwork]
    rfl
  · rcases hbuilt : (c.compiler.buildGraph c.manifest g).run r₁ with ⟨built, r₂⟩
    have hwork : c.work.run r = (c.check g built abi).run r₂ := by
      rw [work, run_bind_lift, hfront]
      dsimp only
      rw [run_bind_lift, hbuilt]
    rw [state_bind hfront]
    dsimp only
    rw [state_bind hbuilt, conclude_eq]
    change (c.settle ((c.check g built abi).run r₂).1 ((c.check g built abi).run r₂).2) = _
    rw [← hwork]
    rfl

/-! ### What the work keeps -/

/-- A slot in the cache of a call that uses its cache. -/
def IsOwnSlot (c : Call) (slot : Option (Cache × String × String)) : Prop :=
  ∀ cache key version, slot = some (cache, key, version) →
    c.compiler.settings.useCache = true ∧ cache = c.cache ∧ ∃ i : Cache.Inputs, key = i.key

section Working

variable {P : Bench → Prop} (hp : c.Preserves P)
  (hstore : c.compiler.settings.useCache = true → ∀ (i : Cache.Inputs) a tools,
    Keeps (fun h => P ⟨h, tools⟩) (c.cache.store i.key a).run)
  {o : Wasm.Optimizer} {frozen : Frozen}

include hp in
lemma ensures_ownSlot : Ensures (OnRun P) (c.compiler.cacheSlot o frozen c.flags).run
    (Ends (OnRun P) fun slot r => c.IsOwnSlot slot ∧ OnRun P r) := by
  unfold Compiler.cacheSlot Compiler.cache?
  split_ifs with huse
  · refine Ensures.bind_ok (keeps_iff_ends.mp (keeps_atBench hp.version)) fun version r hr => ?_
    refine ⟨fun cache key v h => ?_, hr⟩
    cases h
    exact ⟨huse, rfl, ⟨frozen, c.flags, version, o.fingerprint⟩, rfl⟩
  · exact Ensures.pure_ok fun r hr => ⟨fun _ _ _ h => (nomatch h), hr⟩

include hp hstore

lemma keeps_buildFresh (ho : c.Finds o) {slot : Option (Cache × String × String)}
    (hslot : c.IsOwnSlot slot) :
    Keeps (OnRun P) (c.compiler.buildFresh o frozen c.flags slot).run := by
  refine (keeps_atBench (hp.build frozen)).bind_ok fun raw => ?_
  refine Keeps.bind_ok (Keeps.lift (keeps_listener hp _ _)) fun _ => ?_
  refine (keeps_atBench (keeps_onHost fun tools => hp.optimize o raw tools ho)).bind_ok fun wasm => ?_
  refine Keeps.bind_ok (Keeps.lift (keeps_listener hp _ _)) fun _ => ?_
  rcases slot with _ | ⟨cache, key, version⟩
  · exact Keeps.pure_ok _
  · obtain ⟨huse, hcache, i, hkey⟩ := hslot cache key version rfl
    have hkept : ∀ a, Keeps (OnRun P) (Compiler.storeBuild cache key a) := by
      intro a
      rw [hcache, hkey]
      refine (keeps_atHost (hstore huse i a)).bind fun res => ?_
      cases res with
      | ok _ => exact Keeps.pure _
      | error f => exact keeps_warn _
    exact Keeps.bind_ok (Keeps.lift (hkept _)) fun _ => Keeps.pure_ok _

lemma keeps_fetch (ho : c.Finds o) : Keeps (OnRun P) (c.compiler.fetch o frozen c.flags).run := by
  refine keeps_iff_ends.mpr (Ensures.bind_ok (ensures_ownSlot hp) fun slot => ?_)
  rintro r ⟨hslot, hr⟩
  refine keeps_iff_ends.mp ?_ r hr
  have hfresh : Keeps (OnRun P) (c.compiler.buildFresh o frozen c.flags slot).run :=
    keeps_buildFresh hp hstore ho hslot
  rcases slot with _ | ⟨cache, key, version⟩
  · exact hfresh
  · refine Keeps.bind_ok (Keeps.lift (keeps_atHost fun tools =>
      Cache.keeps_lookup (hp.look tools) key)) fun found => ?_
    cases found with
    | none => exact hfresh
    | some hit =>
      refine Keeps.bind_ok (Keeps.lift (keeps_listener hp _ _)) fun _ => ?_
      exact Keeps.bind_ok (Keeps.lift (keeps_listener hp _ _)) fun _ => Keeps.pure_ok _

lemma keeps_work : Keeps (OnRun P) c.work.run := by
  have hbuild : ∀ g, Keeps (OnRun P) (c.compiler.buildGraph c.manifest g).run := by
    intro g
    rw [buildGraph_eq]
    refine keeps_iff_ends.mpr (Ensures.bind_ok (ensures_prepare hp g) fun p => ?_)
    rintro r ⟨hfinds, hr⟩
    exact keeps_iff_ends.mp (keeps_fetch hp hstore hfinds) r hr
  refine Keeps.bind_ok (Keeps.lift (keeps_front hp)) fun res => ?_
  rcases res with f | ⟨g, abi⟩
  · exact Keeps.throw _
  · refine Keeps.bind_ok (Keeps.lift (hbuild g)) fun built => ?_
    rcases built with f | built <;> rcases abi with e | abi
    · exact Keeps.throw _
    · exact Keeps.throw _
    · exact Keeps.throw _
    · rw [check]
      cases Compiler.checkAbi g.entry abi built.frozen with
      | error f => exact Keeps.throw _
      | ok _ => exact Keeps.bind_ok (Keeps.lift (keeps_listener hp _ _)) fun _ => Keeps.pure_ok _

end Working

/-! ### The outputs -/

/-- Nobody but the call itself touches the files at its outputs, and they are not in the cache. -/
structure SparesOutputs (c : Call) : Prop where
  others : ∀ b, c.Moment b → ∀ n t, Tree.KeepsFiles c.outputs t (b.host.change n t)
  listener : ∀ b stage status, c.Moment b → Tree.KeepsFiles c.outputs b.host.tree
    (c.compiler.listener stage status b.host : Unit × Host).2.tree
  version : ∀ b, c.Moment b → Tree.KeepsFiles c.outputs b.host.tree
    (c.compiler.builder.version.run b : Except Native.Fault String × Bench).2.host.tree
  build : ∀ b frozen, c.Moment b → Tree.KeepsFiles c.outputs b.host.tree
    ((c.compiler.builder.build frozen c.flags).run b : Except Native.Fault Bytes × Bench).2.host.tree
  detect : ∀ b, c.Moment b → Tree.KeepsFiles c.outputs b.host.tree
    (c.findOptimizer.run b : Except Wasm.Fault Wasm.Optimizer × Bench).2.host.tree
  optimize : ∀ b o raw, c.Moment b → c.Finds o → Tree.KeepsFiles c.outputs b.host.tree
    ((o.optimize c.flags.mode c.flags.debugSymbols raw).run b.host :
      Except Wasm.Fault Bytes × Host).2.tree
  cache : c.compiler.settings.useCache = true → ∀ p ∈ c.outputs,
    ¬ c.cache.dir.destination c.start <+: (p.destination c.start).dropLast

/-- A moment of a call at which the files at its outputs are as in a tree. -/
structure Untouched (c : Call) (t : Tree) (b : Bench) : Prop where
  moment : c.Moment b
  files : Tree.KeepsFiles c.outputs t b.host.tree

variable {t : Tree}

/-- Work of the call itself that keeps the files. -/
lemma keeps_untouched (hs : c.SparesOutputs) {α : Type} {act : OnHost α}
    (hmoment : ∀ b, c.Moment b → c.Moment { b with host := (act b.host : α × Host).2 })
    (hkept : Keeps (Keeping c.outputs t) act) (tools : Tools) :
    Keeps (fun h => c.Untouched t ⟨h, tools⟩) act := fun h hh =>
  ⟨hmoment _ hh.moment, (hkept h ⟨hs.others _ hh.moment, hh.files⟩).tree⟩

lemma SparesOutputs.preserves (hs : c.SparesOutputs) : c.Preserves (c.Untouched t) where
  moment _ hb := hb.moment
  look tools α look := keeps_untouched hs (fun _ => .look look) (quiet_keeping α look) tools
  tell stage status _ _ hh :=
    ⟨.tell stage status hh.moment, hh.files.trans (hs.listener _ stage status hh.moment)⟩
  version _ hh := ⟨.version hh.moment, hh.files.trans (hs.version _ hh.moment)⟩
  build frozen _ hh := ⟨.build frozen hh.moment, hh.files.trans (hs.build _ frozen hh.moment)⟩
  detect _ hh := ⟨.detect hh.moment, hh.files.trans (hs.detect _ hh.moment)⟩
  optimize o raw _ ho _ hh := by
    obtain ⟨b, b', hb, hfind⟩ := ho
    exact ⟨.optimize raw hb hfind hh.moment,
      hh.files.trans (hs.optimize _ o raw hh.moment ⟨b, b', hb, hfind⟩)⟩

lemma SparesOutputs.store (hs : c.SparesOutputs) (ht : t.start = c.start)
    (huse : c.compiler.settings.useCache = true) (i : Cache.Inputs) (a : Cache.Artifact)
    (tools : Tools) : Keeps (fun h => c.Untouched t ⟨h, tools⟩) (c.cache.store i.key a).run :=
  keeps_untouched hs (fun _ => .store _ _)
    (Cache.keeps_store_apart rfl (by rw [ht]; exact hs.cache huse) i a) tools

/-! ### What is published -/

/-- The files that a call publishes. -/
def group (c : Call) (built : Built) (abi : Abi.Descriptor) : List (Path × Bytes) :=
  c.outputs.zip [built.wasm, Text.Utf8.encode abi.toText]

/-- From the time that the outputs are published nobody else changes files, hidden files are new,
and nothing is refused when the group is cleared up. -/
structure PublishesUndisturbed (c : Call) : Prop where
  undisturbed : ∀ g built abi r, c.work.run c.before = (.ok (g, built, abi), r) →
    Undisturbed (c.group built abi) r.bench.host
  fresh : ∀ g built abi r, c.work.run c.before = (.ok (g, built, abi), r) →
    Fresh (c.group built abi) r.bench.host

/-- What a call leaves at its outputs: what it reports, or the files that were there. -/
def Leaves (c : Call) (t : Tree) : Except Failure Output → Run → Prop
  | .ok out, r => c.outputs = [out.wasmPath, out.abiPath] ∧
      HoldBoth t.start out.wasmPath out.abiPath out.wasm (Text.Utf8.encode out.abi.toText)
        r.bench.host.tree
  | .error _, r => Tree.KeepsFiles c.outputs t r.bench.host.tree

lemma ensures_fail (hs : c.SparesOutputs) (first : Fault) (more : List Fault) :
    Ensures (OnRun (c.Untouched t)) (do return .error (← fail c.compiler.listener first more))
      (c.Leaves t) :=
  Ensures.bind (keeps_fail hs.preserves.tell first more) fun _ => Ensures.pure fun _ hr => hr.files

/-- Publishing the group of a call. -/
lemma ensures_emit {built : Built} {abi : Abi.Descriptor} {h : Host}
    (hh : Undisturbed (c.group built abi) h) (hfresh : Fresh (c.group built abi) h) :
    Ensures (fun b => c.Untouched t b ∧ b.host = h)
      (onHost (publishAll (c.group built abi))).run (Ends (c.Untouched t) fun _ b =>
        ∃ t', c.Untouched t' b ∧ HoldBoth t.start (c.project.join c.manifest.output)
          (c.project.join c.manifest.abiOutput) built.wasm (Text.Utf8.encode abi.toText) t') := by
  rintro ⟨host, tools⟩ ⟨huntouched, rfl⟩
  have hmoment := Moment.emit [built.wasm, Text.Utf8.encode abi.toText] huntouched.moment
  change c.Moment { host := ((publishAll (c.group built abi)).run host :
    Except PublishFault Unit × Host).2, tools } at hmoment
  rcases hrun : (publishAll (c.group built abi)).run host with ⟨f | _, h'⟩
  · rw [run_onHost (b := ⟨host, tools⟩) hrun]
    rw [hrun] at hmoment
    exact ⟨hmoment, huntouched.files.trans (keepsFiles_of_publishAll_error hh hfresh hrun)⟩
  · rw [run_onHost (b := ⟨host, tools⟩) hrun]
    rw [hrun] at hmoment
    refine ⟨h'.tree, ⟨hmoment, Tree.KeepsFiles.refl _ _⟩, ?_⟩
    rw [← huntouched.files.start]
    exact holdBoth_of_publishAll hh hfresh hrun

lemma ensures_report (hs : c.SparesOutputs) (g : Graph) {built : Built} {abi : Abi.Descriptor}
    {h : Host} (hh : Undisturbed (c.group built abi) h) (hfresh : Fresh (c.group built abi) h) :
    Ensures (OnRun fun b => c.Untouched t b ∧ b.host = h) (c.report g built abi).run
      (Ends (OnRun (c.Untouched t)) fun out r => c.Leaves t (.ok out) r) := by
  refine Ensures.bind_ok (ensures_atBench (ensures_emit hh hfresh)) fun _ => ?_
  rintro r ⟨t', hr, hboth⟩
  refine Ensures.bind_ok (Ensures.lift (keeps_listener (P := c.Untouched t') hs.preserves _ _))
    (fun _ => ?_) r hr
  exact fun r hr => ⟨rfl, hboth.keeps hr.files⟩

/-! ### With fixed tools -/

section

variable {raw : Bytes}

lemma HasFixedTools.sparesOutputs (hc : c.HasFixedTools raw)
    (hcache : c.compiler.settings.useCache = true → ∀ p ∈ c.outputs,
      ¬ c.cache.dir.destination c.start <+: (p.destination c.start).dropLast) :
    c.SparesOutputs where
  others b hb n t := by
    rw [(hc.surroundings hb).1, hc.others]
    exact Tree.KeepsFiles.refl _ _
  listener b stage status _ := by
    rw [hc.listener]
    exact Tree.KeepsFiles.refl _ _
  version b _ := by
    rw [hc.version]
    exact Tree.KeepsFiles.refl _ _
  build b frozen _ := by
    rw [hc.build]
    exact Tree.KeepsFiles.refl _ _
  detect b hb := by
    rw [hc.findOptimizer (hc.calm [] hb).2]
    exact Tree.KeepsFiles.refl _ _
  optimize b o binary _ ho := by
    obtain rfl := hc.finds ho
    rw [hc.mode, optimize_debug]
    exact Tree.KeepsFiles.refl _ _
  cache := hcache

/-- Fixed tools leave the tree as it is. -/
lemma HasFixedTools.preserves_tree (hc : c.HasFixedTools raw)
    (hwilling : ∀ n, c.before.bench.host.refuse n = none) :
    c.Preserves fun b => c.Moment b ∧ b.host.tree = t where
  moment _ hb := hb.1
  look tools α look h hh := by
    obtain ⟨hchange, hrefuse⟩ := hc.surroundings hh.1
    have hsolitary : Solitary (· = t) h :=
      ⟨fun n t => by rw [hchange, hc.others], fun n => by rw [hrefuse, hwilling], hh.2⟩
    exact ⟨.look look hh.1, (quiet_solitary α look h hsolitary).tree⟩
  tell stage status tools h hh := by
    refine ⟨.tell stage status hh.1, ?_⟩
    rw [hc.listener]
    exact hh.2
  version b hb := by
    refine ⟨.version hb.1, ?_⟩
    rw [hc.version]
    exact hb.2
  build frozen b hb := by
    refine ⟨.build frozen hb.1, ?_⟩
    rw [hc.build]
    exact hb.2
  detect b hb := by
    refine ⟨.detect hb.1, ?_⟩
    rw [hc.findOptimizer (hc.calm [] hb.1).2]
    exact hb.2
  optimize o binary tools ho h hh := by
    obtain ⟨b, b', hb, hfind⟩ := ho
    refine ⟨.optimize binary hb hfind hh.1, ?_⟩
    obtain rfl := hc.finds ⟨b, b', hb, hfind⟩
    rw [hc.mode, optimize_debug]
    exact hh.2

/-- Without a cache nothing is written before the outputs, and so there are no hidden files. -/
lemma HasFixedTools.publishesUndisturbed (hc : c.HasFixedTools raw)
    (hwilling : ∀ n, c.before.bench.host.refuse n = none)
    (hcache : c.compiler.settings.useCache = false)
    (htree : ∀ e ∈ c.before.bench.host.tree.nodes, IsVisible e.1)
    (houtputs : ∀ p ∈ c.outputs, IsVisible (p.destination c.start)) : c.PublishesUndisturbed := by
  have hwork : ∀ g built abi r, c.work.run c.before = (.ok (g, built, abi), r) →
      c.Moment r.bench ∧ r.bench.host.tree = c.before.bench.host.tree := by
    intro g built abi r hrun
    have hkept := keeps_work (hc.preserves_tree (t := c.before.bench.host.tree) hwilling)
      (by rw [hcache]; nofun) c.before ⟨.start, rfl⟩
    rwa [hrun] at hkept
  refine ⟨fun g built abi r hrun => ?_, fun g built abi r hrun => ?_⟩
  · obtain ⟨hchange, hrefuse⟩ := hc.surroundings (hwork g built abi r hrun).1
    refine ⟨fun n _ t => ?_, fun n _ => ?_, fun n _ => ?_⟩
    · rw [hchange, hc.others]
    · rw [hrefuse, hwilling]
      nofun
    · rw [hrefuse, hwilling]
  · have htree' := (hwork g built abi r hrun).2
    refine fresh_of_visible (by rwa [htree']) fun f hf => ?_
    rw [htree']
    exact houtputs f.1 (List.of_mem_zip hf).1

end

/-- **A call publishes what it reports.** Let nobody but the call touch the files at its outputs,
and let nothing disturb it when it publishes. If it succeeds, its outputs hold the binary and the ABI
that it reports, unless both paths lead to one place: then the ABI has taken the place of the binary.
If it fails, the files at its outputs are what they were before. -/
theorem publishes_what_it_reports (hs : c.SparesOutputs) (hp : c.PublishesUndisturbed) :
    (∀ out, c.result = .ok out → c.outputs = [out.wasmPath, out.abiPath] ∧
      HoldBoth c.start out.wasmPath out.abiPath out.wasm (Text.Utf8.encode out.abi.toText)
        c.after.bench.host.tree) ∧
    ∀ f, c.result = .error f → ∀ p ∈ c.outputs,
      c.after.bench.host.tree.file? (p.destination c.start) =
        c.before.bench.host.tree.file? (p.destination c.start) := by
  have hwork := keeps_work hs.preserves (hs.store rfl) c.before
    ⟨.start, Tree.KeepsFiles.refl c.outputs c.before.bench.host.tree⟩
  have hleaves : c.Leaves c.before.bench.host.tree c.result c.after := by
    rw [result, after, compile_eq_work]
    rcases hrun : c.work.run c.before with ⟨⟨f, more⟩ | ⟨g, built, abi⟩, r⟩
    · rw [hrun] at hwork
      rw [state_bind hrun]
      exact ensures_fail hs f more r hwork
    · rw [hrun] at hwork
      rw [state_bind hrun]
      refine Ensures.bind (ensures_report hs g (hp.undisturbed g built abi r hrun)
        (hp.fresh g built abi r hrun)) (fun res => ?_) r ⟨hwork, rfl⟩
      cases res with
      | ok out => exact Ensures.pure fun _ hr => hr
      | error f => exact ensures_fail hs f []
  refine ⟨fun out hout => ?_, fun f hf => ?_⟩
  · rw [hout] at hleaves
    exact hleaves
  · rw [hf] at hleaves
    exact hleaves.file

end Call

/-- The small project compiled without a cache. -/
def plainCall : Call := smallCall false { tree := smallTree }

lemma hasFixedTools_plainCall : plainCall.HasFixedTools emptyModule :=
  hasFixedTools_smallCall false fun _ _ => rfl

/-- The binary and the ABI of the small project are where the call says. -/
theorem plainCall_publishes : ∃ out, plainCall.result = .ok out ∧
    plainCall.outputs = [out.wasmPath, out.abiPath] ∧
    plainCall.after.bench.host.tree.read out.wasmPath = .ok out.wasm ∧
    plainCall.after.bench.host.tree.read out.abiPath = .ok (Text.Utf8.encode out.abi.toText) := by
  obtain ⟨hpublished, -⟩ := Call.publishes_what_it_reports
    (hasFixedTools_plainCall.sparesOutputs nofun)
    (hasFixedTools_plainCall.publishesUndisturbed (fun _ => rfl) rfl (by decide +kernel)
      (by decide +kernel))
  obtain ⟨out, hrun⟩ : ∃ out, plainCall.result = .ok out := result_smallCall
  obtain ⟨houtputs, hboth⟩ := hpublished out hrun
  refine ⟨out, hrun, houtputs, hboth.first ?_, hboth.second⟩
  have hapart : plainCall.outputs.Pairwise fun p q =>
      p.destination plainCall.start ≠ q.destination plainCall.start := by decide +kernel
  rw [houtputs] at hapart
  exact (List.pairwise_cons.mp hapart).1 _ List.mem_cons_self

/-- The small project with one path for both outputs. -/
def clashingCall : Call :=
  { plainCall with manifest := { smallManifest with abiOutput := smallManifest.output } }

/-- The call succeeds, and its binary is nowhere. -/
theorem clashingCall_loses_binary : ∃ out, clashingCall.result = .ok out ∧
    clashingCall.after.bench.host.tree.read out.wasmPath ≠ .ok out.wasm := by
  have hcall : clashingCall.result.toOption.any (fun out =>
      clashingCall.after.bench.host.tree.read out.wasmPath ≠ .ok out.wasm) = true := by
    decide +kernel
  obtain ⟨out, hrun, hlost⟩ := toOption_any_eq_true.mp hcall
  exact ⟨out, hrun, of_decide_eq_true hlost⟩

end Build

end ContractBuild

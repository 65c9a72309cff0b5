import Mathlib
import ContractBuild.Proofs.Build.Fixed

/-!
No mixed sources: others may change files between any two reads of a call. A call that succeeds has
frozen the sources whose imports it followed, and its ABI is that of the frozen entry. A call that
finds another source when it freezes fails, and says which module changed first.
-/

namespace ContractBuild

open ContractBuild.Digest ContractBuild.Disk ContractBuild.Host

namespace Abi

/-- The ABI of what a read of the entry file gives. -/
def ofRead (module : String) (path : Path) : Except Disk.Fault Bytes → Except Fault Descriptor
  | .error f => .error (.read module path.text f.message)
  | .ok bytes => extractBytes module bytes (sha256Hex bytes)

lemma extractFile_eq {m : Type → Type} [Monad m] [LawfulMonad m] (fs : Files m) (module : String)
    (path : Path) : extractFile fs module path = ofRead module path <$> fs.read path := by
  unfold extractFile
  rw [← bind_pure_comp]
  refine bind_congr fun r => ?_
  cases r <;> rfl

/-- An ABI names the digest that it was extracted with. -/
lemma source_of_extractBytes {module digest : String} {bytes : Bytes} {abi : Descriptor}
    (h : extractBytes module bytes digest = .ok abi) : abi.source = digest := by
  unfold extractBytes extract at h
  split at h
  · cases h
  split at h
  · cases h
  obtain ⟨methods, -, h⟩ := except_bind_ok.mp h
  cases h
  rfl

end Abi

namespace Build

/-! ### What the stages give -/

namespace Compiler

variable (c : Compiler)

lemma gives_fetch (o : Wasm.Optimizer) (frozen : Frozen) (flags : BuildFlags) :
    Gives (c.fetch o frozen flags) fun b => b.frozen = frozen := by
  have hfresh : ∀ slot, Gives (c.buildFresh o frozen flags slot) fun b => b.frozen = frozen := by
    intro slot
    refine Gives.bind_any fun raw => Gives.bind_any fun _ => Gives.bind_any fun wasm =>
      Gives.bind_any fun _ => ?_
    cases slot with
    | none => exact Gives.pure rfl
    | some s => exact Gives.bind_any fun _ => Gives.pure rfl
  refine Gives.bind_any fun slot => ?_
  rcases slot with _ | ⟨cache, key, version⟩
  · exact hfresh none
  · refine Gives.bind_any fun hit => ?_
    cases hit with
    | none => exact hfresh _
    | some hit => exact Gives.bind_any fun _ => Gives.bind_any fun _ => Gives.pure rfl

lemma gives_buildGraph (manifest : Manifest) (g : Graph) :
    Gives (c.buildGraph manifest g) fun b => b.frozen = Frozen.ofGraph c.settings.base g := by
  refine (gives_atBench (gives_onHost (Frozen.gives_freeze _ g))).bind fun frozen hfrozen => ?_
  refine Gives.bind_any fun _ => Gives.bind_any fun o => ?_
  rw [← hfrozen]
  exact c.gives_fetch o frozen _

lemma gives_finish (project : Path) (manifest : Manifest) (g : Graph) (built : Built)
    (abi : Abi.Descriptor) : Gives (c.finish project manifest g built abi) fun out =>
      checkAbi g.entry abi built.frozen = .ok () ∧ out.wasm = built.wasm ∧ out.abi = abi ∧
        out.frozenDigest = built.frozen.digest ∧ out.modules = g.names := by
  refine (Gives.ofExcept (Q := fun _ => checkAbi g.entry abi built.frozen = .ok ())
    fun _ h => h).bind fun _ hcheck => ?_
  refine Gives.bind_any fun _ => Gives.bind_any fun _ => Gives.bind_any fun _ =>
    Gives.bind_any fun r => Gives.pure ?_
  exact ⟨hcheck, rfl, rfl, rfl, rfl⟩

end Compiler

/-! ### The first error -/

/-- The run has met no errors so far. -/
def Blameless (r : Run) : Prop := ∀ d ∈ r.warnings, d.isError = false

lemma Blameless.of_eq {r r' : Run} (h : Blameless r) (hr : r'.warnings = r.warnings) :
    Blameless r' := by
  rwa [Blameless, hr]

lemma warnings_atBench {ε α : Type} (wrap : ε → Fault) (act : BenchAttempt ε α) (r : Run) :
    ((atBench wrap act).run r : Except Fault α × Run).2.warnings = r.warnings := by
  change (atBench wrap act r).2.warnings = _
  unfold atBench
  split <;> rfl

lemma warnings_advance (listener : Listener) (next : State) (status : Status) (r : Run) :
    (advance listener next status r : Unit × Run).2.warnings = r.warnings := by
  unfold advance
  cases next.stage <;> rfl

lemma keeps_blameless_graphOf (c : Compiler) (project : Path) (manifest : Manifest) :
    Keeps Blameless (c.graphOf project manifest).run := by
  refine Keeps.bind_ok (fun r hr => hr.of_eq (warnings_atBench _ _ r)) fun res => ?_
  refine Keeps.bind_ok (Keeps.forM_ok (fun w => Keeps.lift fun r hr d hd => ?_) _) fun _ =>
    Keeps.pure_ok _
  rcases List.mem_append.mp hd with hd | hd
  · exact hr d hd
  · rw [List.mem_singleton.mp hd]
    rfl

/-- The first error of a failed run is the first of its faults. -/
lemma errors_fail (listener : Listener) (first : Fault) (more : List Fault) {r : Run}
    (hr : Blameless r) : (fail listener first more r : Failure × Run).1.errors =
      .ofFault first :: more.map .ofFault := by
  have hdiagnostics : (fail listener first more r : Failure × Run).1.diagnostics =
      r.warnings ++ (first :: more).map .ofFault := by
    change (advance listener (.failed first.stage) .failed r : Unit × Run).2.warnings ++ _ = _
    rw [warnings_advance]
  have hnone : r.warnings.filter Diagnostic.isError = [] :=
    List.filter_eq_nil_iff.mpr fun d hd => by simp [hr d hd]
  have hall : ((first :: more).map Diagnostic.ofFault).filter Diagnostic.isError =
      (first :: more).map .ofFault := by
    rw [List.filter_eq_self]
    intro d hd
    obtain ⟨f, -, rfl⟩ := List.mem_map.mp hd
    rfl
  rw [Failure.errors, hdiagnostics, List.filter_append, hnone, hall]
  rfl

/-- A build that finds another source stops there. -/
lemma buildGraph_of_stale (c : Compiler) (manifest : Manifest) {g : Graph} {r : Run}
    {stale : Frozen.Stale} (h : Frozen.firstStale? g.nodes (Frozen.reread Host.files g.nodes
      r.bench.host : List (Except Disk.Fault Bytes) × Host).1 = some stale) :
    ∃ r', (c.buildGraph manifest g).run r = (.error (.staleSource stale), r') ∧
      r'.warnings = r.warnings := by
  have hfreeze := Frozen.run_freeze Host.files c.settings.base g r.bench.host
  rw [h] at hfreeze
  rcases hrun : (Frozen.freeze Host.files c.settings.base g).run r.bench.host with ⟨res, host⟩
  rw [hrun] at hfreeze
  obtain rfl : res = .error stale := hfreeze
  exact ⟨_, run_bind_of_error (run_atBench_of_error (run_onHost hrun)), rfl⟩

/-! ### Calls and what happens meanwhile -/

namespace Call

variable {c : Call}

/-- Follows the imports of the project. -/
def resolving (c : Call) : RunAttempt Fault Graph := do
  let g ← c.compiler.graphOf c.project c.manifest
  advance c.compiler.listener .resolved .completed
  return g

/-- What is not up to a call: what the read for the ABI gives, which may take place at any time
while the project is built, and what becomes of the host before the sources are frozen. -/
structure Meanwhile where
  abiRead : Except Disk.Fault Bytes
  pause : OnHost Unit

/-- The call, if that happens meanwhile. -/
def compileAmid (c : Call) (m : Meanwhile) : InRun (Except Failure Output) := do
  match ← c.resolving.run with
  | .error f => return .error (← fail c.compiler.listener f [])
  | .ok g =>
    atHost m.pause
    let built ← (c.compiler.buildGraph c.manifest g).run
    c.conclude g built (Abi.ofRead g.entry (Compiler.entryPath g) m.abiRead)

def resultAmid (c : Call) (m : Meanwhile) : Except Failure Output :=
  (c.compileAmid m c.before : Except Failure Output × Run).1

/-- The run when the sources are about to be frozen. -/
def paused (m : Meanwhile) (r : Run) : Run := (atHost m.pause r : Unit × Run).2

/-- What is there when the sources are frozen, one file after the other. -/
def rereads (m : Meanwhile) (g : Graph) (r : Run) : List (Except Disk.Fault Bytes) :=
  (Frozen.reread Host.files g.nodes (paused m r).bench.host :
    List (Except Disk.Fault Bytes) × Host).1

lemma resultAmid_of_error {m : Meanwhile} {f : Fault} {r : Run}
    (h : c.resolving.run c.before = (.error f, r)) :
    c.resultAmid m = .error (fail c.compiler.listener f [] r : Failure × Run).1 := by
  rw [resultAmid, compileAmid, state_bind h]
  rfl

lemma resultAmid_of_ok {m : Meanwhile} {g : Graph} {r r' : Run} {built : Except Fault Built}
    (h : c.resolving.run c.before = (.ok g, r))
    (hbuilt : (c.compiler.buildGraph c.manifest g).run (paused m r) = (built, r')) :
    c.resultAmid m = (c.conclude g built
      (Abi.ofRead g.entry (Compiler.entryPath g) m.abiRead) r' : Except Failure Output × Run).1 := by
  have hpause : atHost m.pause r = ((), paused m r) := rfl
  rw [resultAmid, compileAmid, state_bind h]
  dsimp only
  rw [state_bind hpause, state_bind hbuilt]

/-- What the call does by itself: it reads the entry file right after resolving. -/
def ownMeanwhile (c : Call) : Meanwhile :=
  match c.resolving.run c.before with
  | (.ok g, r) => ⟨(Host.files.read (Compiler.entryPath g) r.bench.host :
      Except Disk.Fault Bytes × Host).1, do let _ ← Host.files.read (Compiler.entryPath g)⟩
  | (.error _, _) => ⟨.ok [], pure ()⟩

lemma result_eq_resultAmid (c : Call) : c.result = c.resultAmid c.ownMeanwhile := by
  have hfront : c.front = (do
      let g ← c.resolving
      let abi ← (atHost (Abi.extractFile Host.files g.entry (Compiler.entryPath g)) :
        InRun (Except Abi.Fault Abi.Descriptor))
      return (g, abi)) := by
    simp only [front, resolving, bind_assoc, pure_bind]
  rcases hres : c.resolving.run c.before with ⟨f | g, r⟩
  · have hrun : c.front.run c.before = (.error f, r) := by
      rw [hfront, run_bind_of_error hres]
    rw [resultAmid_of_error hres, result, compile_eq, state_bind hrun]
    rfl
  · have hrun : c.front.run c.before =
        (.ok (g, Abi.ofRead g.entry (Compiler.entryPath g) c.ownMeanwhile.abiRead),
          paused c.ownMeanwhile r) := by
      rw [hfront, run_bind_of_ok hres, Abi.extractFile_eq, ownMeanwhile, hres]
      rfl
    rcases hbuilt : (c.compiler.buildGraph c.manifest g).run (paused c.ownMeanwhile r) with
      ⟨built, r'⟩
    rw [resultAmid_of_ok hres hbuilt, result, compile_eq, state_bind hrun]
    dsimp only
    rw [state_bind hbuilt]

lemma conclude_eq_ok {g : Graph} {built : Except Fault Built}
    {abi : Except Abi.Fault Abi.Descriptor} {r : Run} {out : Output}
    (h : (c.conclude g built abi r : Except Failure Output × Run).1 = .ok out) :
    ∃ b d r', built = .ok b ∧ abi = .ok d ∧
      (c.compiler.finish c.project c.manifest g b d).run r = (.ok out, r') := by
  rcases built with f | b <;> rcases abi with e | d
  · cases h
  · cases h
  · cases h
  · rcases hfinish : (c.compiler.finish c.project c.manifest g b d).run r with ⟨f | out', r'⟩
    · rw [conclude, state_bind hfinish] at h
      cases h
    · rw [conclude, state_bind hfinish] at h
      cases h
      exact ⟨b, d, r', rfl, rfl, hfinish⟩

lemma conclude_of_error {g : Graph} {f : Fault} (abi : Except Abi.Fault Abi.Descriptor) {r : Run}
    (hr : Blameless r) : ∃ failure, (c.conclude g (.error f) abi r : Except Failure Output × Run).1 =
      .error failure ∧ failure.stage = f.stage ∧ failure.errors.head? = some (.ofFault f) := by
  have hhead : ∀ more, (fail c.compiler.listener f more r : Failure × Run).1.errors.head? =
      some (.ofFault f) := by
    intro more
    rw [errors_fail _ _ _ hr]
    rfl
  rcases abi with e | d
  · exact ⟨_, rfl, rfl, hhead [.abi g.entry e]⟩
  · exact ⟨_, rfl, rfl, hhead []⟩

/-! ### One snapshot -/

/-- The byte strings whose digests are compared: the sources, what is there when they are frozen, and
what the ABI is read from. -/
def compared (c : Call) (m : Meanwhile) : List Bytes :=
  match c.resolving.run c.before with
  | (.ok g, r) => g.nodes.map (·.source) ++ (rereads m g r).filterMap Except.toOption ++
      m.abiRead.toOption.toList
  | (.error _, _) => []

lemma gives_resolving : Gives c.resolving fun g => g.IsRead :=
  (Compiler.gives_graphOf _ _ _).bind fun _ hg => Gives.bind_any fun _ => Gives.pure hg

lemma blameless_resolving {g : Graph} {r : Run} (hfresh : c.before.warnings = [])
    (h : c.resolving.run c.before = (.ok g, r)) : Blameless r := by
  have hkeeps : Keeps Blameless c.resolving.run :=
    (keeps_blameless_graphOf _ _ _).bind_ok fun g =>
      Keeps.bind_ok (Keeps.lift fun r hr => hr.of_eq (warnings_advance _ _ _ r)) fun _ =>
        Keeps.pure_ok _
  have hbefore : Blameless c.before := by
    rw [Blameless, hfresh]
    exact fun d hd => nomatch hd
  exact hkeeps.of_eq hbefore h

section Snapshot

variable {m : Meanwhile} {g : Graph} {r : Run} (hsha : CollisionFree (· ∈ c.compared m))
  (hres : c.resolving.run c.before = (.ok g, r))

include hsha hres

omit hsha in
lemma compared_eq : c.compared m = g.nodes.map (·.source) ++
    (rereads m g r).filterMap Except.toOption ++ m.abiRead.toOption.toList := by
  unfold compared
  rw [hres]

lemma firstStale?_rereads : Frozen.firstStale? g.nodes (rereads m g r) =
    ((g.nodes.zip (rereads m g r)).find? fun p => p.2 ≠ .ok p.1.source).map
      fun p => Frozen.staleness p.1 p.2 :=
  Frozen.firstStale?_eq (gives_resolving _ _ _ hres).nodes hsha
    (fun n hn => by simpa [compared_eq hres] using .inl ⟨n, hn, rfl⟩)
    fun bytes hb => by simpa [compared_eq hres] using .inr (.inl ⟨_, hb, rfl⟩)

/-- A build that succeeds has found every source as it was. -/
lemma rereads_of_built {built : Built} {r' : Run}
    (hbuilt : (c.compiler.buildGraph c.manifest g).run (paused m r) = (.ok built, r')) :
    rereads m g r = g.nodes.map fun n => .ok n.source := by
  have hsame : ∀ p ∈ g.nodes.zip (rereads m g r), p.2 = .ok p.1.source := by
    by_contra hne
    obtain ⟨p, hp⟩ : ∃ p, (g.nodes.zip (rereads m g r)).find? (fun p => p.2 ≠ .ok p.1.source) =
        some p := by
      rw [← Option.isSome_iff_exists, List.find?_isSome]
      simpa using hne
    have hstale := firstStale?_rereads hsha hres
    rw [hp] at hstale
    obtain ⟨r'', hrun, -⟩ := buildGraph_of_stale c.compiler c.manifest hstale
    rw [hrun] at hbuilt
    cases hbuilt
  have hlength : (rereads m g r).length = g.nodes.length := Frozen.length_reread _ _
  calc rereads m g r = (g.nodes.zip (rereads m g r)).map (·.2) :=
        (List.map_snd_zip hlength.le).symm
    _ = (g.nodes.zip (rereads m g r)).map fun p => .ok p.1.source := List.map_congr_left hsame
    _ = ((g.nodes.zip (rereads m g r)).map (·.1)).map fun n => .ok n.source := by
        rw [List.map_map]
        rfl
    _ = g.nodes.map fun n => .ok n.source := by rw [List.map_fst_zip hlength.ge]

/-- An ABI that passes the check is that of the frozen entry. -/
lemma abi_of_checkAbi {abi : Abi.Descriptor} {path : Path}
    (habi : Abi.ofRead g.entry path m.abiRead = .ok abi)
    (hcheck : Compiler.checkAbi g.entry abi (Frozen.ofGraph c.compiler.settings.base g) = .ok ()) :
    ∃ entry, (Frozen.ofGraph c.compiler.settings.base g).entryModule? = some entry ∧
      Abi.extractBytes g.entry entry.content entry.digest = .ok abi := by
  have hg := gives_resolving _ _ _ hres
  obtain ⟨n, hn⟩ := hg.entry
  have hmem : n ∈ g.nodes := List.mem_of_find?_eq_some hn
  have hentry := Frozen.entryModule?_ofGraph c.compiler.settings.base g
  rw [hn] at hentry
  refine ⟨Frozen.ofNode n, hentry, ?_⟩
  rcases hread : m.abiRead with f | bytes
  · rw [hread] at habi
    cases habi
  rw [hread, Abi.ofRead] at habi
  have hsource : sha256Hex bytes = n.digest := by
    rw [← Abi.source_of_extractBytes habi]
    unfold Compiler.checkAbi at hcheck
    rw [hentry] at hcheck
    dsimp only [Option.map_some, Option.getD_some, Frozen.ofNode] at hcheck
    by_contra hne
    rw [if_neg hne] at hcheck
    cases hcheck
  have hdigest : sha256Hex bytes = sha256Hex n.source := by
    rw [hsource, (hg.nodes n hmem).digest]
  have hbytes : bytes = n.source := by
    refine hsha _ _ ?_ ?_ hdigest
    · simp [compared_eq hres, hread, Except.toOption]
    · simpa [compared_eq hres] using .inl ⟨n, hmem, rfl⟩
  rw [← habi, hsource, hbytes]
  rfl

end Snapshot

/-- **Sources are not mixed.** Whatever others do between two reads and whatever the read for the
ABI gives, as it does in the call by itself (`result_eq_resultAmid`): if the call succeeds, every
file was frozen with the content whose imports had been followed, the frozen modules are those of the
graph in the order of discovery, and the ABI is that of the frozen entry. If a file has other content
when it is frozen, the call fails, and its first error names the first such module. -/
theorem sources_are_not_mixed (hfresh : c.before.warnings = []) (m : Meanwhile)
    (hsha : CollisionFree (· ∈ c.compared m)) :
    (∀ out, c.resultAmid m = .ok out → ∃ g r built r',
      c.resolving.run c.before = (.ok g, r) ∧ (∀ n ∈ g.nodes, n.IsRead) ∧
      rereads m g r = g.nodes.map (fun n => .ok n.source) ∧
      (c.compiler.buildGraph c.manifest g).run (paused m r) = (.ok built, r') ∧
      built.frozen = ⟨g.entry, g.nodes.map Frozen.ofNode, c.compiler.settings.base⟩ ∧
      out.wasm = built.wasm ∧ out.frozenDigest = built.frozen.digest ∧ out.modules = g.names ∧
      ∃ entry, built.frozen.entryModule? = some entry ∧
        Abi.extractBytes g.entry entry.content entry.digest = .ok out.abi) ∧
    ∀ g r n read, c.resolving.run c.before = (.ok g, r) →
      (g.nodes.zip (rereads m g r)).find? (fun p => p.2 ≠ .ok p.1.source) = some (n, read) →
      ∃ f, c.resultAmid m = .error f ∧ f.stage = .freeze ∧
        f.errors.head? = some (.ofFault (.staleSource (Frozen.staleness n read))) := by
  constructor
  · intro out hout
    rcases hres : c.resolving.run c.before with ⟨f | g, r⟩
    · rw [resultAmid_of_error hres] at hout
      cases hout
    rcases hbuilt : (c.compiler.buildGraph c.manifest g).run (paused m r) with ⟨built, r'⟩
    rw [resultAmid_of_ok hres hbuilt] at hout
    obtain ⟨b, abi, r'', rfl, habi, hfinish⟩ := conclude_eq_ok hout
    obtain ⟨hcheck, hwasm, rfl, hdigest, hmodules⟩ := Compiler.gives_finish _ _ _ _ _ _ _ _ _ hfinish
    have hfrozen := Compiler.gives_buildGraph _ _ _ _ _ _ hbuilt
    rw [hfrozen] at hcheck
    refine ⟨g, r, b, r', rfl, (gives_resolving _ _ _ hres).nodes, rereads_of_built hsha hres hbuilt,
      hbuilt, hfrozen, hwasm, hdigest, hmodules, ?_⟩
    rw [hfrozen]
    exact abi_of_checkAbi hsha hres habi hcheck
  · intro g r n read hres hfirst
    have hstale := firstStale?_rereads hsha hres
    rw [hfirst] at hstale
    obtain ⟨r', hbuilt, hwarnings⟩ :=
      buildGraph_of_stale c.compiler c.manifest hstale
    have hblameless : Blameless r' := (blameless_resolving hfresh hres).of_eq hwarnings
    rw [resultAmid_of_ok hres hbuilt]
    exact conclude_of_error _ hblameless

end Call

/-! ### A module that is edited while it is compiled -/

/-- Somebody adds a line to the module right before it is frozen. -/
def editedCall : Call := smallCall false
  { tree := smallTree
    change := fun n t => if n = 4 then t.put ["p", "m.py"] (.file [10] false) else t }

lemma collisionFree_pair {a b : Bytes} (h : sha256Hex a ≠ sha256Hex b) :
    CollisionFree (· ∈ [a, b]) := by
  intro x y hx hy hxy
  rcases List.mem_pair.mp hx with rfl | rfl <;> rcases List.mem_pair.mp hy with rfl | rfl
  · rfl
  · exact absurd hxy h
  · exact absurd hxy.symm h
  · rfl

lemma collisionFree_editedCall :
    CollisionFree (· ∈ editedCall.compared editedCall.ownMeanwhile) := by
  have hsub : ∀ x : Bytes, x ∈ [[], [10], []] → x ∈ [[], [10]] := by
    simp only [List.mem_cons, List.not_mem_nil, or_false]
    tauto
  have hcompared : editedCall.compared editedCall.ownMeanwhile = [[], [10], []] := by
    decide +kernel
  have hne : sha256Hex [] ≠ sha256Hex [10] := by decide +kernel
  rw [hcompared]
  exact fun x y hx hy => collisionFree_pair hne x y (hsub x hx) (hsub y hy)

lemma exists_edit : ∃ g r n read, editedCall.resolving.run editedCall.before = (.ok g, r) ∧
    n.name = "m" ∧ (g.nodes.zip (Call.rereads editedCall.ownMeanwhile g r)).find?
      (fun p => p.2 ≠ .ok p.1.source) = some (n, read) := by
  have hfirst : (match editedCall.resolving.run editedCall.before with
      | (.ok g, r) => ((g.nodes.zip (Call.rereads editedCall.ownMeanwhile g r)).find?
        fun p => p.2 ≠ .ok p.1.source).map (·.1.name)
      | (.error _, _) => none) = some "m" := by decide +kernel
  generalize hres : editedCall.resolving.run editedCall.before = p at hfirst
  obtain ⟨f | g, r⟩ := p
  · cases hfirst
  · obtain ⟨⟨n, read⟩, hp, hname⟩ := Option.map_eq_some_iff.mp hfirst
    exact ⟨g, r, n, read, rfl, hname, hp⟩

/-- The same without the edit. -/
def uneditedCall : Call := smallCall false { tree := smallTree }

theorem sources_of_editedCall_are_not_mixed :
    (∃ (out : Output) (g : Graph) (frozen : Frozen) (entry : Frozen.Module),
      uneditedCall.result = .ok out ∧
      frozen = ⟨g.entry, g.nodes.map Frozen.ofNode, uneditedCall.compiler.settings.base⟩ ∧
      out.frozenDigest = frozen.digest ∧ out.modules = g.names ∧
      frozen.entryModule? = some entry ∧
      Abi.extractBytes g.entry entry.content entry.digest = .ok out.abi) ∧
    ∃ (f : Failure) (n : Graph.Node) (read : Except Disk.Fault Bytes),
      editedCall.result = .error f ∧ n.name = "m" ∧
      f.errors.head? = some (.ofFault (.staleSource (Frozen.staleness n read))) := by
  constructor
  · have hcompared : uneditedCall.compared uneditedCall.ownMeanwhile = [[], [], []] := by
      decide +kernel
    have hsha : CollisionFree (· ∈ uneditedCall.compared uneditedCall.ownMeanwhile) := by
      rw [hcompared]
      intro x y hx hy _
      simp_all
    obtain ⟨out, hout⟩ : ∃ out, uneditedCall.result = .ok out := result_smallCall
    have hamid := hout
    rw [Call.result_eq_resultAmid] at hamid
    obtain ⟨g, r, built, r', -, -, -, -, hfrozen, -, hdigest, hmodules, entry, hentry, habi⟩ :=
      (Call.sources_are_not_mixed (c := uneditedCall) rfl _ hsha).1 out hamid
    exact ⟨out, g, built.frozen, entry, hout, hfrozen, hdigest, hmodules, hentry, habi⟩
  · obtain ⟨g, r, n, read, hres, hname, hp⟩ := exists_edit
    have hfails := (Call.sources_are_not_mixed (c := editedCall) rfl _
      collisionFree_editedCall).2 g r n read hres hp
    rw [← Call.result_eq_resultAmid] at hfails
    obtain ⟨f, hf, -, hhead⟩ := hfails
    exact ⟨f, n, read, hf, hname, hhead⟩

end Build

end ContractBuild

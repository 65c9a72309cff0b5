import Mathlib
import ContractBuild.Build.Compile
import ContractBuild.Proofs.Cache.Store
import ContractBuild.Proofs.Frozen.Freeze

/-!
Calls of a compiler: the moments of a call, what is relied on at each of them, and what holds at all
of them. The programs that a call runs are known only by what is relied on.
-/

namespace ContractBuild.Build

open ContractBuild.Disk ContractBuild.Host

/-- What a toolchain of some version makes of a project, and what an optimizer of some fingerprint
makes of a binary. -/
structure Recipe where
  build : Frozen → BuildFlags → String → Bytes
  optimize : String → Mode → Bool → Bytes → Bytes

namespace Recipe

def raw (R : Recipe) (i : Cache.Inputs) : Bytes := R.build i.frozen i.flags i.toolchain

def output (R : Recipe) (i : Cache.Inputs) : Bytes :=
  R.optimize i.optimizer i.flags.mode i.flags.debugSymbols (R.raw i)

/-- The outputs of the recipe, for some inputs. -/
def ledger (R : Recipe) (used : Cache.Inputs → Prop) : Cache.Ledger := ⟨R.raw, R.output, used⟩

end Recipe

/-- A project that is compiled, by what and when. -/
structure Call where
  compiler : Compiler
  project : Path
  manifest : Manifest
  /-- The version of the toolchain during the call. -/
  version : String
  before : Run

namespace Call

def result (c : Call) : Except Failure Output :=
  (c.compiler.compile c.project c.manifest c.before : Except Failure Output × Run).1

def after (c : Call) : Run :=
  (c.compiler.compile c.project c.manifest c.before : Except Failure Output × Run).2

def flags (c : Call) : BuildFlags := c.compiler.flagsOf c.manifest

def cache (c : Call) : Cache := ⟨c.compiler.settings.cacheDir⟩

/-- The paths that the call publishes to. -/
def outputs (c : Call) : List Path :=
  [c.project.join c.manifest.output, c.project.join c.manifest.abiOutput]

/-- Where relative paths start during the call. -/
def start (c : Call) : Place := c.before.bench.host.tree.start

def findOptimizer (c : Call) : BenchAttempt Wasm.Fault Wasm.Optimizer :=
  optimizer c.compiler.parser c.compiler.settings.optimizer c.compiler.settings.limit

/-! ### Moments -/

/-- The states of the bench during a call, and more: it may do its work in any order. -/
inductive Moment (c : Call) : Bench → Prop where
  | start : Moment c c.before.bench
  | look {b : Bench} {α : Type} (look : Tree → Except Disk.Fault α) (h : Moment c b) :
      Moment c { b with host := ((inspect look).run b.host : Except Disk.Fault α × Host).2 }
  | tell {b : Bench} (stage : Stage) (status : Status) (h : Moment c b) :
      Moment c { b with host := (c.compiler.listener stage status b.host : Unit × Host).2 }
  | version {b : Bench} (h : Moment c b) :
      Moment c (c.compiler.builder.version.run b : Except Native.Fault String × Bench).2
  | build {b : Bench} (frozen : Frozen) (h : Moment c b) :
      Moment c ((c.compiler.builder.build frozen c.flags).run b :
        Except Native.Fault Bytes × Bench).2
  | detect {b : Bench} (h : Moment c b) :
      Moment c (c.findOptimizer.run b : Except Wasm.Fault Wasm.Optimizer × Bench).2
  | optimize {b b₀ b₁ : Bench} {o : Wasm.Optimizer} (raw : Bytes) (h₀ : Moment c b₀)
      (ho : c.findOptimizer.run b₀ = (.ok o, b₁)) (h : Moment c b) :
      Moment c { b with host := ((o.optimize c.flags.mode c.flags.debugSymbols raw).run b.host :
        Except Wasm.Fault Bytes × Host).2 }
  | store {b : Bench} (key : String) (a : Cache.Artifact) (h : Moment c b) :
      Moment c { b with host := ((c.cache.store key a).run b.host :
        Except Cache.Fault Cache.Entry × Host).2 }
  | emit {b : Bench} (contents : List Bytes) (h : Moment c b) :
      Moment c { b with host := ((publishAll (c.outputs.zip contents)).run b.host :
        Except PublishFault Unit × Host).2 }

/-- An optimizer that the call may have found. -/
def Finds (c : Call) (o : Wasm.Optimizer) : Prop :=
  ∃ b b', c.Moment b ∧ c.findOptimizer.run b = (.ok o, b')

/-! ### What is relied on -/

/-- The toolchain keeps its version, and it and the optimizer follow the recipe. -/
structure Follows (c : Call) (R : Recipe) : Prop where
  version : ∀ b v b', c.Moment b → c.compiler.builder.version.run b = (.ok v, b') → v = c.version
  build : ∀ b frozen raw b', c.Moment b →
    (c.compiler.builder.build frozen c.flags).run b = (.ok raw, b') →
      raw = R.build frozen c.flags c.version
  optimize : ∀ b o raw wasm h', c.Moment b → c.Finds o →
    (o.optimize c.flags.mode c.flags.debugSymbols raw).run b.host = (.ok wasm, h') →
      wasm = R.optimize o.fingerprint c.flags.mode c.flags.debugSymbols raw

/-- The call caches in a directory that nothing else adds files to: neither others nor the programs
and listeners of the call, and the call publishes elsewhere. -/
structure Respects (c : Call) (dir : Place) : Prop where
  cacheDir : c.cache.dir.destination c.start = dir
  others : ∀ b, c.Moment b → ∀ n t, Tree.Spares dir t (b.host.change n t)
  listener : ∀ b stage status, c.Moment b → Tree.Spares dir b.host.tree
    (c.compiler.listener stage status b.host : Unit × Host).2.tree
  version : ∀ b, c.Moment b → Tree.Spares dir b.host.tree
    (c.compiler.builder.version.run b : Except Native.Fault String × Bench).2.host.tree
  build : ∀ b frozen, c.Moment b → Tree.Spares dir b.host.tree
    ((c.compiler.builder.build frozen c.flags).run b :
        Except Native.Fault Bytes × Bench).2.host.tree
  detect : ∀ b, c.Moment b → Tree.Spares dir b.host.tree
    (c.findOptimizer.run b : Except Wasm.Fault Wasm.Optimizer × Bench).2.host.tree
  optimize : ∀ b o raw, c.Moment b → c.Finds o → Tree.Spares dir b.host.tree
    ((o.optimize c.flags.mode c.flags.debugSymbols raw).run b.host :
      Except Wasm.Fault Bytes × Host).2.tree
  outputs : ∀ p ∈ c.outputs, ¬ dir <+: (p.destination c.start).dropLast

/-! ### Order -/

/-- A moment of a call at which the cache holds only what builds have left there. -/
structure Orderly (c : Call) (dir : Place) (L : Cache.Ledger) (b : Bench) : Prop where
  moment : c.Moment b
  tended : Tended dir L.Admits c.start b.host.tree

variable {c : Call} {dir : Place} {L : Cache.Ledger}

lemma Orderly.clean (hr : c.Respects dir) {b : Bench} (h : c.Orderly dir L b) :
    Cache.Clean dir L c.start b.host :=
  ⟨hr.others b h.moment, h.tended⟩

/-- Work of the call itself that leaves the cache clean. -/
lemma keeps_orderly (hr : c.Respects dir) {α : Type} {act : OnHost α}
    (hmoment : ∀ b, c.Moment b → c.Moment { b with host := (act b.host : α × Host).2 })
    (hclean : Keeps (Cache.Clean dir L c.start) act) (tools : Tools) :
    Keeps (fun h => c.Orderly dir L ⟨h, tools⟩) act := fun h hh =>
  ⟨hmoment _ hh.moment, (hclean h (hh.clean hr)).tree⟩

lemma quiet_orderly (hr : c.Respects dir) (tools : Tools) :
    Quiet fun h => c.Orderly dir L ⟨h, tools⟩ := fun α look =>
  keeps_orderly hr (fun _ => .look look) (quiet_calm stable_tended α look) tools

lemma isFree_outputs (hr : c.Respects dir) {p : Path} (hp : p ∈ c.outputs) :
    IsFree dir L.Admits c.start p := by
  intro content name rest hdest
  refine absurd ?_ (hr.outputs p hp)
  rw [hdest, List.dropLast_append_of_ne_nil (by simp)]
  exact List.prefix_append _ _

lemma keeps_tell (hr : c.Respects dir) (stage : Stage) (status : Status) (tools : Tools) :
    Keeps (fun h => c.Orderly dir L ⟨h, tools⟩) (c.compiler.listener stage status) := fun _ hh =>
  ⟨.tell stage status hh.moment, hh.tended.spares (hr.listener _ stage status hh.moment)⟩

lemma keeps_version (hr : c.Respects dir) :
    Keeps (c.Orderly dir L) c.compiler.builder.version.run := fun _ hh =>
  ⟨.version hh.moment, hh.tended.spares (hr.version _ hh.moment)⟩

lemma keeps_build (hr : c.Respects dir) (frozen : Frozen) :
    Keeps (c.Orderly dir L) (c.compiler.builder.build frozen c.flags).run := fun _ hh =>
  ⟨.build frozen hh.moment, hh.tended.spares (hr.build _ frozen hh.moment)⟩

lemma keeps_findOptimizer (hr : c.Respects dir) :
    Keeps (c.Orderly dir L) c.findOptimizer.run := fun _ hh =>
  ⟨.detect hh.moment, hh.tended.spares (hr.detect _ hh.moment)⟩

lemma keeps_optimize (hr : c.Respects dir) {o : Wasm.Optimizer} (ho : c.Finds o) (raw : Bytes)
    (tools : Tools) : Keeps (fun h => c.Orderly dir L ⟨h, tools⟩)
      (o.optimize c.flags.mode c.flags.debugSymbols raw).run := by
  intro h hh
  obtain ⟨b, b', hb, hfind⟩ := ho
  exact ⟨.optimize raw hb hfind hh.moment,
    hh.tended.spares (hr.optimize _ o raw hh.moment ⟨b, b', hb, hfind⟩)⟩

lemma keeps_store (hr : c.Respects dir) {i : Cache.Inputs} (hi : L.used i) (mode : Mode)
    (toolchain : String) (tools : Tools) : Keeps (fun h => c.Orderly dir L ⟨h, tools⟩)
      (c.cache.store i.key ⟨L.raw i, L.optimized i, mode, toolchain⟩).run :=
  keeps_orderly hr (fun _ => .store _ _) (Cache.keeps_store hr.cacheDir hi mode toolchain) tools

lemma keeps_emit (hr : c.Respects dir) (contents : List Bytes) (tools : Tools) :
    Keeps (fun h => c.Orderly dir L ⟨h, tools⟩) (publishAll (c.outputs.zip contents)).run :=
  keeps_orderly hr (fun _ => .emit contents)
    (keeps_publishAll L.hides fun _ hf => isFree_outputs hr (List.of_mem_zip hf).1) tools

/-- The cache is in order, and what was found in it is the output of the inputs. -/
def Hits (c : Call) (dir : Place) (L : Cache.Ledger) (i : Cache.Inputs)
    (found : Option Cache.Artifact) (b : Bench) : Prop :=
  c.Orderly dir L b ∧ ∀ a, found = some a → a.optimized = L.optimized i

lemma ensures_lookup (hr : c.Respects dir) (hL : L.IsCollisionFree) {i : Cache.Inputs}
    (hi : L.used i) (tools : Tools) : Ensures (fun h => c.Orderly dir L ⟨h, tools⟩)
      (c.cache.lookup i.key) fun found h => c.Hits dir L i found ⟨h, tools⟩ := fun h hh =>
  ⟨Cache.keeps_lookup (quiet_orderly hr tools) _ h hh,
    (Cache.ensures_lookup hr.cacheDir hL hi h (hh.clean hr)).2⟩

end Call

end ContractBuild.Build

import Mathlib
import ContractBuild.Proofs.Build.Compile

/-!
Calls with fixed tools: the toolchain always gives the same binary, there is no external optimizer,
nobody listens and nobody else changes files. Such a call follows a recipe, and it respects every
cache directory that it does not publish to.
-/

namespace ContractBuild.Build

open ContractBuild.Digest ContractBuild.Disk ContractBuild.Host

namespace Call

/-- A toolchain that always gives the same binary, no external optimizer, nobody who listens and
nobody else who changes files. -/
structure HasFixedTools (c : Call) (raw : Bytes) : Prop where
  listener : c.compiler.listener = .silent
  version : c.compiler.builder.version = pure c.version
  build : ∀ frozen flags, c.compiler.builder.build frozen flags = pure raw
  optimizer : c.compiler.settings.optimizer = .disabled
  mode : c.flags.mode = .debug
  tools : c.before.bench.tools.optimizer = none
  others : ∀ n t, c.before.bench.host.change n t = t

/-- What fixed tools make. -/
def fixedRecipe (raw : Bytes) : Recipe where
  build _ _ _ := raw
  optimize _ _ _ raw := raw

variable {c : Call} {raw : Bytes}

/-- The passes alone, without any external optimizer. -/
def alone (c : Call) : Wasm.Optimizer := { parser := c.compiler.parser }

/-- Without an external tool, nothing but the input is checked before it is given back. -/
lemma optimize_debug (keepDebug : Bool) (binary : Bytes) (h : Host) :
    ((c.alone.optimize .debug keepDebug binary).run h : Except Wasm.Fault Bytes × Host) =
      ((c.compiler.parser.checkInput binary).map fun _ => binary, h) := by
  change ((liftM (c.compiler.parser.checkInput binary) >>= fun _ => pure binary :
    Attempt Wasm.Fault Bytes)).run h = _
  cases c.compiler.parser.checkInput binary with
  | ok u => rfl
  | error f => rfl

lemma HasFixedTools.findOptimizer (hc : c.HasFixedTools raw) {b : Bench}
    (hb : ∀ o ∈ b.tools.optimizer, o = c.alone) :
    c.findOptimizer.run b = (.ok c.alone,
      { b with tools := { b.tools with optimizer := some c.alone } }) := by
  obtain ⟨host, toolchain, optimizer⟩ := b
  unfold Call.findOptimizer Build.optimizer
  rw [hc.optimizer]
  cases optimizer with
  | none => rfl
  | some o =>
    obtain rfl := hb o rfl
    rfl

/-- At every moment only the call changes files, and no external optimizer has been found. -/
lemma HasFixedTools.calm (hc : c.HasFixedTools raw) (dir : Place) {b : Bench} (h : c.Moment b) :
    Calm dir (Tended dir (fun _ _ => True) c.start) b.host ∧
      ∀ o ∈ b.tools.optimizer, o = c.alone := by
  have hfree : ∀ p, IsFree dir (fun _ _ => True) c.start p := fun _ _ _ _ _ => trivial
  have hhides : Hides fun _ _ => True := fun _ _ _ _ => trivial
  induction h with
  | start =>
    refine ⟨⟨fun n t => ?_, fun _ _ _ _ _ => trivial, rfl⟩, fun o ho => ?_⟩
    · rw [hc.others]
      exact Tree.Spares.refl dir t
    · rw [hc.tools] at ho
      cases ho
  | look look _ ih => exact ⟨quiet_calm stable_tended _ look _ ih.1, ih.2⟩
  | tell stage status _ ih =>
    rw [hc.listener]
    exact ih
  | version _ ih =>
    rw [hc.version]
    exact ih
  | build frozen _ ih =>
    rw [hc.build]
    exact ih
  | detect _ ih =>
    rw [hc.findOptimizer ih.2]
    exact ⟨ih.1, fun o ho => (Option.some.inj ho).symm⟩
  | @optimize b b₀ b₁ o binary _ ho _ ih₀ ih =>
    rw [hc.findOptimizer ih₀.2] at ho
    cases ho
    rw [hc.mode, optimize_debug]
    exact ih
  | store key a _ ih =>
    have hstore : Keeps (Calm dir (Tended dir (fun _ _ => True) c.start)) (c.cache.store key a).run :=
      Cache.keeps_tended_store hhides (hfree _ _) (hfree _ _) fun _ => hfree _ _
    -- what storing does in detail is of no interest here
    generalize (c.cache.store key a).run = act at hstore ⊢
    exact ⟨hstore _ ih.1, ih.2⟩
  | emit contents _ ih =>
    have hemit : Keeps (Calm dir (Tended dir (fun _ _ => True) c.start))
        (publishAll (c.outputs.zip contents)).run := keeps_publishAll hhides fun f _ => hfree f.1
    exact ⟨hemit _ ih.1, ih.2⟩

/-- At every moment others and refusals are as they were at first. -/
lemma HasFixedTools.surroundings (hc : c.HasFixedTools raw) {b : Bench} (h : c.Moment b) :
    b.host.change = c.before.bench.host.change ∧ b.host.refuse = c.before.bench.host.refuse := by
  have hlasting : Lasting fun h => h.change = c.before.bench.host.change ∧
      h.refuse = c.before.bench.host.refuse := lasting_surroundings fun change refuse =>
    change = c.before.bench.host.change ∧ refuse = c.before.bench.host.refuse
  induction h with
  | start => exact ⟨rfl, rfl⟩
  | look look _ ih => exact hlasting.step _ _ _ _ ih
  | tell stage status _ ih =>
    rw [hc.listener]
    exact ih
  | version _ ih =>
    rw [hc.version]
    exact ih
  | build frozen _ ih =>
    rw [hc.build]
    exact ih
  | detect hb ih =>
    rw [hc.findOptimizer (hc.calm [] hb).2]
    exact ih
  | optimize binary h₀ ho _ _ ih =>
    rw [hc.findOptimizer (hc.calm [] h₀).2] at ho
    cases ho
    rw [hc.mode, optimize_debug]
    exact ih
  | store key a _ ih =>
    have hpublish : ∀ target content, Keeps _ (publish target content).run :=
      fun target => (hlasting.withstands target).publish
    have hstore : Keeps _ (c.cache.store key a).run :=
      Cache.keeps_store_of (hpublish _ _) (hpublish _ _) fun _ => hpublish _ _
    generalize (c.cache.store key a).run = act at hstore ⊢
    exact hstore _ ih
  | emit contents _ ih => exact hlasting.publishAll _ _ ih

lemma HasFixedTools.finds (hc : c.HasFixedTools raw) {o : Wasm.Optimizer} (h : c.Finds o) :
    o = c.alone := by
  obtain ⟨b, b', hb, hfind⟩ := h
  rw [hc.findOptimizer (hc.calm [] hb).2] at hfind
  cases hfind
  rfl

lemma HasFixedTools.follows (hc : c.HasFixedTools raw) : c.Follows (fixedRecipe raw) where
  version b v b' _ hrun := by
    rw [hc.version] at hrun
    cases hrun
    rfl
  build b frozen raw' b' _ hrun := by
    rw [hc.build] at hrun
    cases hrun
    rfl
  optimize b o binary wasm h' _ ho hrun := by
    obtain rfl := hc.finds ho
    rw [hc.mode, optimize_debug] at hrun
    cases hcheck : c.compiler.parser.checkInput binary with
    | ok u =>
      rw [hcheck] at hrun
      cases hrun
      rfl
    | error f =>
      rw [hcheck] at hrun
      cases hrun

lemma HasFixedTools.respects (hc : c.HasFixedTools raw) {dir : Place}
    (hdir : c.cache.dir.destination c.start = dir)
    (hout : ∀ p ∈ c.outputs, ¬ dir <+: (p.destination c.start).dropLast) : c.Respects dir where
  cacheDir := hdir
  others b hb := (hc.calm dir hb).1.others
  listener b stage status _ := by
    rw [hc.listener]
    exact Tree.Spares.refl dir _
  version b _ := by
    rw [hc.version]
    exact Tree.Spares.refl dir _
  build b frozen _ := by
    rw [hc.build]
    exact Tree.Spares.refl dir _
  detect b hb := by
    rw [hc.findOptimizer (hc.calm dir hb).2]
    exact Tree.Spares.refl dir _
  optimize b o binary _ ho := by
    obtain rfl := hc.finds ho
    rw [hc.mode, optimize_debug]
    exact Tree.Spares.refl dir _
  outputs := hout

/-- What the gathered project and optimizer make, if they are gathered at all, is all that the call
uses. -/
lemma forall_uses {P : Cache.Inputs → Prop}
    (h : ∀ p, (c.gather.run c.before : Except Fault (Frozen × Wasm.Optimizer) × Run).1 = .ok p →
      P (c.inputs p.1 p.2)) : ∀ i, c.Uses i → P i := by
  rintro i ⟨frozen, o, r, hrun, rfl⟩
  exact h (frozen, o) (by rw [hrun])

end Call

/-! ### A small call -/

/-- A project with one module, in which there is nothing. -/
def smallTree : Tree where
  nodes := [(["p"], .directory), (["p", "m.py"], .file [] false)]

def smallManifest : Manifest where
  entry := ⟨"m.py"⟩
  sourceRoots := [⟨""⟩]
  packageRoots := []
  exclude := []
  optimize := .debug
  output := ⟨"m.wasm"⟩
  abiOutput := ⟨"m.abi.json"⟩
  pins := []
  debugInfo := false

/-- A binary with nothing in it. -/
def emptyModule : Bytes := [0, 97, 115, 109, 1, 0, 0, 0]

/-- A compiler whose toolchain always builds the empty binary. -/
def smallCompiler (useCache : Bool) : Compiler where
  settings := {
    scratch := ⟨"/w"⟩
    cacheDir := ⟨"/c"⟩
    useCache
    optimizer := .disabled
    base := ⟨"", "", []⟩ }
  builder := { version := pure "", build := fun _ _ => pure emptyModule }

/-- The small project compiled on a host. -/
def smallCall (useCache : Bool) (host : Host) : Call where
  compiler := smallCompiler useCache
  project := ⟨"/p"⟩
  manifest := smallManifest
  version := ""
  before := { bench := { host } }

lemma hasFixedTools_smallCall (useCache : Bool) {host : Host} (h : ∀ n t, host.change n t = t) :
    (smallCall useCache host).HasFixedTools emptyModule where
  listener := rfl
  version := rfl
  build _ _ := rfl
  optimizer := rfl
  mode := rfl
  tools := rfl
  others := h

/-- Where no step is refused, the small project is compiled. -/
lemma result_smallCall : ∃ out, (smallCall false { tree := smallTree }).result = .ok out := by
  have hok : (smallCall false { tree := smallTree }).result.toOption.isSome = true := by
    decide +kernel
  obtain ⟨out, hout⟩ := Option.isSome_iff_exists.mp hok
  exact ⟨out, toOption_eq_some.mp hout⟩

end ContractBuild.Build

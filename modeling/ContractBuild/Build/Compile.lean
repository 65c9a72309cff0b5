import ContractBuild.Abi.Extract
import ContractBuild.Build.Run
import ContractBuild.Cache.Key
import ContractBuild.Cache.Store
import ContractBuild.Frozen.Freeze
import ContractBuild.Graph.Resolve

/-!
Compiling a project: resolve its modules, freeze them, build and optimize the binary or take it from
the cache, extract the ABI, and publish both.

The ABI is read from the entry file on its own, beside the build; it has to be of the source that was
frozen.
-/

namespace ContractBuild.Build

open ContractBuild.Host

structure Settings where
  /-- The directory in which workspaces are made. -/
  scratch : Path
  cacheDir : Path
  /-- How long a tool may run, in milliseconds. -/
  limit : Nat := 300000
  useCache : Bool := true
  extraArgs : List String := []
  optimizer : Wasm.Setting := .auto
  base : BaseLibrary := .standard

structure Compiler where
  settings : Settings
  builder : Builder
  /-- What the optimizer reads binaries with. -/
  parser : Wasm.Parser := .standard
  listener : Listener := .silent

/-- What a successful run gives. -/
structure Output where
  wasm : Bytes
  abi : Abi.Descriptor
  wasmPath : Path
  abiPath : Path
  fromCache : Bool
  cacheKey : Option String
  /-- The digest of the frozen modules. -/
  frozenDigest : String
  modules : List String
  diagnostics : List Diagnostic

/-- The binary of a project and what it was made from. -/
structure Built where
  frozen : Frozen
  wasm : Bytes
  fromCache : Bool
  cacheKey : Option String

namespace Compiler

def cache? (c : Compiler) : Option Cache :=
  if c.settings.useCache then some ⟨c.settings.cacheDir⟩ else none

/-- Resolves the project and keeps the warnings. -/
def graphOf (c : Compiler) (project : Path) (manifest : Manifest) : RunAttempt Fault Graph := do
  let resolved ← atBench Fault.resolution
    (onHost (Graph.resolve Host.files project manifest c.settings.base))
  resolved.warnings.forM fun w => warn (.ofWarning w)
  return resolved.graph

def flagsOf (c : Compiler) (manifest : Manifest) : BuildFlags :=
  ⟨manifest.optimize, manifest.debugInfo, c.settings.extraArgs⟩

/-- The cache with the key and the toolchain version of a build, if there is a cache. -/
def cacheSlot (c : Compiler) (o : Wasm.Optimizer) (frozen : Frozen) (flags : BuildFlags) :
    RunAttempt Fault (Option (Cache × String × String)) := do
  match c.cache? with
  | none => return none
  | some cache =>
    let version ← atBench Fault.native c.builder.version
    return some (cache, Cache.keyOf frozen flags version o.fingerprint, version)

/-- Stores a build. A failure is only a warning. -/
def storeBuild (cache : Cache) (key : String) (a : Cache.Artifact) : InRun Unit := do
  match ← atHost (cache.store key a).run with
  | .ok _ => return
  | .error f => warn (.warning .cache s!"build was not cached: {f.message}")

/-- Builds and optimizes a frozen project. -/
def buildFresh (c : Compiler) (o : Wasm.Optimizer) (frozen : Frozen) (flags : BuildFlags)
    (slot : Option (Cache × String × String)) : RunAttempt Fault Built := do
  let raw ← atBench Fault.native (c.builder.build frozen flags)
  advance c.listener (.built false) .completed
  let wasm ← atBench Fault.optimization
    (onHost (o.optimize flags.mode flags.debugSymbols raw))
  advance c.listener .optimized .completed
  match slot with
  | none => return ⟨frozen, wasm, false, none⟩
  | some (cache, key, version) =>
    storeBuild cache key ⟨raw, wasm, flags.mode, version⟩
    return ⟨frozen, wasm, false, some key⟩

/-- Takes the binary of a frozen project from the cache, or makes it. -/
def fetch (c : Compiler) (o : Wasm.Optimizer) (frozen : Frozen) (flags : BuildFlags) :
    RunAttempt Fault Built := do
  let slot ← c.cacheSlot o frozen flags
  match slot with
  | none => c.buildFresh o frozen flags slot
  | some (cache, key, _) =>
    match ← (atHost (cache.lookup key) : InRun (Option Cache.Artifact)) with
    | none => c.buildFresh o frozen flags slot
    | some hit =>
      advance c.listener (.built true) .cached
      advance c.listener .optimized .cached
      return ⟨frozen, hit.optimized, true, some key⟩

/-- Freezes the graph and gets its binary. -/
def buildGraph (c : Compiler) (manifest : Manifest) (g : Graph) : RunAttempt Fault Built := do
  let frozen ← atBench Fault.staleSource
    (onHost (Frozen.freeze Host.files c.settings.base g))
  advance c.listener .frozen .completed
  let o ← atBench Fault.optimization (optimizer c.parser c.settings.optimizer c.settings.limit)
  c.fetch o frozen (c.flagsOf manifest)

/-- The ABI has to describe the source that was frozen. -/
def checkAbi (module : String) (abi : Abi.Descriptor) (frozen : Frozen) : Except Fault Unit :=
  let digest := (frozen.entryModule?.map (·.digest)).getD ""
  if abi.source = digest then .ok () else .error (.staleAbi module abi.source digest)

/-- Publishes the binary and the ABI together. -/
def emit (wasmPath abiPath : Path) (wasm : Bytes) (abi : Abi.Descriptor) :
    RunAttempt Fault Unit :=
  atBench (fun f => Fault.emit f.path.text f.error)
    (onHost (publishAll [(wasmPath, wasm), (abiPath, Text.Utf8.encode abi.toText)]))

/-- Checks the ABI against the build and publishes both. -/
def finish (c : Compiler) (project : Path) (manifest : Manifest) (g : Graph) (built : Built)
    (abi : Abi.Descriptor) : RunAttempt Fault Output := do
  checkAbi g.entry abi built.frozen
  advance c.listener .abiExtracted .completed
  let wasmPath := project.join manifest.output
  let abiPath := project.join manifest.abiOutput
  emit wasmPath abiPath built.wasm abi
  advance c.listener .done .completed
  return {
    wasm := built.wasm
    abi
    wasmPath
    abiPath
    fromCache := built.fromCache
    cacheKey := built.cacheKey
    frozenDigest := built.frozen.digest
    modules := g.names
    diagnostics := (← get).warnings }

/-- The path of the entry module of a graph. -/
def entryPath (g : Graph) : Path := ((g.get? g.entry).map (·.path)).getD ⟨""⟩

/-- Gives the result of a run, or ends it with the faults. -/
def orFail {α : Type} (listener : Listener) : Except Fault α → InRun (Except Failure α)
  | .ok a => return .ok a
  | .error f => return .error (← fail listener f [])

/-- Compiles a project. -/
def compile (c : Compiler) (project : Path) (manifest : Manifest) :
    InRun (Except Failure Output) := do
  match ← (c.graphOf project manifest).run with
  | .error f => return .error (← fail c.listener f [])
  | .ok g =>
    advance c.listener .resolved .completed
    let abi ← atHost (Abi.extractFile Host.files g.entry (entryPath g))
    let built ← (c.buildGraph manifest g).run
    match built, abi with
    | .ok built, .ok abi => orFail c.listener (← (c.finish project manifest g built abi).run)
    | .error f, .ok _ => return .error (← fail c.listener f [])
    | .ok _, .error f => return .error (← fail c.listener (.abi g.entry f) [])
    | .error f, .error e => return .error (← fail c.listener f [.abi g.entry e])

/-- Resolves a project without building it. The listener hears nothing of it. -/
def resolve (c : Compiler) (project : Path) (manifest : Manifest) :
    InRun (Except Failure (Graph × List Diagnostic)) := do
  match ← (c.graphOf project manifest).run with
  | .ok g => return .ok (g, (← get).warnings)
  | .error f => return .error (← fail .silent f [])

/-- Resolves a project and extracts the ABI of its entry module. The listener hears nothing of it. -/
def extractAbi (c : Compiler) (project : Path) (manifest : Manifest) :
    InRun (Except Failure (Abi.Descriptor × List Diagnostic)) := do
  match ← (c.graphOf project manifest).run with
  | .error f => return .error (← fail .silent f [])
  | .ok g =>
    match (g.get? g.entry).map Abi.extractNode with
    | some (.ok abi) => return .ok (abi, (← get).warnings)
    | some (.error f) => return .error (← fail .silent (.abi g.entry f) [])
    | none => return .error (← fail .silent (.task .abi "the entry module is missing") [])

end Compiler

end ContractBuild.Build

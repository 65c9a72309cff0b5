import ContractBuild.Cli.Report
import ContractBuild.Cli.Request
import ContractBuild.Manifest.Parse

/-!
Carrying out a request on a host.
-/

namespace ContractBuild.Cli

open ContractBuild.Build ContractBuild.Host

/-! ### Defaults from the environment -/

/-- The directory in which workspaces are made. -/
def defaultScratch : OnHost Path := do
  return (← Wasm.Tool.temporaryDirectory).joinName "contract-forge"

/-- The directory for caches of the user, if it is known. -/
def userCache : OnHost (Option Path) := do
  match (← readVariable "XDG_CACHE_HOME").map Path.mk with
  | some dir => if dir.isAbsolute then return some dir else homeCache
  | none => homeCache
where
  homeCache : OnHost (Option Path) := do
    match (← readVariable "HOME").filter (!·.isEmpty) with
    | some home => return some ((Path.mk home).joinName ".cache")
    | none => return none

def defaultCacheDir : OnHost Path := do
  match ← userCache with
  | some dir => return dir.joinName "contract-forge"
  | none => return (← Wasm.Tool.temporaryDirectory).joinName "contract-forge"

def defaultSettings : OnHost Settings := do
  return { scratch := ← defaultScratch, cacheDir := ← defaultCacheDir }

/-- A compiler that builds with the configured toolchain. -/
def compilerFor (settings : Settings) (toolchain : Option String) : OnHost Compiler := do
  let program := Native.programOf toolchain (← readVariable Native.programVariable)
  return { settings, builder := .ofProgram program settings.scratch settings.limit }

/-- Does one run of a compiler that has not looked for its tools yet. -/
def runOnce {α : Type} (act : InRun α) : OnHost α := fun h =>
  let (a, run) := act { bench := { host := h } }
  (a, run.bench.host)

/-! ### Commands -/

def loadManifest (p : Project) : OnHost (Except Report Manifest) := do
  let loaded ← match p.manifest with
    | some file => Manifest.load Host.files file
    | none => Manifest.loadFrom Host.files p.directory
  match loaded with
  | .ok m => return .ok m
  | .error f => return .error { reasons := ["Failed to load project manifest", f.message] }

/-- The manifest with what the options of a build override. -/
def override (o : BuildOptions) (m : Manifest) : Manifest :=
  let m := { m with optimize := o.mode.getD m.optimize }
  match o.output with
  | some output => { m with output, abiOutput := output.withExtension "abi.json" }
  | none => m

def build (o : BuildOptions) : OnHost Report := do
  match ← loadManifest o.project with
  | .error report => return report
  | .ok manifest =>
    match Native.variableArguments (← readVariable Native.argumentsVariable) with
    | .error f => return { reasons := [f.message] }
    | .ok fromVariable =>
      let defaults ← defaultSettings
      let settings : Settings := { defaults with
        cacheDir := o.cacheDir.getD defaults.cacheDir
        limit := o.timeout * 1000
        useCache := o.useCache
        extraArgs := fromVariable ++ o.toolchainArgs
        optimizer := o.optimizer }
      let compiler ← compilerFor settings o.toolchain
      let started := (← get).clock
      match ← runOnce (compiler.compile o.project.directory (override o manifest)) with
      | .ok output => return .ofOutput output ((← get).clock - started)
      | .error f => return .ofFailure f

def abi (p : Project) : OnHost Report := do
  match ← loadManifest p with
  | .error report => return report
  | .ok manifest =>
    let compiler ← compilerFor (← defaultSettings) none
    match ← runOnce (compiler.extractAbi p.directory manifest) with
    | .ok (abi, ds) => return .ofAbi abi ds
    | .error f => return .ofFailure f

def deps (p : Project) (asJson : Bool) : OnHost Report := do
  match ← loadManifest p with
  | .error report => return report
  | .ok manifest =>
    let compiler ← compilerFor (← defaultSettings) none
    match ← runOnce (compiler.resolve p.directory manifest) with
    | .ok (g, ds) => return if asJson then .ofGraphJson g ds else .ofGraph g ds
    | .error f => return .ofFailure f

/-- The reasons that a fault of the cache gives. -/
def cacheReasons (f : Cache.Fault) : List String :=
  f.message :: match f with
    | .io _ error => [error.message]
    | .serialization reason | .walk reason => [reason]

def detectToolchain (explicit : Option String) : OnHost (Except Report Native.Toolchain) := do
  let program := Native.programOf explicit (← readVariable Native.programVariable)
  match ← (Native.Toolchain.detect program versionLimit).run with
  | .ok t => return .ok t
  | .error f =>
    return .error { reasons := [s!"Native toolchain `{program}` is not usable", f.message] }

/-- The version that a prune keeps. -/
def versionToKeep (keep toolchain : Option String) : OnHost (Except Report String) := do
  match keep with
  | some version => return .ok version
  | none => return (← detectToolchain toolchain).map (·.version)

def clearCache (c : Cache) : OnHost Report := do
  match ← c.clear.run with
  | .ok s => return { stdout := unlines (s!"🧹 Cleared {c.dir.text}" :: statsLines s) }
  | .error f => return { reasons := cacheReasons f }

def pruneCache (c : Cache) (version : String) : OnHost Report := do
  match ← (c.prune version).run with
  | .ok p => return { stdout := unlines [prunedLine p] }
  | .error f => return { reasons := cacheReasons f }

def cacheStats (c : Cache) : OnHost Report := do
  let isThere ← ask fun t => (t.look c.dir).isOk
  let missing := if isThere then [] else [s!"Cache directory {c.dir.text} does not exist"]
  match ← c.stats.run with
  | .ok s => return { stdout := unlines (missing ++ statsLines s) }
  | .error f => return { stdout := unlines missing, reasons := cacheReasons f }

def cache (action : CacheAction) (dir : Option Path) : OnHost Report := do
  let c : Cache ← match dir with
    | some dir => pure ⟨dir⟩
    | none => do pure ⟨← defaultCacheDir⟩
  match action with
  | .clear => clearCache c
  | .stats => cacheStats c
  | .prune keep toolchain =>
    match ← versionToKeep keep toolchain with
    | .ok version => pruneCache c version
    | .error report => return report

def checkToolchain (program : Option String) : OnHost Report := do
  match ← detectToolchain program with
  | .ok t => return { stdout := unlines (toolchainLines t) }
  | .error report => return report

def execute (r : Request) : OnHost Report :=
  match r.command with
  | .build options => build options
  | .abi project => abi project
  | .deps project asJson => deps project asJson
  | .cache action dir => cache action dir
  | .checkToolchain program => checkToolchain program

end ContractBuild.Cli

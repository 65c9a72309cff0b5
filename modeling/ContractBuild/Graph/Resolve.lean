import ContractBuild.Digest.Sha256
import ContractBuild.Graph.Basic
import ContractBuild.Graph.Candidate

/-!
Resolving a project: its imports are followed breadth-first from the entry module.

Each module is read once. An imported name is left out if it is excluded or comes with the base
library; otherwise its file is looked for on the source roots and then the package roots. The pins of
packages are checked when a package is first met.
-/

namespace ContractBuild.Graph

open ContractBuild.Digest ContractBuild.Disk ContractBuild.Text ContractBuild.Version

/-- What the search for modules goes by. -/
structure Scope where
  exclude : List String
  base : BaseLibrary
  pins : List Pin
  roots : List Root

/-- Whether an imported name is left out. -/
def Scope.excludes (s : Scope) (name : String) : Bool :=
  s.exclude.contains (BaseLibrary.rootOf name) || s.base.has name

/-- How far a search has come. -/
structure Search where
  /-- The names of the modules visited and of those in the queue. -/
  discovered : List String
  queue : List Located
  nodes : List Node := []
  warnings : List Warning := []
  /-- The pins that have been checked, by number. -/
  checked : List Nat := []

/-! ### Pins -/

def Warning.unknownVersion (pin : Pin) (module : String) : Warning where
  message := s!"cannot determine the installed version of pinned package {pin.package}; " ++
    s!"pin `{pin.constraint}` was not checked"
  module := some module

def Warning.unreachable (pin : Pin) (d : Distribution) : Warning where
  message :=
    let raw := d.rawVersion.getD "?"
    s!"pinned package {d.name} {raw} does not satisfy `{pin.constraint}` " ++
      "but is not reachable from the entry module"
  module := none

/-- Checks one pin against the distribution of a module. -/
def checkPin (importer module : String) (d : Option Distribution) (pin : Pin) :
    Except Fault (List Warning) :=
  match d.bind (·.version), d.bind (·.rawVersion) with
  | none, _ => .ok [.unknownVersion pin module]
  | some v, raw =>
    if pin.isMet v then .ok []
    else .error (.versionMismatch pin.package pin.constraint (raw.getD v.text) importer)

/-- Checks the pins, numbered, that concern a module and have not been checked before. -/
def checkPins (importer : String) (found : Located) (d : Option Distribution) (s : Search) :
    List (Pin × Nat) → Except Fault Search
  | [] => .ok s
  | (pin, i) :: rest => do
    let root := BaseLibrary.rootOf found.name
    if pin.appliesTo ((d.map (·.name)).getD root) root && !s.checked.contains i then
      let warnings ← checkPin importer found.name d pin
      checkPins importer found d
        { s with checked := s.checked ++ [i], warnings := s.warnings ++ warnings } rest
    else checkPins importer found d s rest

/-- Checks the pins of a module that comes from a package. -/
def checkLocated (scope : Scope) (importer : String) (found : Located) (s : Search) :
    Except Fault Search :=
  match found.origin with
  | .project => .ok s
  | .package d => checkPins importer found d s scope.pins.zipIdx

/-- A warning for a pin that no module of the graph is concerned with, but an installed package
does not meet. -/
def unreachableWarning (installed : Installed) (pin : Pin) : Option Warning := do
  let (_, d) ← installed.find? fun e => pin.appliesTo e.2.name e.1
  let v ← d.version
  if pin.isMet v then none else some (.unreachable pin d)

/-- Warns of the pins that were not checked. What is installed is given by `installed`. -/
def warnUnreachable (scope : Scope) (s : Search)
    (installed : List Root → Installed := installedIn) : Search :=
  let unchecked := scope.pins.zipIdx.filter fun p => !s.checked.contains p.2
  { s with warnings := s.warnings ++
      unchecked.filterMap fun p => unreachableWarning (installed scope.roots) p.1 }

/-! ### Visiting a module -/

/-- The imports of the module being visited. -/
structure Found where
  imports : List String := []
  excluded : List String := []

variable {m : Type → Type} [Monad m]

/-- Follows one candidate of a statement. -/
def follow (fs : Files m) (scope : Scope) (module : Located) (state : Search × Found)
    (c : Candidate) : ExceptT Fault m (Search × Found) := do
  let (s, found) := state
  if scope.excludes c.name then
    return (s, { found with excluded := insertSorted c.name found.excluded })
  if c.name = module.name then return state
  let known := { found with imports := insertSorted c.name found.imports }
  if s.discovered.contains c.name then return (s, known)
  match ← (locate fs c.name scope.roots : m (Option Located)) with
  | some located =>
    let s ← checkLocated scope module.name located s
    return ({ s with discovered := s.discovered ++ [c.name], queue := s.queue ++ [located] }, known)
  | none =>
    if !c.isRequired then return state
    if ← (isNamespace fs c.name scope.roots : m Bool) then return state
    throw (.unresolvedImport module.name c.name module.path.text c.line)

/-- Follows all candidates of a statement. -/
def followImport (fs : Files m) (scope : Scope) (module : Located) (state : Search × Found)
    (i : Python.Import) : ExceptT Fault m (Search × Found) := do
  (← Candidate.ofImport module.name module.isPackage i).foldlM (follow fs scope module) state

/-- The imports in the bytes of a module. -/
def importsIn (module : Located) (bytes : Bytes) : Except Fault (List Python.Import) :=
  match Utf8.decode bytes with
  | .error _ => .error (.invalidEncoding module.name module.path.text)
  | .ok text =>
    match Python.Module.parse text with
    | .error f => .error (.unreadable module.name module.path.text f.line f.cause.reason)
    | .ok parsed => .ok parsed.imports

/-- Reads a module and follows its imports. -/
def visit (fs : Files m) (scope : Scope) (module : Located) (s : Search) :
    ExceptT Fault m Search := do
  match ← fs.read module.path with
  | .error f => throw (.io module.path.text f)
  | .ok bytes =>
    let imports ← importsIn module bytes
    let (s, found) ← imports.foldlM (followImport fs scope module) (s, {})
    let node : Node := {
      name := module.name
      path := module.path
      digest := sha256Hex bytes
      source := bytes
      isPackage := module.isPackage
      origin := module.origin
      imports := found.imports
      excluded := found.excluded
      index := s.nodes.length }
    return { s with nodes := s.nodes ++ [node] }

/-- Visits the modules in the queue, at most `fuel` of them. -/
def explore (fs : Files m) (scope : Scope) : Nat → Search → ExceptT Fault m Search
  | fuel, s =>
    match s.queue, fuel with
    | [], _ => return s
    | _ :: _, 0 => throw .unfinished
    | module :: rest, fuel + 1 => do
      explore fs scope fuel (← visit fs scope module { s with queue := rest })

/-! ### The entry module -/

/-- The name of the module at some components below a source root. -/
def moduleName? (parts : List String) : Option (String × Bool) :=
  match parts.getLast? with
  | none => none
  | some file =>
    let stem := ((stripSuffix? ".py".toList file.toList).map String.ofList).getD file
    let isPackage := stem = "__init__"
    let names := if isPackage then parts.dropLast else parts.dropLast ++ [stem]
    if names.isEmpty then none else some (Candidate.dotted names, isPackage)

/-- The name of the entry module on the first source root that contains it, and whether it is a
package. -/
def entryName (entry : Path) (roots : List Path) : Except Fault (String × Bool) :=
  let named := roots.findSome? fun r => (r.below? entry).bind fun cs =>
    moduleName? (cs.map Path.Component.text)
  match named with
  | some n => .ok n
  | none => .error (.entryOutsideRoots entry.text (String.intercalate ", " (roots.map Path.text)))

/-! ### Resolving a project -/

/-- A graph and the remarks made on the way to it. -/
structure Resolution where
  graph : Graph
  warnings : List Warning

/-- How many modules are visited before a search is given up. -/
def visitLimit : Nat := 1000000

/-- What the search of a project goes by, and the entry module it starts from. -/
def prepare (fs : Files m) (project : Path) (manifest : Manifest) (base : BaseLibrary) :
    ExceptT Fault m (Scope × Located) := do
  let pins ← manifest.versionPins.mapError Fault.manifest
  match ← fs.canonical project with
  | .error f => throw (.io project.text f)
  | .ok root =>
    let entry := (root.join manifest.entry).normalize
    if !(← fs.isFile entry) then throw (.entryNotFound entry.text)
    let sources := manifest.sourceRoots.map fun r => (root.join r).normalize
    let (name, isPackage) ← entryName entry sources
    let packages : List Root ← (manifest.packageRoots.mapM fun r =>
      Root.ofPackages fs (root.join r).normalize : m (List Root))
    let scope : Scope :=
      { exclude := manifest.exclude, base, pins, roots := sources.map ({ path := · }) ++ packages }
    return (scope, { name, path := entry, isPackage, origin := .project })

/-- A search that has not begun. -/
def Search.start (first : Located) : Search := { discovered := [first.name], queue := [first] }

/-- Resolves a project with at most `fuel` visits. -/
def resolveWithin (fs : Files m) (fuel : Nat) (project : Path) (manifest : Manifest)
    (base : BaseLibrary) (installed : List Root → Installed := installedIn) :
    ExceptT Fault m Resolution := do
  let (scope, first) ← prepare fs project manifest base
  let s := warnUnreachable scope (← explore fs scope fuel (.start first)) installed
  match Graph.ofNodes first.name s.nodes with
  | .error reason => throw (.inconsistent reason)
  | .ok graph => return { graph, warnings := s.warnings }

/-- Resolves a project. -/
def resolve (fs : Files m) (project : Path) (manifest : Manifest) (base : BaseLibrary) :
    ExceptT Fault m Resolution :=
  resolveWithin fs visitLimit project manifest base

end ContractBuild.Graph

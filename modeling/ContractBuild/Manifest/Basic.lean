import ContractBuild.Mode
import ContractBuild.Path
import ContractBuild.Text.Sorted
import ContractBuild.Version.Pin

/-!
Project manifests: what is built, from where, and how. Paths are relative to the project root.
-/

namespace ContractBuild

structure Manifest where
  entry : Path
  sourceRoots : List Path
  packageRoots : List Path
  /-- Top-level packages left out of the build, in order. -/
  exclude : List String
  optimize : Mode
  output : Path
  abiOutput : Path
  /-- Version constraints by package, in order. -/
  pins : List (String × String)
  debugInfo : Bool

namespace Manifest

/-- The name of the manifest file in a project root. -/
def fileName : String := "contract.yaml"

inductive Fault where
  | read (path reason : String)
  | malformed (path : String)
  | invalidField (field reason : String)
  | invalidPin (package reason : String)
  deriving DecidableEq

def Fault.message : Fault → String
  | .read path reason => s!"Failed to read manifest {path}: {reason}"
  | .malformed path => s!"Invalid manifest syntax in {path}: <yaml error>"
  | .invalidField field reason => s!"Invalid manifest field `{field}`: {reason}"
  | .invalidPin package reason => s!"Invalid version pin for `{package}`: {reason}"

/-- A manifest as written, before any check. -/
structure Draft where
  entry : Path
  sourceRoots : List Path := []
  packageRoots : List Path := []
  exclude : List String := []
  optimize : Mode := .size
  output : Option Path := none
  abiOutput : Option Path := none
  pins : List (String × String) := []
  debugInfo : Bool := false

/-- Reads the name of a mode. -/
def parseMode (s : String) : Except Fault Mode :=
  match Mode.ofText? s with
  | some m => .ok m
  | none => .error (.invalidField "optimize" s!"expected size, speed or debug, got `{s}`")

def checkEntry (entry : Path) : Except Fault Unit :=
  if entry.extension ≠ some "py" then
    .error (.invalidField "entry" s!"`{entry.text}` is not a .py file")
  else if entry.isAbsolute then
    .error (.invalidField "entry" "must be relative to the project root")
  else .ok ()

def checkExcluded (name : String) : Except Fault Unit :=
  if Text.isIdentifier name.toList then .ok ()
  else .error (.invalidField "exclude" s!"`{name}` is not a top-level package name")

def parsePin (pin : String × String) : Except Fault Version.Pin :=
  match Version.Pin.parse pin.1 pin.2 with
  | .ok p => .ok p
  | .error f => .error (.invalidPin pin.1 f.reason)

def defaultOutput (entry : Path) : Path :=
  (Path.mk "build").joinName (entry.stem.getD "contract" ++ ".wasm")

def outputOf (d : Draft) : Except Fault Path :=
  match d.output with
  | none => .ok (defaultOutput d.entry)
  | some p => if p.text.isEmpty then .error (.invalidField "output" "must not be empty") else .ok p

/-- Checks a draft and fills in what it leaves open. -/
def ofDraft (d : Draft) : Except Fault Manifest := do
  checkEntry d.entry
  d.exclude.forM checkExcluded
  let _ ← d.pins.mapM parsePin
  let output ← outputOf d
  return {
    entry := d.entry
    sourceRoots := if d.sourceRoots.isEmpty then [d.entry.parent.getD ⟨""⟩] else d.sourceRoots
    packageRoots := d.packageRoots
    exclude := d.exclude
    optimize := d.optimize
    output
    abiOutput := d.abiOutput.getD (output.withExtension "abi.json")
    pins := d.pins
    debugInfo := d.debugInfo }

/-- The manifest of a project that only names its entry. -/
def ofEntry (entry : Path) : Except Fault Manifest := ofDraft { entry }

/-- The version pins, in the order of their packages. -/
def versionPins (m : Manifest) : Except Fault (List Version.Pin) := m.pins.mapM parsePin

def isExcluded (m : Manifest) (root : String) : Bool := m.exclude.contains root

end Manifest

end ContractBuild

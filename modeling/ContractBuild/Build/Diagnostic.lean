import ContractBuild.Abi.Descriptor
import ContractBuild.Build.Stage
import ContractBuild.Cache.Store
import ContractBuild.Frozen.Freeze
import ContractBuild.Graph.Fault
import ContractBuild.Native.Fault
import ContractBuild.Wasm.Passes

/-!
Faults that end a build, and the diagnostics that report faults and warnings.
-/

namespace ContractBuild.Build

inductive Fault where
  | manifest (fault : Manifest.Fault)
  | resolution (fault : Graph.Fault)
  | staleSource (stale : Frozen.Stale)
  | native (fault : Native.Fault)
  | optimization (fault : Wasm.Fault)
  | abi (module : String) (fault : Abi.Fault)
  | cache (fault : Cache.Fault)
  | staleAbi (module abiDigest frozenDigest : String)
  | emit (path : String) (error : Disk.Fault)
  | task (stage : Stage) (reason : String)
  deriving DecidableEq

namespace Fault

def message : Fault → String
  | .manifest f => f.message
  | .resolution f => f.message
  | .staleSource s => s.message
  | .native f => f.message
  | .optimization f => f.message
  | .abi module f => s!"{module}: {f.message}"
  | .cache f => f.message
  | .staleAbi module found expected =>
    s!"ABI of {module} was read from digest {found} but the frozen entry has digest {expected}"
  | .emit path error => s!"Failed to write {path}: {error.message}"
  | .task stage reason => s!"{stage.text} task did not complete: {reason}"

def stage : Fault → Stage
  | .manifest _ | .resolution (.manifest _) => .manifest
  | .resolution _ => .resolve
  | .staleSource _ => .freeze
  | .native _ => .build
  | .optimization _ => .optimize
  | .abi .. | .staleAbi .. => .abi
  | .cache _ => .cache
  | .emit .. => .emit
  | .task stage _ => stage

def location : Fault → Option (String × Option Nat)
  | .resolution f => f.location
  | .staleSource s => some (s.module, none)
  | .abi module f => some (module, f.line)
  | .staleAbi module _ _ => some (module, none)
  | _ => none

end Fault

inductive Severity where
  | error
  | warning
  deriving DecidableEq

def Severity.text : Severity → String
  | error => "error"
  | warning => "warning"

structure Diagnostic where
  stage : Stage
  severity : Severity
  message : String
  location : Option (String × Option Nat)
  deriving DecidableEq

namespace Diagnostic

def ofFault (f : Fault) : Diagnostic := ⟨f.stage, .error, f.message, f.location⟩

def warning (stage : Stage) (message : String) : Diagnostic := ⟨stage, .warning, message, none⟩

def ofWarning (w : Graph.Warning) : Diagnostic :=
  ⟨.resolve, .warning, w.message, w.module.map fun m => (m, none)⟩

def isError (d : Diagnostic) : Bool := d.severity = .error

def text (d : Diagnostic) : String :=
  s!"{d.severity.text}[{d.stage.text}]: {d.message}" ++
    match d.location with
    | some (module, some line) => s!" (in {module} line {line})"
    | some (module, none) => s!" (in {module})"
    | none => ""

end Diagnostic

/-- A build that ended early: the stage of its first error, and all diagnostics. -/
structure Failure where
  stage : Stage
  diagnostics : List Diagnostic
  deriving DecidableEq

namespace Failure

def errors (f : Failure) : List Diagnostic := f.diagnostics.filter Diagnostic.isError

def warnings (f : Failure) : List Diagnostic := f.diagnostics.filter (!·.isError)

def message (f : Failure) : String :=
  match f.errors with
  | [] => s!"Build failed during {f.stage.text}"
  | first :: more =>
    let plural := if more.length = 1 then "" else "s"
    s!"Build failed during {f.stage.text}: {first.message}" ++
      if more.isEmpty then "" else s!" (and {more.length} more error{plural})"

end Failure

end ContractBuild.Build

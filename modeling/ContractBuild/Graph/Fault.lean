import ContractBuild.Disk.Fault
import ContractBuild.Manifest.Basic

/-!
What can go wrong while the imports of a project are followed.
-/

namespace ContractBuild.Graph

inductive Fault where
  | entryNotFound (path : String)
  | entryOutsideRoots (entry roots : String)
  | unresolvedImport (importer name path : String) (line : Nat)
  | beyondTopLevel (importer : String) (line : Nat)
  | versionMismatch (package constraint found importer : String)
  | unreadable (module path : String) (line : Nat) (reason : String)
  | invalidEncoding (module path : String)
  | io (path : String) (error : Disk.Fault)
  | inconsistent (reason : String)
  | manifest (fault : Manifest.Fault)
  /-- The search was given up. -/
  | unfinished
  deriving DecidableEq

def Fault.message : Fault → String
  | .entryNotFound path => s!"Entry module not found: {path}"
  | .entryOutsideRoots entry roots => s!"Entry {entry} is not inside any source root ({roots})"
  | .unresolvedImport importer name path line =>
    s!"Cannot resolve import `{name}` in module {importer} ({path}:{line})"
  | .beyondTopLevel importer line =>
    s!"Relative import in module {importer} at line {line} goes beyond the top-level package"
  | .versionMismatch package constraint found importer =>
    s!"Package {package} {found} does not satisfy pin `{constraint}` (imported by {importer})"
  | .unreadable module path line reason =>
    s!"Syntax error in module {module} ({path}:{line}): {reason}"
  | .invalidEncoding module path => s!"Module {module} ({path}) is not valid UTF-8"
  | .io path error => s!"Failed to read {path}: {error.message}"
  | .inconsistent reason => s!"Inconsistent dependency graph: {reason}"
  | .manifest fault => fault.message
  | .unfinished => "Dependency resolution did not finish"

/-- The module that a fault points to, and the line in it. -/
def Fault.location : Fault → Option (String × Option Nat)
  | .unresolvedImport importer _ _ line | .beyondTopLevel importer line => some (importer, some line)
  | .versionMismatch _ _ _ importer => some (importer, none)
  | .unreadable module _ line _ => some (module, some line)
  | .invalidEncoding module _ => some (module, none)
  | _ => none

/-- A remark on a project that does not stop its build. -/
structure Warning where
  message : String
  module : Option String
  deriving DecidableEq

end ContractBuild.Graph

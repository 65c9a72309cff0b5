import ContractBuild.Frozen.Base
import ContractBuild.Graph.Fault
import ContractBuild.Python.Module

/-!
The modules that an import statement may mean.

A dotted name also means the packages around it. A name imported from a module may be a module of
its own or not, so it is not required.
-/

namespace ContractBuild.Graph

open ContractBuild.Python ContractBuild.Text

structure Candidate where
  name : String
  /-- Whether the import fails without it. -/
  isRequired : Bool
  line : Nat
  deriving DecidableEq

namespace Candidate

def dotted (parts : List String) : String := String.intercalate "." parts

/-- A dotted name after all its prefixes. -/
def withPrefixes (name : String) (line : Nat) : List Candidate :=
  let parts := splitString '.' name
  (List.range parts.length).map fun i =>
    { name := dotted (parts.take (i + 1)), isRequired := i + 1 = parts.length, line }

/-- The package that `level` dots stand for in a module. -/
def packageAt? (importer : String) (isPackage : Bool) (level : Nat) : Option String :=
  let parts := splitString '.' importer
  let parts := if isPackage then parts else parts.dropLast
  if level > parts.length then none else some (dotted (parts.take (parts.length + 1 - level)))

/-- The module that names are imported from. -/
def baseOf (importer : String) (isPackage : Bool) (level : Nat) (base : Option String)
    (line : Nat) : Except Fault String :=
  if level = 0 then .ok (base.getD "")
  else match packageAt? importer isPackage level with
    | none => .error (.beyondTopLevel importer line)
    | some package =>
      .ok (match base with
        | some b => s!"{package}.{b}"
        | none => package)

/-- The candidates of a statement in a module, in the order in which they are tried. -/
def ofImport (importer : String) (isPackage : Bool) : Import → Except Fault (List Candidate)
  | .whole line name => .ok (withPrefixes name line)
  | .names line level base names => do
    let base ← baseOf importer isPackage level base line
    return withPrefixes base line ++ (names.filter (· ≠ "*")).map fun n =>
      { name := s!"{base}.{n}", isRequired := false, line }

end Candidate

end ContractBuild.Graph

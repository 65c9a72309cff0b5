import ContractBuild.Frozen.Base
import ContractBuild.Graph.Distribution

/-!
From dotted module names to files: `a.b` is `a/b.py` or `a/b/__init__.py` below a root, and the first
root that has one of them counts.
-/

namespace ContractBuild.Graph

open ContractBuild.Disk ContractBuild.Text

/-- A directory in which modules are looked for. -/
structure Root where
  path : Path
  /-- What is installed there, if it holds packages and not sources of the project. -/
  installed : Option Installed := none

/-- Where a module comes from. -/
inductive Origin where
  | project
  | package (distribution : Option Distribution)
  deriving DecidableEq

structure Located where
  name : String
  path : Path
  isPackage : Bool
  origin : Origin
  deriving DecidableEq

namespace Root

/-- Where a dotted name lies below a root, but for its suffix. -/
def baseOf (r : Root) (name : String) : Path := (splitString '.' name).foldl Path.joinName r.path

def originOf (r : Root) (name : String) : Origin :=
  match r.installed with
  | none => .project
  | some index => .package (index.lookup (BaseLibrary.rootOf name))

end Root

variable {m : Type → Type} [Monad m]

/-- A directory of packages. -/
def Root.ofPackages (fs : Files m) (path : Path) : m Root := do
  return { path, installed := some (← Distribution.scan fs path) }

def locate (fs : Files m) (name : String) : List Root → m (Option Located)
  | [] => return none
  | r :: rest => do
    let module := (r.baseOf name).withExtension "py"
    if ← fs.isFile module then return some ⟨name, module, false, r.originOf name⟩
    let package := (r.baseOf name).joinName "__init__.py"
    if ← fs.isFile package then return some ⟨name, package, true, r.originOf name⟩
    locate fs name rest

/-- Whether some root has a directory for the name. -/
def isNamespace (fs : Files m) (name : String) : List Root → m Bool
  | [] => return false
  | r :: rest => do
    if ← fs.isDirectory (r.baseOf name) then return true else isNamespace fs name rest

/-- All that is installed, root by root. -/
def installedIn (roots : List Root) : Installed := roots.flatMap (·.installed.getD [])

end ContractBuild.Graph

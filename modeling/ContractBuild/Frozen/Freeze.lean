import ContractBuild.Frozen.Basic
import ContractBuild.Graph.Basic

/-!
Freezing a graph: every module is read once more and has to be what it was when its imports were
read.
-/

namespace ContractBuild.Frozen

open ContractBuild.Digest ContractBuild.Disk

/-- A source that is not what it was when its imports were read. -/
structure Stale where
  module : String
  path : String
  expected : String
  actual : String
  deriving DecidableEq

def Stale.message (s : Stale) : String :=
  s!"Module {s.module} changed during the build ({s.path}): expected digest {s.expected}, found {s.actual}"

/-- What is found in the place of a source. -/
def found : Except Disk.Fault Bytes → String
  | .ok bytes => sha256Hex bytes
  | .error f => s!"<unreadable: {f.message}>"

variable {m : Type → Type} [Monad m]

def freezeNode (fs : Files m) (n : Graph.Node) : ExceptT Stale m Module := do
  let actual := found (← fs.read n.path)
  if actual ≠ n.digest then throw ⟨n.name, n.path.text, n.digest, actual⟩
  return ⟨n.name, n.digest, n.source, n.isPackage⟩

/-- Freezes the modules of a graph in the order of discovery. -/
def freeze (fs : Files m) (base : BaseLibrary) (g : Graph) : ExceptT Stale m Frozen := do
  return { entry := g.entry, modules := ← g.nodes.mapM (freezeNode fs), base }

end ContractBuild.Frozen

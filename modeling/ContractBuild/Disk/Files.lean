import ContractBuild.Disk.Tree

/-!
Reading files within a monad: a tree that stays as it is, or one that others change meanwhile.
-/

namespace ContractBuild.Disk

structure Files (m : Type → Type) where
  isFile : Path → m Bool
  isDirectory : Path → m Bool
  read : Path → m (Except Fault Bytes)
  /-- The names in a directory, in no particular order. -/
  list : Path → m (Except Fault (List String))
  /-- The absolute path without detours. -/
  canonical : Path → m (Except Fault Path)

namespace Files

/-- The files of a tree that nobody changes. -/
def ofTree (t : Tree) : Files Id where
  isFile := t.isFile
  isDirectory := t.isDirectory
  read := t.read
  list := t.list
  canonical := t.canonical

/-- The text of a file. -/
def readText {m : Type → Type} [Monad m] (fs : Files m) (p : Path) : m (Except Fault String) := do
  match ← fs.read p with
  | .error f => return .error f
  | .ok bytes =>
    match Text.Utf8.decode bytes with
    | .ok text => return .ok text
    | .error _ => return .error .notText

end Files

end ContractBuild.Disk

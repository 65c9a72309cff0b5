import ContractBuild.Disk.Files
import ContractBuild.Text.Sorted
import ContractBuild.Version.Release

/-!
Installed distributions, found through the `.dist-info` directories next to their modules.

Each tells the name and version of a distribution and which top-level modules it brings. If two of
them name a module, the first by name counts.
-/

namespace ContractBuild.Graph

open ContractBuild.Disk ContractBuild.Text

structure Distribution where
  name : String
  /-- The version as written. -/
  rawVersion : Option String
  version : Option Version
  deriving DecidableEq

/-- The distributions of a directory by top-level module, in order. -/
abbrev Installed := List (String × Distribution)

namespace Distribution

/-- The version in the header of a metadata file, which an empty line ends. -/
def versionIn (metadata : String) : Option String :=
  ((lines metadata.toList).takeWhile (!·.isEmpty)).findSome? fun l =>
    ("Version:".toList.isPrefixOf? l).map fun v => String.ofList (trim v)

/-- The modules listed, one a line. -/
def listedModules (text : String) : List String :=
  ((lines text.toList).map trim |>.filter (!·.isEmpty)).map String.ofList

/-- The name and the version in the name of a `.dist-info` directory. -/
def splitStem (stem : String) : String × Option String :=
  match splitOnce ['-'] stem.toList with
  | some (name, version) => (String.ofList name, some (String.ofList version))
  | none => (stem, none)

/-- Adds a module unless another distribution has it. -/
def addModule (d : Distribution) (index : Installed) (module : String) : Installed :=
  if (index.lookup module).isSome then index else putSorted module d index

/-- The names of the distributions in a directory, without their suffix, in order. -/
def stems (names : List String) : List String :=
  sortedSet (names.filterMap fun n =>
    (stripSuffix? ".dist-info".toList n.toList).map String.ofList)

variable {m : Type → Type} [Monad m]

/-- Adds what one `.dist-info` directory tells. -/
def readInto (fs : Files m) (root : Path) (index : Installed) (stem : String) : m Installed := do
  let dir := root.joinName (stem ++ ".dist-info")
  let (name, written) := splitStem stem
  let rawVersion ← match written with
    | some v => pure (some v)
    | none => do
      match ← fs.readText (dir.joinName "METADATA") with
      | .ok metadata => pure (versionIn metadata)
      | .error _ => pure none
  let d : Distribution := { name, rawVersion, version := rawVersion.bind Version.ofRelease? }
  let modules ← match ← fs.readText (dir.joinName "top_level.txt") with
    | .ok text => pure (listedModules text)
    | .error _ => pure [Version.normalizeName name]
  return modules.foldl d.addModule index

/-- Everything installed in a directory. -/
def scan (fs : Files m) (root : Path) : m Installed := do
  match ← fs.list root with
  | .ok names => (stems names).foldlM (readInto fs root) []
  | .error _ => return []

end Distribution

end ContractBuild.Graph

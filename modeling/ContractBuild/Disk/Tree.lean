import ContractBuild.Disk.Fault
import ContractBuild.Path
import ContractBuild.Text.Utf8

/-!
File trees, and what the operations of a file system do to them.

A tree maps places, lists of names from the root, to what stands there. A path is walked name by
name: `..` goes up, and every place walked through has to be a directory. No path leads through a
symbolic link: one that leads to a directory or to nothing is met at the end of a path only.
-/

namespace ContractBuild.Disk

inductive Node where
  | file (content : Bytes) (isExecutable : Bool)
  | directory
  /-- Neither a file nor a directory: a pipe, a socket, a device, or a symbolic link that leads to no
  file. It is renamed, linked and removed as itself, and it is not read or written. -/
  | special
  deriving DecidableEq

abbrev Place := List String

structure Tree where
  nodes : List (Place × Node) := []
  /-- Where a path that is not absolute starts. -/
  start : Place := []

namespace Tree

/-- What stands at a place; the root is always a directory. -/
def get? (t : Tree) (p : Place) : Option Node :=
  if p = [] then some .directory else t.nodes.lookup p

def erase (t : Tree) (p : Place) : Tree :=
  { t with nodes := t.nodes.filter (·.1 ≠ p) }

def put (t : Tree) (p : Place) (n : Node) : Tree :=
  { t with nodes := (p, n) :: (t.erase p).nodes }

/-- Removes a place and everything below it. -/
def eraseAll (t : Tree) (p : Place) : Tree :=
  { t with nodes := t.nodes.filter fun e => !p.isPrefixOf e.1 }

/-- The names directly below a place, each once. -/
def names (t : Tree) (p : Place) : List String :=
  (t.nodes.filterMap fun e =>
    match p.isPrefixOf? e.1 with
    | some [name] => some name
    | _ => none).eraseDups

/-- Everything below a place, with the names that lead there from it. -/
def below (t : Tree) (p : Place) : List (Place × Node) :=
  t.nodes.filterMap fun e =>
    match p.isPrefixOf? e.1 with
    | some [] | none => none
    | some names => some (names, e.2)

/-- Puts directories at a place and above it, where nothing stands yet. -/
def addDirectories (t : Tree) (p : Place) : Tree :=
  (List.range p.length).foldl (fun t i =>
    let dir := p.take (i + 1)
    if (t.get? dir).isSome then t else t.put dir .directory) t

/-- Puts a file at a place with directories above it. A file that is there stays as executable as it
is, and whatever else is there stays. -/
def addFile (t : Tree) (p : Place) (content : Bytes) (isExecutable : Bool) : Tree :=
  match t.get? p with
  | some (.file _ x) => t.put p (.file content x)
  | some _ => t
  | none => (t.addDirectories p.dropLast).put p (.file content isExecutable)

/-! ### Walking along a path -/

/-- The longest name, in bytes. -/
def nameLimit : Nat := 255

/-- Paths are shorter than this, in bytes. -/
def pathLimit : Nat := 4096

/-- The place that names lead to from another one. Nothing need stand there, but its directory is
there. -/
def walk (t : Tree) : Place → List String → Except Fault Place
  | here, [] => .ok here
  | here, name :: rest =>
    match t.get? here with
    | none => .error .notFound
    | some (.file ..) | some .special => .error .notDirectory
    | some .directory =>
      if name = "." then t.walk here rest
      else if name = ".." then t.walk here.dropLast rest
      else if nameLimit < name.utf8ByteSize then .error .nameTooLong
      else t.walk (here ++ [name]) rest

def placeOf (t : Tree) (p : Path) : Except Fault Place :=
  if p.text.isEmpty then .error .notFound
  else if (Text.chars p.text).contains '\x00' then .error .nulInName
  else if pathLimit ≤ p.text.utf8ByteSize then .error .nameTooLong
  else t.walk (if p.isAbsolute then [] else t.start)
    ((Text.splitString '/' p.text).filter (!·.isEmpty))

/-- What a path leads to, with its place. A slash at the end asks for a directory. -/
def find (t : Tree) (p : Path) : Except Fault (Place × Option Node) := do
  let place ← t.placeOf p
  match t.get? place with
  | some (.file ..) | some .special =>
    if p.endsInSlash then .error .notDirectory else return (place, t.get? place)
  | n => return (place, n)

/-! ### Reading -/

/-- What stands at the end of a path. -/
def look (t : Tree) (p : Path) : Except Fault Node := do
  match ← t.find p with
  | (_, some n) => return n
  | (_, none) => .error .notFound

def isFile (t : Tree) (p : Path) : Bool :=
  match t.look p with
  | .ok (.file ..) => true
  | _ => false

def isDirectory (t : Tree) (p : Path) : Bool :=
  match t.look p with
  | .ok .directory => true
  | _ => false

def isExecutable (t : Tree) (p : Path) : Bool :=
  match t.look p with
  | .ok (.file _ x) => x
  | _ => false

def read (t : Tree) (p : Path) : Except Fault Bytes := do
  match ← t.look p with
  | .file content _ => return content
  | .directory => .error .isDirectory
  | .special => .error .noDevice

/-- The names in a directory. -/
def list (t : Tree) (p : Path) : Except Fault (List String) := do
  match ← t.find p with
  | (_, none) => .error .notFound
  | (place, some .directory) => return t.names place
  | _ => .error .notDirectory

/-- The absolute path of a place. -/
def pathTo (place : Place) : Path := ⟨"/" ++ String.intercalate "/" place⟩

/-- The absolute path that leads to the same place without detours. -/
def canonical (t : Tree) (p : Path) : Except Fault Path := do
  match ← t.find p with
  | (place, some _) => return pathTo place
  | (_, none) => .error .notFound

/-! ### Changing -/

/-- Writes a file, in the place of one that is there. -/
def write (t : Tree) (p : Path) (content : Bytes) : Except Fault Tree := do
  match ← t.find p with
  | (_, some .directory) => .error .isDirectory
  | (_, some .special) => .error .noDevice
  | (place, some (.file _ x)) => return t.put place (.file content x)
  | (place, none) =>
    if p.endsInSlash then .error .isDirectory else return t.put place (.file content false)

/-- Makes an empty file where nothing stands. -/
def create (t : Tree) (p : Path) : Except Fault Tree := do
  match ← t.find p with
  | (_, some _) => .error .exists
  | (place, none) =>
    if p.endsInSlash then .error .isDirectory else return t.put place (.file [] false)

/-- Adds to an open file. One that has lost its name is written to no effect. -/
def append (t : Tree) (p : Path) (more : Bytes) : Except Fault Tree := do
  match ← t.find p with
  | (place, some (.file content x)) => return t.put place (.file (content ++ more) x)
  | _ => return t

def makeDirectory (t : Tree) (p : Path) : Except Fault Tree := do
  match ← t.placeOf p with
  | place => if (t.get? place).isSome then .error .exists else return t.put place .directory

/-- Gives a second name to what is not a directory. -/
def link (t : Tree) (p q : Path) : Except Fault Tree := do
  match ← t.look p, ← t.find q with
  | .directory, _ => .error .notPermitted
  | _, (_, some _) => .error .exists
  | n, (place, none) => return t.put place n

/-- Copies what `part` takes of a file, with its permissions, over one that is there. -/
def copyPart (t : Tree) (part : Bytes → Bytes) (p q : Path) : Except Fault Tree := do
  match ← t.look p, ← t.find q with
  | .file .., (_, some .directory) => .error .isDirectory
  | .file .., (_, some .special) => .error .noDevice
  | .file content x, (place, _) =>
    if q.endsInSlash then .error .isDirectory else return t.put place (.file (part content) x)
  | _, _ => .error .notFile

/-- Copies a file with its permissions, over one that is there. -/
def copy (t : Tree) (p q : Path) : Except Fault Tree := t.copyPart id p q

/-- Moves what is not a directory, over what is none. -/
def rename (t : Tree) (p q : Path) : Except Fault Tree := do
  match ← t.find p, ← t.find q with
  | (_, none), _ => .error .notFound
  | (_, some .directory), _ => .error .isDirectory
  | _, (_, some .directory) => .error .isDirectory
  | (source, some n), (target, _) =>
    if q.endsInSlash then .error .notDirectory else return (t.erase source).put target n

/-- Removes what is not a directory. -/
def removeFile (t : Tree) (p : Path) : Except Fault Tree := do
  match ← t.find p with
  | (_, none) => .error .notFound
  | (_, some .directory) => .error .isDirectory
  | (place, some _) => return t.erase place

/-- Removes a directory with everything in it. -/
def removeDirectory (t : Tree) (p : Path) : Except Fault Tree := do
  match ← t.find p with
  | (_, none) => .error .notFound
  | (place, some .directory) => return t.eraseAll place
  | _ => .error .notDirectory

end Tree

end ContractBuild.Disk

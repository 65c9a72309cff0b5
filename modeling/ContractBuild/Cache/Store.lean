import ContractBuild.Cache.Entry
import ContractBuild.Host.Publish
import ContractBuild.Total

/-!
The build cache on disk.

`blobs` holds artifacts under their digests and `entries` one entry for each key. Every file is
published whole, and the artifacts before the entry that names them, so that a reader finds no
entry or a complete one. What cannot be read or does not fit its digest counts as missing.
-/

namespace ContractBuild

open ContractBuild.Digest ContractBuild.Disk ContractBuild.Host

/-- A build cache in a directory. -/
structure Cache where
  dir : Path

namespace Cache

inductive Fault where
  | io (path : String) (error : Disk.Fault)
  | serialization (reason : String)
  | walk (reason : String)
  deriving DecidableEq

def Fault.message : Fault → String
  | .io path error => s!"Cache I/O error at {path}: {error.message}"
  | .serialization reason => s!"Cache serialization error: {reason}"
  | .walk reason => s!"Cache directory walk failed: {reason}"

/-- What a build gives: the binary of the toolchain and the optimized one. -/
structure Artifact where
  raw : Bytes
  optimized : Bytes
  mode : Mode
  toolchain : String
  deriving DecidableEq

structure Stats where
  entries : Nat
  blobs : Nat
  blobBytes : Nat
  deriving DecidableEq

/-- How many files were removed. -/
structure Pruned where
  entries : Nat
  blobs : Nat
  deriving DecidableEq

def entriesDir (c : Cache) : Path := c.dir.joinName "entries"

def blobsDir (c : Cache) : Path := c.dir.joinName "blobs"

def entryPath (c : Cache) (key : String) : Path := c.entriesDir.joinName s!"{key}.json"

def blobPath (c : Cache) (digest : String) : Path := c.blobsDir.joinName digest

/-! ### Looking up and storing -/

def readBlob (c : Cache) (b : Blob) : OnHost (Option Bytes) := do
  match ← (Host.read (c.blobPath b.digest)).run with
  | .ok content =>
    return if content.length = b.size ∧ sha256Hex content = b.digest then some content else none
  | .error _ => return none

def readEntry (p : Path) : OnHost (Option Entry) := do
  match ← (Host.read p).run with
  | .ok content => return Entry.decode? content
  | .error _ => return none

def lookup (c : Cache) (key : String) : OnHost (Option Artifact) := do
  match ← readEntry (c.entryPath key) with
  | none => return none
  | some e =>
    if e.key ≠ key then return none
    match ← c.readBlob e.raw with
    | none => return none
    | some raw =>
      match ← c.readBlob e.optimized with
      | none => return none
      | some optimized => return some ⟨raw, optimized, e.mode, e.toolchain⟩

/-- Does something to a path of the cache. -/
def touching {α : Type} (p : Path) (act : Attempt Disk.Fault α) : Attempt Fault α := do
  match ← act.result with
  | .ok a => return a
  | .error f => throw (.io p.text f)

def put (p : Path) (content : Bytes) : Attempt Fault Unit := touching p (publish p content)

def store (c : Cache) (key : String) (a : Artifact) : Attempt Fault Entry := do
  let e : Entry := {
    key
    raw := .of a.raw
    optimized := .of a.optimized
    mode := a.mode
    toolchain := a.toolchain
    createdAt := (← get).now }
  put (c.blobPath e.raw.digest) a.raw
  if e.optimized.digest ≠ e.raw.digest then put (c.blobPath e.optimized.digest) a.optimized
  put (c.entryPath key) e.encode
  return e

/-! ### The files of the cache -/

/-- Files being written are hidden. -/
def isHidden (name : String) : Bool := name.toList.head? == some '.'

/-- The published files of a directory, by name; one that is missing has none. -/
def filesIn (dir : Path) : Attempt Fault (List String) := do
  match ← (inspect (·.look dir)).result with
  | .ok .directory =>
    match ← (inspect fun t => (t.list dir).map (published t)).result with
    | .ok names => return names
    | .error f => throw (.walk s!"IO error for operation on {dir.text}: {f.message}")
  | _ => return []
where
  published (t : Tree) (names : List String) : List String :=
    names.filter fun name => !isHidden name && t.isFile (dir.joinName name)

def sizeOf (p : Path) : OnHost Nat := do
  match ← (Host.read p).run with
  | .ok content => return content.length
  | .error _ => return 0

def stats (c : Cache) : Attempt Fault Stats := do
  let entries ← filesIn c.entriesDir
  let blobs ← filesIn c.blobsDir
  let sizes : List Nat ← blobs.mapM fun name => sizeOf (c.blobsDir.joinName name)
  return ⟨entries.length, blobs.length, total id sizes⟩

/-- Removes a file that may be gone already. -/
def discard (p : Path) : Attempt Fault Unit := do
  match ← (removeFile p).result with
  | .ok () => return
  | .error f => if f = .notFound then return else throw (.io p.text f)

/-- Keeps the entries of a toolchain version; gives the digests they name and the number of the
others. -/
def pruneEntries (c : Cache) (version : String) (named : List String) (removed : Nat) :
    List String → Attempt Fault (List String × Nat)
  | [] => return (named, removed)
  | name :: rest => do
    let p := c.entriesDir.joinName name
    match (← readEntry p).filter (·.toolchain == version) with
    | some e => c.pruneEntries version (named ++ [e.raw.digest, e.optimized.digest]) removed rest
    | none =>
      discard p
      c.pruneEntries version named (removed + 1) rest

/-- Removes the blobs that are not named. -/
def pruneBlobs (c : Cache) (named : List String) (removed : Nat) :
    List String → Attempt Fault Nat
  | [] => return removed
  | name :: rest => do
    if named.contains name then c.pruneBlobs named removed rest
    else
      discard (c.blobsDir.joinName name)
      c.pruneBlobs named (removed + 1) rest

/-- Removes the entries of other toolchain versions, and then the blobs that no entry names. -/
def prune (c : Cache) (version : String) : Attempt Fault Pruned := do
  let (named, entries) ← c.pruneEntries version [] 0 (← filesIn c.entriesDir)
  let blobs ← c.pruneBlobs named 0 (← filesIn c.blobsDir)
  return ⟨entries, blobs⟩

def removeTree (dir : Path) : Attempt Fault Unit := do
  match ← (alter (·.removeDirectory dir)).result with
  | .ok () => return
  | .error f => if f = .notFound then return else throw (.io dir.text f)

/-- Empties the cache; gives what was in it. -/
def clear (c : Cache) : Attempt Fault Stats := do
  let before ← c.stats
  removeTree c.entriesDir
  removeTree c.blobsDir
  return before

end Cache

end ContractBuild

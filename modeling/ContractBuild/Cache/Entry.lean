import ContractBuild.Digest.Sha256
import ContractBuild.Mode
import ContractBuild.Text.Json
import ContractBuild.Text.Timestamp

/-!
Entries of the build cache, and their JSON text.

Reading skips members that it does not know, whose strings may be no text, and refuses those it
knows twice. The members of an object may also be given as an array in order.
-/

namespace ContractBuild.Cache

open ContractBuild.Text ContractBuild.Digest
open ContractBuild.Text.Json (members? text? named?)

/-- A stored artifact: the digest that names its file, and its size. -/
structure Blob where
  digest : String
  size : Nat
  deriving DecidableEq

def Blob.of (content : Bytes) : Blob := ⟨sha256Hex content, content.length⟩

structure Entry where
  key : String
  raw : Blob
  optimized : Blob
  mode : Mode
  toolchain : String
  createdAt : String
  deriving DecidableEq

/-! ### Writing -/

def Blob.toJson (b : Blob) : Json := .obj [("digest", .str b.digest), ("size", .nat b.size)]

def Entry.toJson (e : Entry) : Json :=
  .obj [("key", .str e.key), ("raw", e.raw.toJson), ("optimized", e.optimized.toJson),
    ("mode", .str e.mode.text), ("toolchain_version", .str e.toolchain),
    ("created_at", .str e.createdAt)]

def Entry.encode (e : Entry) : Bytes := Utf8.encodeChars (e.toJson.pretty 0)

/-! ### Reading -/

def size? : Json.Loose → Option Nat
  | .num written => wordOfDigits? written.toList
  | _ => none

def time? (j : Json.Loose) : Option String := (text? j).filter Timestamp.isTimestamp

def Blob.ofJson? (j : Json.Loose) : Option Blob := do
  match ← members? ["digest", "size"] j with
  | [digest, size] => return ⟨← text? digest, ← size? size⟩
  | _ => none

def Entry.ofJson? (j : Json.Loose) : Option Entry := do
  match ← members? ["key", "raw", "optimized", "mode", "toolchain_version", "created_at"] j with
  | [key, raw, optimized, mode, toolchain, createdAt] =>
    return {
      key := ← text? key
      raw := ← Blob.ofJson? raw
      optimized := ← Blob.ofJson? optimized
      mode := ← named? Mode.ofText? mode
      toolchain := ← text? toolchain
      createdAt := ← time? createdAt }
  | _ => none

def Entry.decode? (bytes : Bytes) : Option Entry := (Json.parse bytes).bind Entry.ofJson?

end ContractBuild.Cache

import ContractBuild.Frozen.Basic
import ContractBuild.Mode

/-!
Cache keys: a digest over everything that a build's output depends on.

The fields are hashed each after its length, so that different fields never give the same bytes.
-/

namespace ContractBuild

open ContractBuild.Text ContractBuild.Digest

/-- What is passed on to the native toolchain. -/
structure BuildFlags where
  mode : Mode
  debugSymbols : Bool
  extraArgs : List String
  deriving DecidableEq

namespace BuildFlags

def argument (arg : String) : Bytes :=
  let bytes := Utf8.encode arg
  Utf8.encode s!";{bytes.length}:" ++ bytes

def canonical (f : BuildFlags) : Bytes :=
  Utf8.encode s!"mode={f.mode.text};debug-symbols={f.debugSymbols};args={f.extraArgs.length}" ++
    f.extraArgs.flatMap argument

end BuildFlags

namespace Cache

/-- The bytes after their length. -/
def field (bytes : Bytes) : Bytes := littleEndian 8 bytes.length ++ bytes

/-- The bytes a key is the digest of. -/
def preimage (frozen : Frozen) (flags : BuildFlags) (toolchain optimizer : String) : Bytes :=
  [Utf8.encode "contract-forge-cache-v1", frozen.canonical, flags.canonical,
    Utf8.encode toolchain, Utf8.encode optimizer].flatMap field

def keyOf (frozen : Frozen) (flags : BuildFlags) (toolchain optimizer : String) : String :=
  sha256Hex (preimage frozen flags toolchain optimizer)

end Cache

end ContractBuild

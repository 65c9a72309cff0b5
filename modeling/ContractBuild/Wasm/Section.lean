import ContractBuild.Wasm.Reader

/-!
A binary as a list of sections.

Custom sections are read as a name and data, the code section as function bodies, and every other
section is kept as it stands. Writing gives each length in the fewest bytes.
-/

namespace ContractBuild.Wasm

inductive Section where
  | custom (name : String) (data : Bytes)
  | code (bodies : List Bytes)
  | other (id : UInt8) (payload : Bytes)
  deriving DecidableEq

/-- What the header of a binary announces. -/
inductive Layer where
  | module
  | component
  deriving DecidableEq

namespace Section

def magic : Bytes := [0x00, 0x61, 0x73, 0x6d]

def customId : UInt8 := 0

def codeId : UInt8 := 10

/-- The identifier and the content of a section. -/
def raw : Reader (UInt8 × Bytes) := do
  let id ← Reader.byte
  return (id, ← Reader.take (← Reader.u32))

def sized : Reader Bytes := do Reader.take (← Reader.u32)

def ofRaw (s : UInt8 × Bytes) : Option Section :=
  if s.1 = customId then (Reader.name s.2).map fun p => .custom p.1 p.2
  else if s.1 = codeId then (Reader.whole (Reader.vector sized) s.2).map .code
  else some (.other s.1 s.2)

/-- The sections after the header. -/
def readAll (bs : Bytes) : Option (List Section) := do
  (← Reader.many raw bs.length bs).mapM ofRaw

def write : Section → Bytes
  | .custom name data => customId :: writeSized (writeSized (Text.Utf8.encode name) ++ data)
  | .code bodies => codeId :: writeSized (writeU32 bodies.length ++ bodies.flatMap writeSized)
  | .other id payload => id :: writeSized payload

end Section

/-- A binary as it is framed: what it announces to be, in which version, and its sections. -/
structure Binary where
  layer : Layer
  version : Nat
  sections : List Section

/-- The version that a layer has to announce. -/
def Layer.version : Layer → Nat
  | .module => 0x1
  | .component => 0xd

/-- Two bytes for the version and two for the layer. -/
def Layer.ofBytes? (low high : UInt8) : Option Layer :=
  if high = 0 && low = 0 then some .module
  else if high = 0 && low = 1 then some .component
  else none

def readBinary (bs : Bytes) : Option Binary :=
  match Section.magic.isPrefixOf? bs with
  | some (v0 :: v1 :: l0 :: l1 :: r) =>
    match Layer.ofBytes? l0 l1 with
    | some layer => (Section.readAll r).map (Binary.mk layer (v0.toNat + 256 * v1.toNat))
    | none => none
  | _ => none

/-- The binary of a module with the given sections. -/
def writeModule (sections : List Section) : Bytes :=
  Section.magic ++ [0x01, 0x00, 0x00, 0x00] ++ sections.flatMap Section.write

end ContractBuild.Wasm

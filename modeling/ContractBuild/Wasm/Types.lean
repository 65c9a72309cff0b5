import ContractBuild.Wasm.Reader

/-!
Types of WebAssembly modules and how they are read.
-/

namespace ContractBuild.Wasm

/-- What a reference points to. -/
inductive Heap where
  | func
  | external
  | any
  | eq
  | i31
  | struct
  | array
  | exn
  | none
  | noExtern
  | noFunc
  | noExn
  deriving DecidableEq

/-- A reference is always one that may be null. -/
inductive ValType where
  | i32
  | i64
  | f32
  | f64
  | v128
  | ref (heap : Heap)
  deriving DecidableEq

def Heap.ofByte? (b : UInt8) : Option Heap :=
  match b.toNat with
  | 0x70 => some .func
  | 0x6f => some .external
  | 0x6e => some .any
  | 0x6d => some .eq
  | 0x6c => some .i31
  | 0x6b => some .struct
  | 0x6a => some .array
  | 0x69 => some .exn
  | 0x71 => some .none
  | 0x72 => some .noExtern
  | 0x73 => some .noFunc
  | 0x74 => some .noExn
  | _ => Option.none

def ValType.ofByte? (b : UInt8) : Option ValType :=
  match b.toNat with
  | 0x7f => some .i32
  | 0x7e => some .i64
  | 0x7d => some .f32
  | 0x7c => some .f64
  | 0x7b => some .v128
  | _ => (Heap.ofByte? b).map .ref

/-- Whether a reference to `a` may stand for one to `b`. -/
def Heap.isSub (a b : Heap) : Bool :=
  a == b ||
    match a, b with
    | .eq, .any | .i31, .any | .struct, .any | .array, .any | .none, .any => true
    | .i31, .eq | .struct, .eq | .array, .eq | .none, .eq => true
    | .none, .i31 | .none, .struct | .none, .array => true
    | .noFunc, .func | .noExtern, .external | .noExn, .exn => true
    | _, _ => false

def ValType.isSub (a b : ValType) : Bool :=
  match a, b with
  | .ref a, .ref b => a.isSub b
  | a, b => a == b

def ValType.isRef : ValType → Bool
  | .ref _ => true
  | _ => false

structure FuncType where
  params : List ValType
  results : List ValType
  deriving DecidableEq

structure TableType where
  element : Heap
  is64 : Bool

structure MemoryType where
  is64 : Bool

structure GlobalType where
  type : ValType
  isMutable : Bool

/-- The type of addresses and sizes. -/
def addressType (is64 : Bool) : ValType := if is64 then .i64 else .i32

namespace Reader

def valType : Reader ValType := do
  match ValType.ofByte? (← byte) with
  | some t => return t
  | none => failure

def heapType : Reader Heap := do
  match Heap.ofByte? (← byte) with
  | some h => return h
  | none => failure

/-- The greatest number of parameters, and of results. -/
def maxArity : Nat := 1000

def funcType : Reader FuncType := do
  check ((← byte) == 0x60)
  let params ← vector valType
  let results ← vector valType
  check (params.length ≤ maxArity && results.length ≤ maxArity)
  return ⟨params, results⟩

/-- A minimum and, if given, a maximum not below it. -/
def limits (hasMax is64 : Bool) : Reader (Nat × Option Nat) := do
  let size := if is64 then u64 else u32
  let low ← size
  if hasMax then
    let high ← size
    check (low ≤ high)
    return (low, some high)
  else return (low, none)

def flagged (flags bit : UInt8) : Bool := flags &&& bit != 0

/-- The greatest initial size of a table. -/
def maxTableSize : Nat := 10000000

def tableType : Reader TableType := do
  let element ← heapType
  let flags ← byte
  check (flags &&& 0xfa == 0)
  let is64 := flagged flags 4
  let (low, _) ← limits (flagged flags 1) is64
  check (low ≤ maxTableSize)
  return ⟨element, is64⟩

/-- Memory is counted in pages of 64 KiB; shared memory needs a maximum. -/
def memoryType : Reader MemoryType := do
  let flags ← byte
  check (flags &&& 0xf8 == 0)
  let is64 := flagged flags 4
  let bound := if is64 then 0x1000000000000 else 0x10000
  let (low, high) ← limits (flagged flags 1) is64
  check (low ≤ bound && high.all (· ≤ bound))
  check (!flagged flags 2 || high.isSome)
  return ⟨is64⟩

def globalType : Reader GlobalType := do
  let type ← valType
  let m ← byte
  check (m ≤ 1)
  return ⟨type, m == 1⟩

end Reader

end ContractBuild.Wasm

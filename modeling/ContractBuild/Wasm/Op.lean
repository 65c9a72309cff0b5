import ContractBuild.Wasm.Types

/-!
Operators of function bodies and constant expressions.

An operator keeps what typing and reachability need: its types, indices and alignment. Values of
constants and offsets of accesses are read and dropped.
-/

namespace ContractBuild.Wasm

inductive BlockType where
  | empty
  | value (t : ValType)
  | func (index : Nat)

inductive Op where
  | unreachable
  | nop
  | block (t : BlockType)
  | loop (t : BlockType)
  | ifThen (t : BlockType)
  | otherwise
  | close
  | br (label : Nat)
  | brIf (label : Nat)
  | brTable (labels : List Nat) (last : Nat)
  | ret
  | call (function : Nat)
  | callIndirect (type table : Nat)
  | returnCall (function : Nat)
  | returnCallIndirect (type table : Nat)
  | drop
  | select
  | selectTyped (types : List ValType)
  | localGet (i : Nat)
  | localSet (i : Nat)
  | localTee (i : Nat)
  | globalGet (i : Nat)
  | globalSet (i : Nat)
  | tableGet (i : Nat)
  | tableSet (i : Nat)
  /-- An access to memory: the alignment written, as an exponent, and the natural one. -/
  | load (t : ValType) (align natural memory offset : Nat)
  | store (t : ValType) (align natural memory offset : Nat)
  | memorySize (memory : Nat)
  | memoryGrow (memory : Nat)
  | const (t : ValType)
  | numeric (code : Nat) (args : List ValType) (result : ValType)
  | refNull (h : Heap)
  | refIsNull
  | refFunc (function : Nat)
  | memoryInit (segment memory : Nat)
  | dataDrop (segment : Nat)
  | memoryCopy (target source : Nat)
  | memoryFill (memory : Nat)
  | tableInit (segment table : Nat)
  | elemDrop (segment : Nat)
  | tableCopy (target source : Nat)
  | tableGrow (table : Nat)
  | tableSize (table : Nat)
  | tableFill (table : Nat)

namespace Op

/-- The operand and result types of an arithmetic operator. -/
def signature? (code : Nat) : Option (List ValType × ValType) :=
  let within (lo hi : Nat) : Bool := lo ≤ code && code ≤ hi
  let unary (t r : ValType) : Option (List ValType × ValType) := some ([t], r)
  let binary (t r : ValType) : Option (List ValType × ValType) := some ([t, t], r)
  if code = 0x45 then unary .i32 .i32
  else if within 0x46 0x4f then binary .i32 .i32
  else if code = 0x50 then unary .i64 .i32
  else if within 0x51 0x5a then binary .i64 .i32
  else if within 0x5b 0x60 then binary .f32 .i32
  else if within 0x61 0x66 then binary .f64 .i32
  else if within 0x67 0x69 then unary .i32 .i32
  else if within 0x6a 0x78 then binary .i32 .i32
  else if within 0x79 0x7b then unary .i64 .i64
  else if within 0x7c 0x8a then binary .i64 .i64
  else if within 0x8b 0x91 then unary .f32 .f32
  else if within 0x92 0x98 then binary .f32 .f32
  else if within 0x99 0x9f then unary .f64 .f64
  else if within 0xa0 0xa6 then binary .f64 .f64
  else if code = 0xa7 then unary .i64 .i32
  else if within 0xa8 0xa9 then unary .f32 .i32
  else if within 0xaa 0xab then unary .f64 .i32
  else if within 0xac 0xad then unary .i32 .i64
  else if within 0xae 0xaf then unary .f32 .i64
  else if within 0xb0 0xb1 then unary .f64 .i64
  else if within 0xb2 0xb3 then unary .i32 .f32
  else if within 0xb4 0xb5 then unary .i64 .f32
  else if code = 0xb6 then unary .f64 .f32
  else if within 0xb7 0xb8 then unary .i32 .f64
  else if within 0xb9 0xba then unary .i64 .f64
  else if code = 0xbb then unary .f32 .f64
  else if code = 0xbc then unary .f32 .i32
  else if code = 0xbd then unary .f64 .i64
  else if code = 0xbe then unary .i32 .f32
  else if code = 0xbf then unary .i64 .f64
  else if within 0xc0 0xc1 then unary .i32 .i32
  else if within 0xc2 0xc4 then unary .i64 .i64
  else none

/-- The value type and the natural alignment of a load. -/
def loadType? (code : Nat) : Option (ValType × Nat) :=
  match code with
  | 0x28 => some (.i32, 2)
  | 0x29 => some (.i64, 3)
  | 0x2a => some (.f32, 2)
  | 0x2b => some (.f64, 3)
  | 0x2c | 0x2d => some (.i32, 0)
  | 0x2e | 0x2f => some (.i32, 1)
  | 0x30 | 0x31 => some (.i64, 0)
  | 0x32 | 0x33 => some (.i64, 1)
  | 0x34 | 0x35 => some (.i64, 2)
  | _ => none

def storeType? (code : Nat) : Option (ValType × Nat) :=
  match code with
  | 0x36 => some (.i32, 2)
  | 0x37 => some (.i64, 3)
  | 0x38 => some (.f32, 2)
  | 0x39 => some (.f64, 3)
  | 0x3a => some (.i32, 0)
  | 0x3b => some (.i32, 1)
  | 0x3c => some (.i64, 0)
  | 0x3d => some (.i64, 1)
  | 0x3e => some (.i64, 2)
  | _ => none

open Reader

def blockType : Reader BlockType := do
  let b ← peek
  if b == 0x40 then
    let _ ← byte
    return .empty
  else match ValType.ofByte? b with
    | some t =>
      let _ ← byte
      return .value t
    | none =>
      let i ← s33
      check (0 ≤ i)
      return .func i.toNat

/-- Alignment, memory and offset of an access. -/
def access : Reader (Nat × Nat × Nat) := do
  let flags ← u32
  let memory ← if flags / 64 % 2 = 1 then u32 else pure 0
  let align := if flags / 64 % 2 = 1 then flags - 64 else flags
  check (align < 64)
  return (align, memory, ← u64)

/-- The most labels of a branch table. -/
def maxLabels : Nat := 128 * 1024

def branchTable : Reader Op := do
  let n ← u32
  check (n ≤ maxLabels)
  let labels ← times u32 n
  return .brTable labels (← u32)

/-- Operators behind the byte `0xfc`. -/
def extended : Reader Op := do
  let code ← u32
  match code with
  | 0 | 1 => return .numeric code [.f32] .i32
  | 2 | 3 => return .numeric code [.f64] .i32
  | 4 | 5 => return .numeric code [.f32] .i64
  | 6 | 7 => return .numeric code [.f64] .i64
  | 8 => do
    let segment ← u32
    return .memoryInit segment (← u32)
  | 9 => return .dataDrop (← u32)
  | 10 => do
    let target ← u32
    return .memoryCopy target (← u32)
  | 11 => return .memoryFill (← u32)
  | 12 => do
    let segment ← u32
    return .tableInit segment (← u32)
  | 13 => return .elemDrop (← u32)
  | 14 => do
    let target ← u32
    return .tableCopy target (← u32)
  | 15 => return .tableGrow (← u32)
  | 16 => return .tableSize (← u32)
  | 17 => return .tableFill (← u32)
  | _ => failure

/-- Operators known by their numeric, load or store tables. -/
def tabled (code : Nat) : Reader Op := do
  match signature? code, loadType? code, storeType? code with
  | some (args, result), _, _ => return .numeric code args result
  | _, some (t, natural), _ => do
    let (align, memory, offset) ← access
    return .load t align natural memory offset
  | _, _, some (t, natural) => do
    let (align, memory, offset) ← access
    return .store t align natural memory offset
  | _, _, _ => failure

def read : Reader Op := do
  let code ← byte
  match code.toNat with
  | 0x00 => return .unreachable
  | 0x01 => return .nop
  | 0x02 => return .block (← blockType)
  | 0x03 => return .loop (← blockType)
  | 0x04 => return .ifThen (← blockType)
  | 0x05 => return .otherwise
  | 0x0b => return .close
  | 0x0c => return .br (← u32)
  | 0x0d => return .brIf (← u32)
  | 0x0e => branchTable
  | 0x0f => return .ret
  | 0x10 => return .call (← u32)
  | 0x11 => do
    let type ← u32
    return .callIndirect type (← u32)
  | 0x12 => return .returnCall (← u32)
  | 0x13 => do
    let type ← u32
    return .returnCallIndirect type (← u32)
  | 0x1a => return .drop
  | 0x1b => return .select
  | 0x1c => return .selectTyped (← vector valType)
  | 0x20 => return .localGet (← u32)
  | 0x21 => return .localSet (← u32)
  | 0x22 => return .localTee (← u32)
  | 0x23 => return .globalGet (← u32)
  | 0x24 => return .globalSet (← u32)
  | 0x25 => return .tableGet (← u32)
  | 0x26 => return .tableSet (← u32)
  | 0x3f => return .memorySize (← u32)
  | 0x40 => return .memoryGrow (← u32)
  | 0x41 => do
    let _ ← s32
    return .const .i32
  | 0x42 => do
    let _ ← s64
    return .const .i64
  | 0x43 => do
    let _ ← take 4
    return .const .f32
  | 0x44 => do
    let _ ← take 8
    return .const .f64
  | 0xd0 => return .refNull (← heapType)
  | 0xd1 => return .refIsNull
  | 0xd2 => return .refFunc (← u32)
  | 0xfc => extended
  | code => tabled code

/-- The operators of a constant expression, up to the one that closes it. -/
def readExpr : Nat → Reader (List Op)
  | 0 => failure
  | fuel + 1 => do
    match ← read with
    | .close => return []
    | op => return op :: (← readExpr fuel)

/-- A constant expression at the front of the bytes. -/
def expr : Reader (List Op) := fun bs => readExpr bs.length bs

/-- All operators of some bytes. -/
def readAll (bs : Bytes) : Option (List Op) := many read bs.length bs

/-- The function that an operator calls or refers to. -/
def function? : Op → Option Nat
  | .call f | .returnCall f | .refFunc f => some f
  | _ => none

end Op

end ContractBuild.Wasm

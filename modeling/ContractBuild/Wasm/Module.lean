import ContractBuild.Wasm.Op
import ContractBuild.Wasm.Parser

/-!
The items of the sections of a module.
-/

namespace ContractBuild.Wasm

inductive ImportType where
  | function (type : Nat)
  | table (t : TableType)
  | memory (t : MemoryType)
  | global (t : GlobalType)
  | tag (type : Nat)

structure Export where
  name : String
  kind : ExternalKind
  index : Nat

/-- When the elements of a segment are put into a table. -/
inductive ElementMode where
  | active (table : Nat) (offset : List Op)
  | passive
  | declared

inductive ElementItems where
  | functions (indices : List Nat)
  | exprs (type : Heap) (items : List (List Op))

structure Element where
  mode : ElementMode
  items : ElementItems

inductive DataMode where
  | active (memory : Nat) (offset : List Op)
  | passive

/-- Section identifiers in the order in which sections have to come. -/
def sectionOrder : List UInt8 := [1, 2, 3, 4, 5, 13, 6, 7, 8, 9, 12, 10, 11]

namespace Items

open Reader

def tagType : Reader Nat := do
  check ((← byte) == 0)
  u32

def importType : Reader ImportType := do
  match (← byte).toNat with
  | 0 => return .function (← u32)
  | 1 => return .table (← tableType)
  | 2 => return .memory (← memoryType)
  | 3 => return .global (← globalType)
  | 4 => return .tag (← tagType)
  | _ => failure

def importItem : Reader ImportType := do
  let _ ← name
  let _ ← name
  importType

/-- A table type with an initial value, if one is given. -/
def tableItem : Reader (TableType × Option (List Op)) := do
  if (← peek) == 0x40 then
    let _ ← byte
    check ((← byte) == 0)
    let t ← tableType
    return (t, some (← Op.expr))
  else return (← tableType, none)

def globalItem : Reader (GlobalType × List Op) := do
  let t ← globalType
  return (t, ← Op.expr)

def exportKind : Reader ExternalKind := do
  match (← byte).toNat with
  | 0 => return .function
  | 1 => return .table
  | 2 => return .memory
  | 3 => return .global
  | 4 => return .tag
  | _ => failure

def exportItem : Reader Export := do
  let n ← name
  let kind ← exportKind
  return ⟨n, kind, ← u32⟩

def elementMode (flags : Nat) : Reader ElementMode := do
  if flags % 2 = 1 then return if flags / 2 % 2 = 1 then .declared else .passive
  else
    let table ← if flags / 2 % 2 = 1 then u32 else pure 0
    return .active table (← Op.expr)

/-- A segment: its flags say whether it is active, which table it names, and how items are given. -/
def elementItem : Reader Element := do
  let flags ← u32
  check (flags < 8)
  let mode ← elementMode flags
  let typed := flags % 4 ≠ 0
  if flags / 4 = 1 then
    let t ← if typed then heapType else pure .func
    return ⟨mode, .exprs t (← vector Op.expr)⟩
  else
    if typed then check ((← byte) == 0)
    return ⟨mode, .functions (← vector u32)⟩

def dataItem : Reader DataMode := do
  let mode ← match ← u32 with
    | 0 => pure (.active 0 (← Op.expr))
    | 1 => pure .passive
    | 2 => do
      let memory ← u32
      pure (.active memory (← Op.expr))
    | _ => failure
  let _ ← Section.sized
  return mode

end Items

end ContractBuild.Wasm

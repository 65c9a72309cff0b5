import ContractBuild.Wasm.Op

/-!
Typing of function bodies and constant expressions.

A body is checked operator by operator against a stack of operand types and a stack of open blocks.
Past a jump the operands are unknown and match any type.
-/

namespace ContractBuild.Wasm

/-- What the sections before the code declare. -/
structure Env where
  types : List FuncType := []
  /-- The types of imported and defined functions. -/
  functions : List FuncType := []
  tables : List TableType := []
  memories : List MemoryType := []
  tags : List FuncType := []
  globals : List GlobalType := []
  /-- The functions that a body may refer to. -/
  referable : List Nat := []
  elements : List Heap := []
  dataCount : Option Nat := none
  dataSegments : Nat := 0
  exports : List String := []
  /-- The types of the functions whose bodies are still to come. -/
  pending : Option (List FuncType) := none

namespace Typing

structure Frame where
  params : List ValType
  results : List ValType
  isLoop : Bool
  isIf : Bool
  height : Nat
  unreachable : Bool

/-- The types that a jump to a block has to bring. -/
def Frame.label (f : Frame) : List ValType := if f.isLoop then f.params else f.results

/-- Operand types, the last one first and unknown ones as `none`, and open blocks, inner ones
first. -/
structure St where
  stack : List (Option ValType)
  frames : List Frame

namespace St

def push (s : St) (t : Option ValType) : St := { s with stack := t :: s.stack }

def pushAll (s : St) (ts : List ValType) : St :=
  { s with stack := (ts.map some).reverse ++ s.stack }

/-- Pops an operand of any type. -/
def popAny (s : St) : Option (Option ValType × St) :=
  match s.frames with
  | [] => none
  | f :: _ =>
    if s.stack.length ≤ f.height then if f.unreachable then some (none, s) else none
    else match s.stack with
      | t :: r => some (t, { s with stack := r })
      | [] => none

def pop (s : St) (t : ValType) : Option St :=
  match s.popAny with
  | some (none, s) => some s
  | some (some u, s) => if u.isSub t then some s else none
  | none => none

def popAll (s : St) (ts : List ValType) : Option St := ts.reverse.foldlM pop s

def apply (s : St) (args results : List ValType) : Option St :=
  (s.popAll args).map (·.pushAll results)

/-- What follows is never reached. -/
def halt (s : St) : St :=
  match s.frames with
  | f :: r =>
    { stack := s.stack.drop (s.stack.length - f.height), frames := { f with unreachable := true } :: r }
  | [] => s

def enter (s : St) (params results : List ValType) (isLoop isIf : Bool) : Option St :=
  (s.popAll params).map fun s =>
    { s.pushAll params with
      frames := ⟨params, results, isLoop, isIf, s.stack.length, false⟩ :: s.frames }

/-- Leaves the innermost block, whose results have to be all that is left in it. -/
def leave (s : St) : Option (Frame × St) :=
  match s.frames with
  | [] => none
  | f :: r =>
    match s.popAll f.results with
    | none => none
    | some s => if s.stack.length = f.height then some (f, { s with frames := r }) else none

def label (s : St) (depth : Nat) : Option (List ValType) := s.frames[depth]?.map Frame.label

end St

def blockTypes (env : Env) : BlockType → Option (List ValType × List ValType)
  | .empty => some ([], [])
  | .value t => some ([], [t])
  | .func i => env.types[i]?.map fun t => (t.params, t.results)

def subAll (as bs : List ValType) : Bool :=
  as.length == bs.length && (as.zip bs).all fun p => p.1.isSub p.2

/-- Checks the labels of a branch table against the operands, which stay. -/
def checkLabels (s : St) (arity : Nat) (labels : List Nat) : Option Unit :=
  labels.forM fun l =>
    match s.label l with
    | none => none
    | some ts => if ts.length = arity then (s.popAll ts).map fun _ => () else none

def closeBlock (s : St) : Option St :=
  match s.leave with
  | none => none
  | some (f, s) =>
    if f.isIf && !subAll f.params f.results then none else some (s.pushAll f.results)

def otherwiseBlock (s : St) : Option St :=
  match s.leave with
  | none => none
  | some (f, s) =>
    if f.isIf then
      some { s.pushAll f.params with
        frames := ⟨f.params, f.results, false, false, s.stack.length, false⟩ :: s.frames }
    else none

def select (s : St) : Option St := do
  let s ← s.pop .i32
  let (a, s) ← s.popAny
  let (b, s) ← s.popAny
  match a, b with
  | some a, some b => if a = b && !a.isRef then some (s.push (some a)) else none
  | some a, none | none, some a => if a.isRef then none else some (s.push (some a))
  | none, none => some (s.push none)

/-- The address type of a memory, if the access is aligned and in range for it. -/
def accessType (env : Env) (align natural memory offset : Nat) : Option ValType :=
  match env.memories[memory]? with
  | none => none
  | some m =>
    if align ≤ natural && (m.is64 || offset < UInt32.size) then some (addressType m.is64) else none

def memoryAddress (env : Env) (i : Nat) : Option ValType :=
  env.memories[i]?.map fun m => addressType m.is64

def tableAddress (t : TableType) : ValType := addressType t.is64

/-- The type of a length that has to fit two address types. -/
def lengthType (a b : ValType) : ValType := if a = .i64 then b else a

/-- The results of the function whose body is checked. -/
def St.returns (s : St) : List ValType := (s.frames.getLast?.map (·.results)).getD []

def callThrough (env : Env) (s : St) (type table : Nat) : Option (FuncType × St) := do
  let t ← env.tables[table]?
  let f ← env.types[type]?
  if !t.element.isSub .func then none
  return (f, ← s.pop (tableAddress t))

def returnTo (s : St) (f : FuncType) : Option St :=
  if subAll f.results s.returns then (s.popAll f.params).map St.halt else none

def step (env : Env) (locals : List ValType) (s : St) (op : Op) : Option St := do
  match op with
  | .unreachable => some s.halt
  | .nop => some s
  | .block t =>
    let (ps, rs) ← blockTypes env t
    s.enter ps rs false false
  | .loop t =>
    let (ps, rs) ← blockTypes env t
    s.enter ps rs true false
  | .ifThen t =>
    let (ps, rs) ← blockTypes env t
    (← s.pop .i32).enter ps rs false true
  | .otherwise => otherwiseBlock s
  | .close => closeBlock s
  | .br l => (s.popAll (← s.label l)).map St.halt
  | .brIf l =>
    let ts ← s.label l
    (← s.pop .i32).apply ts ts
  | .brTable ls last =>
    let ts ← s.label last
    let s ← s.pop .i32
    checkLabels s ts.length ls
    (s.popAll ts).map St.halt
  | .ret => (s.popAll s.returns).map St.halt
  | .call f =>
    let t ← env.functions[f]?
    s.apply t.params t.results
  | .callIndirect type table =>
    let (t, s) ← callThrough env s type table
    s.apply t.params t.results
  | .returnCall f => returnTo s (← env.functions[f]?)
  | .returnCallIndirect type table =>
    let (t, s) ← callThrough env s type table
    returnTo s t
  | .drop => s.popAny.map (·.2)
  | .select => select s
  | .selectTyped ts =>
    match ts with
    | [t] => s.apply [t, t, .i32] [t]
    | _ => none
  | .localGet i => s.apply [] [← locals[i]?]
  | .localSet i => s.apply [← locals[i]?] []
  | .localTee i =>
    let t ← locals[i]?
    s.apply [t] [t]
  | .globalGet i => s.apply [] [(← env.globals[i]?).type]
  | .globalSet i =>
    let g ← env.globals[i]?
    if g.isMutable then s.apply [g.type] [] else none
  | .tableGet i =>
    let t ← env.tables[i]?
    s.apply [tableAddress t] [.ref t.element]
  | .tableSet i =>
    let t ← env.tables[i]?
    s.apply [tableAddress t, .ref t.element] []
  | .load t align natural memory offset =>
    s.apply [← accessType env align natural memory offset] [t]
  | .store t align natural memory offset =>
    s.apply [← accessType env align natural memory offset, t] []
  | .memorySize m => s.apply [] [← memoryAddress env m]
  | .memoryGrow m =>
    let a ← memoryAddress env m
    s.apply [a] [a]
  | .const t => s.apply [] [t]
  | .numeric _ args result => s.apply args [result]
  | .refNull h => s.apply [] [.ref h]
  | .refIsNull =>
    match ← s.popAny with
    | (some (.ref _), s) | (none, s) => some (s.push (some .i32))
    | _ => none
  | .refFunc f =>
    if f < env.functions.length && env.referable.contains f then s.apply [] [.ref .func] else none
  | .memoryInit segment m =>
    let a ← memoryAddress env m
    if segment < (← env.dataCount) then s.apply [a, .i32, .i32] [] else none
  | .dataDrop segment => if segment < (← env.dataCount) then some s else none
  | .memoryCopy target source =>
    let a ← memoryAddress env target
    let b ← memoryAddress env source
    s.apply [a, b, lengthType a b] []
  | .memoryFill m =>
    let a ← memoryAddress env m
    s.apply [a, .i32, a] []
  | .tableInit segment table =>
    let t ← env.tables[table]?
    if (← env.elements[segment]?).isSub t.element then
      s.apply [tableAddress t, .i32, .i32] []
    else none
  | .elemDrop segment => if segment < env.elements.length then some s else none
  | .tableCopy target source =>
    let t ← env.tables[target]?
    let u ← env.tables[source]?
    if u.element.isSub t.element then
      s.apply [tableAddress t, tableAddress u, lengthType (tableAddress t) (tableAddress u)] []
    else none
  | .tableGrow table =>
    let t ← env.tables[table]?
    s.apply [.ref t.element, tableAddress t] [tableAddress t]
  | .tableSize table => s.apply [] [tableAddress (← env.tables[table]?)]
  | .tableFill table =>
    let t ← env.tables[table]?
    s.apply [tableAddress t, .ref t.element, tableAddress t] []

/-- A step inside the body; nothing may follow its end. -/
def stepWithin (env : Env) (locals : List ValType) (s : St) (op : Op) : Option St :=
  if s.frames.isEmpty then none else step env locals s op

/-- Whether operators form a body with the given locals and results. -/
def checkOps (env : Env) (locals results : List ValType) (ops : List Op) : Bool :=
  let start : St := ⟨[], [⟨[], results, false, false, 0, false⟩]⟩
  match ops.foldlM (stepWithin env locals) start with
  | some s => s.frames.isEmpty
  | none => false

/-- The most locals of a function, its parameters included. -/
def maxLocals : Nat := 50000

/-- Declared locals after `known` ones. -/
def readLocals : Nat → List ValType → Reader (List ValType)
  | 0, known => pure known
  | n + 1, known => do
    let count ← Reader.u32
    let t ← Reader.valType
    Reader.check (known.length + count ≤ maxLocals)
    readLocals n (known ++ List.replicate count t)

/-- The locals of a body and the bytes of its operators. -/
def splitBody (params : List ValType) (body : Bytes) : Option (List ValType × Bytes) :=
  (do readLocals (← Reader.u32) params : Reader (List ValType)) body

/-- The largest body of a function, in bytes. -/
def maxBodySize : Nat := 128 * 1024

def checkBody (env : Env) (t : FuncType) (body : Bytes) : Bool :=
  match splitBody t.params body with
  | none => false
  | some (locals, code) =>
    match Op.readAll code with
    | none => false
    | some ops => body.length ≤ maxBodySize && checkOps env locals t.results ops

/-- The type that one operator of a constant expression leaves on the types before it. -/
def constStep (env : Env) (stack : List ValType) (op : Op) : Option (List ValType) :=
  match op, stack with
  | .const t, _ => some (t :: stack)
  | .refNull h, _ => some (.ref h :: stack)
  | .refFunc f, _ => if f < env.functions.length then some (.ref .func :: stack) else none
  | .globalGet i, _ =>
    match env.globals[i]? with
    | some g => if g.isMutable then none else some (g.type :: stack)
    | none => none
  | .numeric code _ result, a :: b :: r =>
    let isExtended := [0x6a, 0x6b, 0x6c, 0x7c, 0x7d, 0x7e].contains code
    if isExtended && a = result && b = result then some (result :: r) else none
  | _, _ => none

/-- Whether a constant expression has a type. -/
def checkExpr (env : Env) (t : ValType) (ops : List Op) : Bool :=
  match ops.foldlM (constStep env) [] with
  | some [u] => u.isSub t
  | _ => false

end Typing

end ContractBuild.Wasm

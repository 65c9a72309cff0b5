import ContractBuild.Wasm.Module
import ContractBuild.Wasm.Typing

/-!
Validity of binaries: sections in order, every index and type in place, every body well typed.

Of components only those without any content are accepted.
-/

namespace ContractBuild.Wasm.Valid

open ContractBuild.Wasm.Typing

def functionsIn (ops : List Op) : List Nat := ops.filterMap Op.function?

/-- Lets bodies refer to the functions that a constant expression refers to. -/
def refer (env : Env) (ops : List Op) : Env :=
  { env with referable := env.referable ++ functionsIn ops }

def addFunction (env : Env) (type : Nat) : Option Env :=
  env.types[type]?.map fun t => { env with functions := env.functions ++ [t] }

def addTag (env : Env) (type : Nat) : Option Env :=
  match env.types[type]? with
  | some t => if t.results.isEmpty then some { env with tags := env.tags ++ [t] } else none
  | none => none

/-- The most tables, and the most memories. -/
def maxSpaces : Nat := 100

def addTable (env : Env) (t : TableType) : Option Env :=
  if env.tables.length < maxSpaces then some { env with tables := env.tables ++ [t] } else none

def addMemory (env : Env) (m : MemoryType) : Option Env :=
  if env.memories.length < maxSpaces then some { env with memories := env.memories ++ [m] } else none

def addImport (env : Env) : ImportType → Option Env
  | .function type => addFunction env type
  | .table t => addTable env t
  | .memory m => addMemory env m
  | .global g => some { env with globals := env.globals ++ [g] }
  | .tag type => addTag env type

def addTableItem (env : Env) (item : TableType × Option (List Op)) : Option Env :=
  match item.2 with
  | none => addTable env item.1
  | some init =>
    if checkExpr env (.ref item.1.element) init then addTable (refer env init) item.1 else none

def addGlobal (env : Env) (item : GlobalType × List Op) : Option Env :=
  if checkExpr env item.1.type item.2 then
    let env := refer env item.2
    some { env with globals := env.globals ++ [item.1] }
  else none

def exportBound (env : Env) : ExternalKind → Nat
  | .function => env.functions.length
  | .table => env.tables.length
  | .memory => env.memories.length
  | .global => env.globals.length
  | .tag => env.tags.length

def addExport (env : Env) (e : Export) : Option Env :=
  if e.index < exportBound env e.kind && !env.exports.contains e.name then
    let referable := if e.kind = .function then env.referable ++ [e.index] else env.referable
    some { env with exports := env.exports ++ [e.name], referable }
  else none

def checkStart (env : Env) (f : Nat) : Bool :=
  match env.functions[f]? with
  | some t => t.params.isEmpty && t.results.isEmpty
  | none => false

def elementType : ElementItems → Heap
  | .functions _ => .func
  | .exprs t _ => t

def checkElementMode (env : Env) (type : Heap) : ElementMode → Bool
  | .active table offset =>
    match env.tables[table]? with
    | some t => type.isSub t.element && checkExpr env (tableAddress t) offset
    | none => false
  | .passive | .declared => true

def checkItems (env : Env) : ElementItems → Bool
  | .functions fs => fs.all (· < env.functions.length)
  | .exprs t es => es.all fun e => checkExpr env (.ref t) e

/-- The functions that a segment lists. -/
def listed : ElementItems → List Nat
  | .functions fs => fs
  | .exprs _ es => es.flatMap functionsIn

def addElement (env : Env) (e : Element) : Option Env :=
  let type := elementType e.items
  if checkElementMode env type e.mode && checkItems env e.items then
    some { env with
      elements := env.elements ++ [type]
      referable := env.referable ++ listed e.items }
  else none

def addData (env : Env) (d : DataMode) : Option Env :=
  let fits := match d with
    | .passive => true
    | .active memory offset =>
      match env.memories[memory]? with
      | some m => checkExpr env (addressType m.is64) offset
      | none => false
  if fits then some { env with dataSegments := env.dataSegments + 1 } else none

/-- Reads the items of a section and adds each to what is known. -/
def addAll {α : Type} (item : Reader α) (add : Env → α → Option Env) (env : Env) (payload : Bytes) :
    Option Env :=
  match Reader.whole (Reader.vector item) payload with
  | some items => items.foldlM add env
  | none => none

/-- The function section announces the types of the bodies to come. -/
def addFunctions (env : Env) (payload : Bytes) : Option Env := do
  let types ← Reader.whole (Reader.vector Reader.u32) payload
  let env ← types.foldlM addFunction env
  return { env with pending := some (env.functions.drop (env.functions.length - types.length)) }

def addOther (env : Env) (id : UInt8) (payload : Bytes) : Option Env :=
  match id.toNat with
  | 1 =>
    addAll Reader.funcType (fun e t => some { e with types := e.types ++ [t] }) env payload
  | 2 => addAll Items.importItem addImport env payload
  | 3 => addFunctions env payload
  | 4 => addAll Items.tableItem addTableItem env payload
  | 5 => addAll Reader.memoryType addMemory env payload
  | 6 => addAll Items.globalItem addGlobal env payload
  | 7 => addAll Items.exportItem addExport env payload
  | 8 =>
    match Reader.whole Reader.u32 payload with
    | some f => if checkStart env f then some env else none
    | none => none
  | 9 => addAll Items.elementItem addElement env payload
  | 11 => addAll Items.dataItem addData env payload
  | 12 => (Reader.whole Reader.u32 payload).map fun n => { env with dataCount := some n }
  | 13 => addAll Items.tagType addTag env payload
  | _ => none

/-- Each announced function has one body. -/
def addCode (env : Env) (bodies : List Bytes) : Option Env :=
  let types := env.pending.getD []
  if types.length = bodies.length && (types.zip bodies).all fun p => checkBody env p.1 p.2 then
    some { env with pending := none }
  else none

/-- What is known so far, and the place of the last section in the order. -/
structure St where
  env : Env := {}
  place : Nat := 0

/-- The place of a section in the order, counted from one. -/
def placeOf (id : UInt8) : Nat := sectionOrder.idxOf id + 1

def step (s : St) (sec : Section) : Option St :=
  match sec with
  | .custom _ _ => some s
  | .code bodies =>
    let place := placeOf Section.codeId
    if s.place < place then (addCode s.env bodies).map fun env => ⟨env, place⟩ else none
  | .other id payload =>
    let place := placeOf id
    if s.place < place then (addOther s.env id payload).map fun env => ⟨env, place⟩ else none

/-- Nothing announced is missing. -/
def isComplete (env : Env) : Bool :=
  (env.pending.getD []).isEmpty && env.dataCount.all (· == env.dataSegments)

def checkModule (sections : List Section) : Bool :=
  match sections.foldlM step {} with
  | some s => isComplete s.env
  | none => false

def isCustom : Section → Bool
  | .custom _ _ => true
  | _ => false

end Valid

/-- Whether bytes are a valid binary. -/
def isValid (bs : Bytes) : Bool :=
  match readBinary bs with
  | none => false
  | some b =>
    b.version == b.layer.version &&
      match b.layer with
      | .module => Valid.checkModule b.sections
      | .component => b.sections.all Valid.isCustom

end ContractBuild.Wasm

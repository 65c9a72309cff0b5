import ContractBuild.Wasm.Passes
import ContractBuild.Wasm.Valid

/-!
A parser for modules with the features of the core language up to multiple memories, tail calls and
bulk operations. It gives one text for every error.
-/

namespace ContractBuild.Wasm

/-- The functions that an operator names. -/
def Op.operator : Op → Operator
  | .call f => .call f
  | .returnCall f => .returnCall f
  | .refFunc f => .refFunc f
  | _ => .other

namespace Standard

def orReason {α : Type} (a : Option α) : Except String α :=
  match a with
  | some a => .ok a
  | none => .error "<wasm error>"

def operators (ops : List Op) : List Operator := ops.map Op.operator

/-- The operators of a body, after its locals. -/
def bodyOps (body : Bytes) : Option (List Op) :=
  let skipLocals : Reader (List (Nat × ValType)) := Reader.vector do
    let n ← Reader.u32
    return (n, ← Reader.valType)
  match skipLocals body with
  | some (_, code) => Op.readAll code
  | none => none

def body (b : Bytes) : Body := ⟨b, orReason ((bodyOps b).map operators)⟩

def items {α : Type} (item : Reader α) (content : Bytes) : Option (List α) :=
  Reader.whole (Reader.vector item) content

def importKind : ImportType → ExternalKind
  | .function _ => .function
  | .table _ => .table
  | .memory _ => .memory
  | .global _ => .global
  | .tag _ => .tag

def segment (e : Element) : Segment :=
  match e.items with
  | .functions fs => .functions fs
  | .exprs _ es => .exprs (es.map operators)

/-- What a section says, unless it cannot be read. -/
def told? (id : UInt8) (content : Bytes) : Option Told :=
  match id.toNat with
  | 2 => (items Items.importItem content).map fun is => .imports (is.map importKind)
  | 4 => (items Items.tableItem content).map fun ts => .tables (ts.map fun t => t.2.map operators)
  | 6 => (items Items.globalItem content).map fun gs => .globals (gs.map fun g => operators g.2)
  | 7 => (items Items.exportItem content).map fun es => .exports (es.map fun e => (e.kind, e.index))
  | 8 => (Reader.whole Reader.u32 content).map .start
  | 9 => (items Items.elementItem content).map fun es => .elements (es.map segment)
  | _ => some .nothing

/-- Whether the length in front of a section's items, or its only number, can be read. -/
def isFramed (id : UInt8) (content : Bytes) : Bool :=
  if id = 8 || id = 12 then (Reader.whole Reader.u32 content).isSome
  else if id ≤ 13 then (Reader.u32 content).isSome
  else true

def parts : Section → List (Except String Payload)
  | .custom name data => [.ok (.custom name data)]
  | .code bodies => .ok (.code bodies.length) :: bodies.map fun b => .ok (.body (body b))
  | .other id content =>
    [if isFramed id content then .ok (.other id content (orReason (told? id content)))
      else orReason none]

def payloads (bs : Bytes) : List (Except String Payload) :=
  match readBinary bs with
  | none => [orReason none]
  | some ⟨.component, _, _⟩ => [.ok (.version .component)]
  | some ⟨.module, _, sections⟩ => .ok (.version .module) :: sections.flatMap parts

end Standard

def Parser.standard : Parser where
  validate bs := Standard.orReason (if isValid bs then some () else none)
  payloads := Standard.payloads

/-- The passes with the standard parser. -/
abbrev passes := Parser.standard.passes

/-- Optimizes without any external tool, with the standard parser. -/
abbrev optimize := Parser.standard.optimize

end ContractBuild.Wasm

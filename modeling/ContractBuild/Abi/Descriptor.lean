import ContractBuild.Abi.TypeTag
import ContractBuild.Python.Module
import ContractBuild.Text.Json

/-!
The ABI of a contract: the exported functions of its entry module with their kinds and types.
-/

namespace ContractBuild.Abi

open ContractBuild.Text
open ContractBuild.Text.Json (named member? memberOr? members? items? text? bool? orNull?
  named?)

inductive Kind where
  | view
  | call
  | init
  deriving DecidableEq

def Kind.text : Kind → String
  | view => "view"
  | call => "call"
  | init => "init"

def Kind.ofText? (s : String) : Option Kind :=
  match s with
  | "view" => some .view
  | "call" => some .call
  | "init" => some .init
  | _ => none

structure Argument where
  name : String
  type : String
  deriving DecidableEq

structure Method where
  name : String
  kind : Kind
  params : List Argument
  returns : Option String
  panics : Bool
  deriving DecidableEq

/-- The methods, and the digest of the source they were read from. -/
structure Descriptor where
  methods : List Method
  source : String
  deriving DecidableEq

/-! ### Writing -/

def Argument.toJson (a : Argument) : Json := .obj [("name", .str a.name), ("type", .str a.type)]

/-- The `panics` member is written only when it is true. -/
def Method.toJson (m : Method) : Json :=
  .obj ([("name", .str m.name), ("kind", .str m.kind.text),
    ("params", .arr (m.params.map Argument.toJson)),
    ("returns", match m.returns with | some t => .str t | none => .null)] ++
    if m.panics then [("panics", .bool true)] else [])

/-- The text of the ABI file. The digest is not part of it. -/
def Descriptor.toText (d : Descriptor) : String :=
  Json.render (.obj [("methods", .arr (d.methods.map Method.toJson))]) ++ "\n"

/-! ### Reading

Members that are not known are ignored. The members of an object may also be given as an array in
order.
-/

def Argument.ofJson? (j : Json.Loose) : Option Argument := do
  match ← members? ["name", "type"] j with
  | [name, type] => return ⟨← text? name, ← text? type⟩
  | _ => none

/-- The values of a method's members in order. An object may leave out `returns` and `panics`, and
an array `panics`. -/
def Method.members? : Json.Loose → Option (List Json.Loose)
  | .obj members => do
    let members ← named members
    return [← member? members "name", ← member? members "kind", ← member? members "params",
      ← memberOr? .null members "returns", ← memberOr? (.bool false) members "panics"]
  | .arr [name, kind, params, returns] => some [name, kind, params, returns, .bool false]
  | .arr [name, kind, params, returns, panics] => some [name, kind, params, returns, panics]
  | _ => none

def Method.ofJson? (j : Json.Loose) : Option Method := do
  match ← Method.members? j with
  | [name, kind, params, returns, panics] =>
    return {
      name := ← text? name
      kind := ← named? Kind.ofText? kind
      params := ← items? Argument.ofJson? params
      returns := ← orNull? text? returns
      panics := ← bool? panics }
  | _ => none

/-- A descriptor that is read has no digest. -/
def Descriptor.ofJson? (j : Json.Loose) : Option Descriptor := do
  match ← members? ["methods"] j with
  | [methods] => return ⟨← items? Method.ofJson? methods, ""⟩
  | _ => none

def Descriptor.ofText? (s : String) : Option Descriptor :=
  (Json.parse (Utf8.encode s)).bind Descriptor.ofJson?

/-! ### Faults -/

inductive Fault where
  | read (module path reason : String)
  | unreadable (module : String) (line : Nat) (reason : String)
  | conflictingKinds (function first second : String) (line : Nat)
  | duplicateInit (first second : String) (line : Nat)
  | duplicateMethod (name : String) (firstLine line : Nat)
  | variadic (function param : String) (line : Nat)
  | unsupportedType (function reason : String) (line : Nat)
  deriving DecidableEq

def Fault.message : Fault → String
  | .read module path reason => s!"Cannot read entry module {module} from {path}: {reason}"
  | .unreadable module line reason => s!"Cannot read entry module {module} (line {line}): {reason}"
  | .conflictingKinds f a b _ => s!"Function `{f}` is marked both `{a}` and `{b}`"
  | .duplicateInit a b _ => s!"`init` is declared on both `{a}` and `{b}`"
  | .duplicateMethod name a b =>
    s!"Exported method `{name}` is defined more than once (lines {a} and {b})"
  | .variadic f p _ => s!"Exported method `{f}` takes variadic parameter `{p}`"
  | .unsupportedType f reason _ => s!"Unsupported annotation in `{f}`: {reason}"

/-- The source line a fault points to. -/
def Fault.line : Fault → Option Nat
  | .read .. => none
  | .unreadable _ line _ | .conflictingKinds _ _ _ line | .duplicateInit _ _ line
  | .duplicateMethod _ _ line | .variadic _ _ line | .unsupportedType _ _ line => some line

end ContractBuild.Abi

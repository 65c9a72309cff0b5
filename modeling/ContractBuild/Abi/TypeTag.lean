import ContractBuild.Text.Nested

/-!
Type tags, the language-neutral reading of a type annotation.

A union lists each member once, takes over the members of the unions among them, and becomes an
optional type if a member is null or optional.
-/

namespace ContractBuild.Abi

open ContractBuild.Text

inductive Scalar where
  | str
  | int
  | float
  | bool
  | bytes
  | any
  | null
  | never
  | unknown
  deriving DecidableEq

inductive TypeTag where
  | scalar (s : Scalar)
  | list (item : TypeTag)
  | dict (key value : TypeTag)
  | tuple (items : List TypeTag)
  /-- A tuple of any length with items of one type. -/
  | tupleOf (item : TypeTag)
  | optional (inner : TypeTag)
  | union (members : List TypeTag)

def Scalar.text : Scalar → String
  | str => "str"
  | int => "int"
  | float => "float"
  | bool => "bool"
  | bytes => "bytes"
  | any => "any"
  | null => "None"
  | never => "never"
  | unknown => "unknown"

namespace TypeTag

mutual

def decEq : (a b : TypeTag) → Decidable (a = b)
  | .scalar s, .scalar t => decidable_of_iff (s = t) (by simp)
  | .list a, .list b => have := decEq a b; decidable_of_iff (a = b) (by simp)
  | .dict a b, .dict c d =>
    have := decEq a c
    have := decEq b d
    decidable_of_iff (a = c ∧ b = d) (by simp)
  | .tuple a, .tuple b => have := decEqAll a b; decidable_of_iff (a = b) (by simp)
  | .tupleOf a, .tupleOf b => have := decEq a b; decidable_of_iff (a = b) (by simp)
  | .optional a, .optional b => have := decEq a b; decidable_of_iff (a = b) (by simp)
  | .union a, .union b => have := decEqAll a b; decidable_of_iff (a = b) (by simp)
  | .scalar _, .list _ | .scalar _, .dict _ _ | .scalar _, .tuple _ | .scalar _, .tupleOf _
  | .scalar _, .optional _ | .scalar _, .union _
  | .list _, .scalar _ | .list _, .dict _ _ | .list _, .tuple _ | .list _, .tupleOf _
  | .list _, .optional _ | .list _, .union _
  | .dict _ _, .scalar _ | .dict _ _, .list _ | .dict _ _, .tuple _ | .dict _ _, .tupleOf _
  | .dict _ _, .optional _ | .dict _ _, .union _
  | .tuple _, .scalar _ | .tuple _, .list _ | .tuple _, .dict _ _ | .tuple _, .tupleOf _
  | .tuple _, .optional _ | .tuple _, .union _
  | .tupleOf _, .scalar _ | .tupleOf _, .list _ | .tupleOf _, .dict _ _ | .tupleOf _, .tuple _
  | .tupleOf _, .optional _ | .tupleOf _, .union _
  | .optional _, .scalar _ | .optional _, .list _ | .optional _, .dict _ _ | .optional _, .tuple _
  | .optional _, .tupleOf _ | .optional _, .union _
  | .union _, .scalar _ | .union _, .list _ | .union _, .dict _ _ | .union _, .tuple _
  | .union _, .tupleOf _ | .union _, .optional _ => .isFalse (by simp)

def decEqAll : (a b : List TypeTag) → Decidable (a = b)
  | [], [] => .isTrue rfl
  | [], _ :: _ | _ :: _, [] => .isFalse (by simp)
  | a :: r, b :: s =>
    have := decEq a b
    have := decEqAll r s
    decidable_of_iff (a = b ∧ r = s) (by simp)

end

instance : DecidableEq TypeTag := decEq

/-- The members that a type contributes to a union it takes part in. -/
def alternatives : TypeTag → List TypeTag
  | .union members => members
  | .optional inner => [inner, .scalar .null]
  | t => [t]

def insertNew (ts : List TypeTag) (t : TypeTag) : List TypeTag :=
  if t ∈ ts then ts else ts ++ [t]

/-- The union of types, each listed where it first occurs. -/
def unite (members : List TypeTag) : TypeTag :=
  let all := members.flatMap alternatives
  let distinct := (all.filter (· ≠ .scalar .null)).foldl insertNew []
  let nullable := TypeTag.scalar .null ∈ all
  match distinct with
  | [] => .scalar .null
  | [t] => if nullable then .optional t else t
  | ts => if nullable then .optional (.union ts) else .union ts

mutual

def render : TypeTag → String
  | .scalar s => s.text
  | .list item => s!"list[{render item}]"
  | .dict key value => s!"dict[{render key}, {render value}]"
  | .tuple items => "tuple[" ++ String.intercalate ", " (renderAll items) ++ "]"
  | .tupleOf item => s!"tuple[{render item}, ...]"
  | .optional inner => s!"optional[{render inner}]"
  | .union members => String.intercalate " | " (renderAll members)

def renderAll : List TypeTag → List String
  | [] => []
  | t :: r => render t :: renderAll r

end

mutual

/-- Whether the type of functions that never return occurs in a type. -/
def hasNever : TypeTag → Bool
  | .scalar s => s = .never
  | .list item | .tupleOf item | .optional item => hasNever item
  | .dict key value => hasNever key || hasNever value
  | .tuple items | .union items => anyHasNever items

def anyHasNever : List TypeTag → Bool
  | [] => false
  | t :: r => hasNever t || anyHasNever r

end

end TypeTag

inductive TypeFault where
  | empty
  | unbalancedSubscript (text : String)
  | unsupported (text : String)
  | neverAsParameter (text : String)
  | neverMixed (text : String)
  deriving DecidableEq

def TypeFault.message : TypeFault → String
  | .empty => "empty annotation"
  | .unbalancedSubscript t => s!"unbalanced subscript in `{t}`"
  | .unsupported t => s!"unsupported annotation `{t}`"
  | .neverAsParameter t => s!"`{t}` cannot be a parameter type"
  | .neverMixed t => s!"`{t}` mixes NoReturn with other types"

namespace TypeTag

/-- A type name without the module it may be qualified with. -/
def unqualified (head : List Char) : List Char :=
  match "typing.".toList.isPrefixOf? head with
  | some r => r
  | none => ("t.".toList.isPrefixOf? head).getD head

/-- The name in front of a subscript, and its items. -/
def subscript (text : List Char) : Except TypeFault (List Char × Option (List (List Char))) :=
  match splitOnce ['['] text with
  | none => .ok (text, none)
  | some (head, rest) =>
    match stripSuffix? [']'] rest with
    | none => .error (.unbalancedSubscript (String.ofList text))
    | some inner =>
      .ok (trim head, some (((splitTop ',' inner).map trim).filter (!·.isEmpty)))

/-- The type that a name stands for without a subscript. -/
def ofName? (name : String) : Option TypeTag :=
  match name with
  | "str" => some (.scalar .str)
  | "int" => some (.scalar .int)
  | "float" => some (.scalar .float)
  | "bool" => some (.scalar .bool)
  | "bytes" | "bytearray" => some (.scalar .bytes)
  | "Any" | "any" | "object" => some (.scalar .any)
  | "None" => some (.scalar .null)
  | "NoReturn" | "Never" => some (.scalar .never)
  | "list" | "List" => some (.list (.scalar .any))
  | "dict" | "Dict" => some (.dict (.scalar .any) (.scalar .any))
  | "tuple" | "Tuple" => some (.tupleOf (.scalar .any))
  | _ => none

/-- What a subscripted name builds from its items. -/
inductive Former where
  | list
  | dict
  | tuple
  | optional
  | union

def Former.ofName? (name : String) : Option Former :=
  match name with
  | "list" | "List" => some .list
  | "dict" | "Dict" => some .dict
  | "tuple" | "Tuple" => some .tuple
  | "Optional" => some .optional
  | "Union" => some .union
  | _ => none

def ellipsis : List Char := "...".toList

/-- Reads an annotation whose nesting is at most `fuel`. -/
def parseNested : Nat → List Char → Except TypeFault TypeTag
  | 0, text => .error (.unsupported (String.ofList text))
  | fuel + 1, text => do
    let text := trim text
    let unsupported := Except.error (TypeFault.unsupported (String.ofList text))
    if text.isEmpty then .error .empty
    else
      let alternatives := splitTop '|' text
      if alternatives.length > 1 then return unite (← alternatives.mapM (parseNested fuel))
      -- a quoted annotation reaches this point as an empty literal
      else if text == "''".toList || text == "\"\"".toList then return .scalar .unknown
      else
        let (head, args) ← subscript text
        let name := String.ofList (unqualified head)
        match args with
        | none => match ofName? name with
          | some t => return t
          | none => unsupported
        | some args =>
          match Former.ofName? name, args with
          | some .list, [item] => return .list (← parseNested fuel item)
          | some .dict, [key, value] => return .dict (← parseNested fuel key) (← parseNested fuel value)
          | some .tuple, args =>
            match args with
            | [item, last] =>
              if last = ellipsis then return .tupleOf (← parseNested fuel item)
              else if ellipsis ∈ args then unsupported
              else return .tuple (← args.mapM (parseNested fuel))
            | _ =>
              if ellipsis ∈ args then unsupported
              else return .tuple (← args.mapM (parseNested fuel))
          | some .optional, [item] => return unite [← parseNested fuel item, .scalar .null]
          | some .union, item :: more => return unite (← (item :: more).mapM (parseNested fuel))
          | _, _ => unsupported

/-- The type an annotation denotes. -/
def parse (text : String) : Except TypeFault TypeTag := parseNested (text.length + 1) text.toList

/-- The tag of a parameter; without an annotation it is unknown. -/
def ofParameter (text : Option String) : Except TypeFault String :=
  match text with
  | none => .ok Scalar.unknown.text
  | some text => do
    let tag ← parse text
    if hasNever tag then .error (.neverAsParameter text) else return render tag

/-- The tag of a result, absent when nothing comes back, and whether the function never returns. -/
def ofReturn (text : Option String) : Except TypeFault (Option String × Bool) :=
  match text with
  | none => .ok (some Scalar.unknown.text, false)
  | some text => do
    let tag ← parse text
    if tag = .scalar .null then return (none, false)
    else if tag = .scalar .never then return (none, true)
    else if hasNever tag then .error (.neverMixed text)
    else return (some (render tag), false)

end TypeTag

end ContractBuild.Abi

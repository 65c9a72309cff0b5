import ContractBuild.Python.Import

/-!
Function headers: the name, the parameters and the return annotation of a `def`, and the decorators
in front of it.
-/

namespace ContractBuild.Python

open ContractBuild.Text

/-- A decorator's dotted name, without call arguments. -/
structure Decorator where
  name : String
  line : Nat
  deriving DecidableEq

inductive ParamKind where
  | positional
  | keywordOnly
  | varArgs
  | varKeywords
  deriving DecidableEq

structure Param where
  name : String
  kind : ParamKind
  typeText : Option String
  hasDefault : Bool
  deriving DecidableEq

structure Function where
  name : String
  line : Nat
  isAsync : Bool
  decorators : List Decorator
  params : List Param
  returns : Option String
  deriving DecidableEq

namespace Decorator

/-- The part of the name after its last dot. -/
def last (d : Decorator) : String := String.ofList ((d.name.toList.splitOn '.').getLastD [])

/-- One more segment of a dotted name, blanks around the dot allowed, and what follows it. -/
def moreDotted : Nat → List Char → List Char → List Char
  | 0, taken, _ => taken
  | fuel + 1, taken, rest =>
    match trimLeft rest with
    | '.' :: r =>
      let name := (trimLeft r).takeWhile isWordChar
      if name.head?.any isAsciiLetterOrUnderscore then
        moreDotted fuel (taken ++ '.' :: name) ((trimLeft r).drop name.length)
      else taken
    | _ => taken

/-- The longest dotted name that a text starts with, without the blanks in it. -/
def dottedHead (text : List Char) : Option (List Char) :=
  let first := text.takeWhile isWordChar
  if first.head?.any isAsciiLetterOrUnderscore then
    some (moreDotted text.length first (text.drop first.length))
  else none

/-- Reads what stands after the at sign. -/
def ofText (line : Nat) (text : List Char) : Except Fault Decorator :=
  let text := trim text
  match dottedHead text with
  | some name => .ok ⟨String.ofList name, line⟩
  | none => .error ⟨line, .unsupportedDecorator (String.ofList text)⟩

end Decorator

namespace Param

/-- What one item of a parameter list says: the marker, the name, the annotation and the default. -/
def ofItem (keywordOnly : Bool) (item : List Char) : Param :=
  let equals := cutTop '=' item
  let colon := cutTop ':' item
  let head := (equals.map (·.1)).getD item
  let parts : List Char × Option (List Char) :=
    match colon with
    | some (before, _) =>
      if equals.all fun e => before.length < e.1.length then
        (before, some (trim (head.drop (before.length + 1))))
      else (head, none)
    | none => (head, none)
  let typeText := (parts.2.filter (!·.isEmpty)).map String.ofList
  let marked : ParamKind × List Char :=
    match trim parts.1 with
    | '*' :: '*' :: r => (.varKeywords, r)
    | '*' :: r => (.varArgs, r)
    | r => (if keywordOnly then .keywordOnly else .positional, r)
  ⟨String.ofList (trim marked.2), marked.1, typeText, equals.isSome⟩

/-- Reads the items of a parameter list. After `*` or `*args`, parameters are keyword-only. -/
def ofItems : Bool → List (List Char) → List Param
  | _, [] => []
  | keywordOnly, item :: r =>
    let item := trim item
    if item.isEmpty || item == ['/'] then ofItems keywordOnly r
    else if item == ['*'] then ofItems true r
    else
      let p := ofItem keywordOnly item
      p :: ofItems (keywordOnly || p.kind == .varArgs) r

/-- The parameters between the parentheses of a `def`. -/
def ofText (text : List Char) : List Param := ofItems false (splitTop ',' text)

end Param

namespace Function

/-- The name of a `def` and the text after its opening parenthesis. -/
def header (text : List Char) : Option (Bool × List Char × List Char) :=
  let asyncBody := Import.afterWord "async" text
  match Import.afterWord "def" (asyncBody.getD text) with
  | none => none
  | some body =>
    let name := body.takeWhile isWordChar
    if name.head?.any isAsciiLetterOrUnderscore then
      match trimLeft (body.drop name.length) with
      | '(' :: r => some (asyncBody.isSome, name, r)
      | _ => none
    else none

/-- The function that a line defines, or `none` if it defines none. -/
def ofLine (l : Line) (decorators : List Decorator) : Except Fault (Option Function) :=
  match header l.text.toList with
  | none => .ok none
  | some (isAsync, name, body) =>
    let name := String.ofList name
    let fault (cause : FaultCause) : Except Fault (Option Function) := .error ⟨l.number, cause⟩
    match cutClosing 1 body with
    | none => fault (.unbalancedParameters name)
    | some (params, tail) =>
      let ok (returns : Option String) : Except Fault (Option Function) :=
        .ok (some ⟨name, l.number, isAsync, decorators, Param.ofText params, returns⟩)
      match trimLeft tail with
      | '-' :: '>' :: r =>
        match cutTop ':' r with
        | some (returns, _) => ok (some (String.ofList (trim returns)))
        | none => fault (.missingReturnColon name)
      | ':' :: _ => ok none
      | _ => fault (.malformedSignature name)

end Function

end ContractBuild.Python

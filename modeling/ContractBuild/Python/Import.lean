import ContractBuild.Python.Line

/-!
Import statements, found line by line.

Aliases are dropped. A one-line compound statement such as `try: import x` counts as the import in
its body.
-/

namespace ContractBuild.Python

open ContractBuild.Text

inductive Import where
  /-- `import a.b`, one for each module named. -/
  | whole (line : Nat) (name : String)
  /-- `from ..base import names`, with `level` leading dots. -/
  | names (line level : Nat) (base : Option String) (names : List String)
  deriving DecidableEq

namespace Import

def line : Import → Nat
  | whole line _ => line
  | names line _ _ _ => line

/-- Headers whose one-line form may carry an import. -/
def compoundKeywords : List String :=
  ["if", "elif", "else", "try", "except", "finally", "with", "while", "for"]

/-- The statement after the header of a one-line compound statement. -/
def inlineBody (text : List Char) : Option (List Char) :=
  let keyword := text.takeWhile fun c => isLetterOrNumber c || c == '_'
  if String.ofList keyword ∈ compoundKeywords then
    match cutTop ':' text with
    | some (_, rest) => if (trim rest).isEmpty then none else some (trim rest)
    | none => none
  else none

/-- Takes the blanks around the dots of a dotted name away. -/
def normalizeDotted (name : List Char) : List Char :=
  joinWith ['.'] ((name.splitOn '.').map trim)

/-- The name that an item of an import list stands for. -/
def withoutAlias (item : List Char) : List Char :=
  let item := trim item
  normalizeDotted (((splitOnce " as ".toList item).map (·.1)).getD item)

def isDottedName (name : List Char) : Bool := (name.splitOn '.').all isIdentifier

/-- A keyword, at least one blank, and the rest of the statement. -/
def afterWord (word : String) (text : List Char) : Option (List Char) :=
  match word.toList.isPrefixOf? text with
  | some rest =>
    let body := trimLeft rest
    if body.length < rest.length && !body.isEmpty then some body else none
  | none => none

/-- Splits the text after `from` into the number of dots, the base and the list of names.

A base is preferred; without one, the word `import` has to stand apart from what precedes it. -/
def fromParts (text : List Char) : Option (Nat × Option (List Char) × List Char) :=
  match "from".toList.isPrefixOf? text with
  | none => none
  | some afterFrom =>
    let lead := afterFrom.takeWhile isBlank
    let afterLead := afterFrom.dropWhile isBlank
    let dots := afterLead.takeWhile (· == '.')
    let afterDots := afterLead.dropWhile (· == '.')
    let gap := afterDots.takeWhile isBlank
    let rest := afterDots.dropWhile isBlank
    let base := rest.takeWhile fun c => isWordChar c || c == '.'
    let afterBase := rest.drop base.length
    let based :=
      if rest.head?.any isAsciiLetterOrUnderscore && afterBase.head?.any isBlank then
        (afterWord "import" (trimLeft afterBase)).map fun names =>
          (dots.length, some base, names)
      else none
    let apart := if dots.isEmpty then 2 ≤ lead.length else !gap.isEmpty
    if lead.isEmpty then none
    else match based with
      | some parts => some parts
      | none => if apart then (afterWord "import" rest).map fun names => (dots.length, none, names)
        else none

/-- The names of an import list, with or without its parentheses. -/
def listedNames (text : List Char) : List String :=
  let text := trim text
  let inner := match text with
    | '(' :: r => (stripSuffix? [')'] r).getD text
    | _ => text
  (((splitTop ',' inner).map withoutAlias).filter (!·.isEmpty)).map String.ofList

/-- The imports of one logical line, or `none` if it is no import. -/
def ofLine (l : Line) : Except Fault (Option (List Import)) :=
  let text := (inlineBody l.text.toList).getD l.text.toList
  let malformed := Except.error ⟨l.number, .malformedImport (String.ofList text)⟩
  match afterWord "import" text with
  | some items =>
    let found := (splitTop ',' items).map withoutAlias
    if found.all isDottedName then .ok (some (found.map fun n => whole l.number (String.ofList n)))
    else malformed
  | none =>
    match fromParts text with
    | none => .ok none
    | some (0, none, _) => malformed
    | some (level, base, items) =>
      let base := base.map fun b => String.ofList (normalizeDotted b)
      .ok (some [names l.number level base (listedNames items)])

end Import

end ContractBuild.Python

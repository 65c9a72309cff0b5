import ContractBuild.Text.Chars
import ContractBuild.Text.Utf8

/-!
JSON values, their indented text, and a reader for any JSON text.

Numbers keep their written form; objects keep the order of their members.
-/

namespace ContractBuild.Text

/-- Values with strings of type `σ`. -/
inductive Json.Value (σ : Type) where
  | null
  | bool (b : Bool)
  | num (written : String)
  | str (s : σ)
  | arr (items : List (Value σ))
  | obj (members : List (σ × Value σ))

abbrev Json := Json.Value String

namespace Json

def Value.nat {σ : Type} (n : Nat) : Value σ := .num (toString n)

/-- How a character is written inside a string. -/
def escape (c : Char) : List Char :=
  if c == '"' then ['\\', '"']
  else if c == '\\' then ['\\', '\\']
  else if c == '\x08' then ['\\', 'b']
  else if c == '\x0c' then ['\\', 'f']
  else if c == '\n' then ['\\', 'n']
  else if c == '\r' then ['\\', 'r']
  else if c == '\t' then ['\\', 't']
  else if c.toNat < 0x20 then ['\\', 'u', '0', '0', hexDigit (c.toNat / 16), hexDigit (c.toNat % 16)]
  else [c]

def quote (s : String) : List Char := '"' :: ((chars s).flatMap escape ++ ['"'])

def newline (depth : Nat) : List Char := '\n' :: List.replicate (2 * depth) ' '

mutual

/-- The text of a value whose first line is indented by `depth` steps of two. -/
def pretty (depth : Nat) : Json → List Char
  | .null => "null".toList
  | .bool b => (if b then "true" else "false").toList
  | .num w => w.toList
  | .str s => quote s
  | .arr [] => "[]".toList
  | .arr (x :: r) =>
    '[' :: (newline (depth + 1) ++ pretty (depth + 1) x ++ prettyItems (depth + 1) r ++
      newline depth ++ [']'])
  | .obj [] => ['\x7b', '\x7d']
  | .obj ((k, v) :: r) =>
    '\x7b' :: (newline (depth + 1) ++ quote k ++ [':', ' '] ++ pretty (depth + 1) v ++
      prettyMembers (depth + 1) r ++ newline depth ++ ['\x7d'])

def prettyItems (depth : Nat) : List Json → List Char
  | [] => []
  | x :: r => ',' :: (newline depth ++ pretty depth x ++ prettyItems depth r)

def prettyMembers (depth : Nat) : List (String × Json) → List Char
  | [] => []
  | (k, v) :: r =>
    ',' :: (newline depth ++ quote k ++ [':', ' '] ++ pretty depth v ++ prettyMembers depth r)

end

/-- The indented text of a value. -/
def render (j : Json) : String := String.ofList (pretty 0 j)

/-! ### Reading

A reader looks into the strings it needs only. The others may hold bytes that are no characters, and
halves of surrogate pairs.
-/

open Utf8 (Piece)

/-- A value as it is read. A string that is no text is `none`. -/
abbrev Loose := Value (Option String)

/-- The characters at the front with a property, and what follows them. -/
def run (p : Char → Bool) : List Piece → List Char × List Piece
  | .char c :: r =>
    if p c then
      let (cs, r') := run p r
      (c :: cs, r')
    else ([], .char c :: r)
  | ps => ([], ps)

def isSpace (c : Char) : Bool := c == ' ' || c == '\t' || c == '\n' || c == '\r'

def skipSpace (ps : List Piece) : List Piece := (run isSpace ps).2

def hexValue (c : Char) : Option Nat :=
  if '0' ≤ c ∧ c ≤ '9' then some (c.toNat - 48)
  else if 'a' ≤ c ∧ c ≤ 'f' then some (c.toNat - 87)
  else if 'A' ≤ c ∧ c ≤ 'F' then some (c.toNat - 55)
  else none

def hexFour (a b c d : Char) : Option Nat := do
  return (((← hexValue a) * 16 + (← hexValue b)) * 16 + (← hexValue c)) * 16 + (← hexValue d)

def simpleEscape (c : Char) : Option Char :=
  match c with
  | '"' => some '"'
  | '\\' => some '\\'
  | '/' => some '/'
  | 'b' => some '\x08'
  | 'f' => some '\x0c'
  | 'n' => some '\n'
  | 'r' => some '\r'
  | 't' => some '\t'
  | _ => none

/-- What the content of a string is made of. -/
inductive Element where
  | char (c : Char)
  /-- A UTF-16 code unit, by its number. -/
  | unit (code : Nat)
  | faulty

/-- The content of a string after its opening quote, and what follows its closing one. -/
def stringBody : List Piece → Option (List Element × List Piece)
  | [] => none
  | .char '"' :: r => some ([], r)
  | .char '\\' :: .char 'u' :: .char a :: .char b :: .char c :: .char d :: r =>
    match hexFour a b c d with
    | some u => (stringBody r).map fun p => (.unit u :: p.1, p.2)
    | none => none
  | .char '\\' :: .char e :: r =>
    match simpleEscape e with
    | some c => (stringBody r).map fun p => (.char c :: p.1, p.2)
    | none => none
  | .char '\\' :: _ => none
  | .char c :: r => if c.toNat < 0x20 then none else (stringBody r).map fun p => (.char c :: p.1, p.2)
  | .invalid _ :: r => (stringBody r).map fun p => (.faulty :: p.1, p.2)
  | .incomplete :: r => (stringBody r).map fun p => (.faulty :: p.1, p.2)

/-- The characters of a content. A code unit above the basic plane needs its pair. -/
def chars? : List Element → Option (List Char)
  | [] => some []
  | .char c :: r => (chars? r).map (c :: ·)
  | .unit u :: r =>
    if 0xd800 ≤ u ∧ u < 0xdc00 then
      match r with
      | .unit v :: r' =>
        if 0xdc00 ≤ v ∧ v < 0xe000 then
          (chars? r').map (Char.ofNat (0x10000 + (u - 0xd800) * 0x400 + (v - 0xdc00)) :: ·)
        else none
      | _ => none
    else if 0xdc00 ≤ u ∧ u < 0xe000 then none
    else (chars? r).map (Char.ofNat u :: ·)
  | .faulty :: _ => none

/-- A string after its opening quote. -/
def string (ps : List Piece) : Option (Option String × List Piece) :=
  (stringBody ps).map fun p => ((chars? p.1).map String.ofList, p.2)

/-- The digits of a number's integer part: `0`, or digits that do not start with it. -/
def intDigits (ps : List Piece) : Option (List Char × List Piece) :=
  match ps with
  | .char '0' :: r => some (['0'], r)
  | _ =>
    let (ds, r) := run Char.isDigit ps
    if ds.isEmpty then none else some (ds, r)

def fraction (ps : List Piece) : Option (List Char × List Piece) :=
  match ps with
  | .char '.' :: r =>
    let (ds, r') := run Char.isDigit r
    if ds.isEmpty then none else some ('.' :: ds, r')
  | _ => some ([], ps)

/-- The sign at the front, if there is one of those given. -/
def sign (signs : List Char) (ps : List Piece) : List Char × List Piece :=
  match ps with
  | .char c :: r => if signs.contains c then ([c], r) else ([], ps)
  | _ => ([], ps)

def exponent (ps : List Piece) : Option (List Char × List Piece) :=
  match ps with
  | .char c :: r =>
    if c == 'e' || c == 'E' then
      let (s, r) := sign ['+', '-'] r
      let (ds, r) := run Char.isDigit r
      if ds.isEmpty then none else some (c :: (s ++ ds), r)
    else some ([], ps)
  | _ => some ([], ps)

def number (ps : List Piece) : Option (Loose × List Piece) := do
  let (minus, r) := sign ['-'] ps
  let (i, r) ← intDigits r
  let (f, r) ← fraction r
  let (e, r) ← exponent r
  return (.num (String.ofList (minus ++ i ++ f ++ e)), r)

mutual

/-- One value and the text after it; `fuel` bounds the number of calls. -/
def value : Nat → List Piece → Option (Loose × List Piece)
  | 0, _ => none
  | fuel + 1, ps =>
    match skipSpace ps with
    | .char 'n' :: .char 'u' :: .char 'l' :: .char 'l' :: r => some (.null, r)
    | .char 't' :: .char 'r' :: .char 'u' :: .char 'e' :: r => some (.bool true, r)
    | .char 'f' :: .char 'a' :: .char 'l' :: .char 's' :: .char 'e' :: r => some (.bool false, r)
    | .char '"' :: r => (string r).map fun p => (.str p.1, p.2)
    | .char '[' :: r =>
      match skipSpace r with
      | .char ']' :: r' => some (.arr [], r')
      | r' => (items fuel r').map fun p => (.arr p.1, p.2)
    | .char '\x7b' :: r =>
      match skipSpace r with
      | .char '\x7d' :: r' => some (.obj [], r')
      | r' => (members fuel r').map fun p => (.obj p.1, p.2)
    | r => number r

/-- The items of an array up to its closing bracket. -/
def items : Nat → List Piece → Option (List Loose × List Piece)
  | 0, _ => none
  | fuel + 1, ps =>
    match value fuel ps with
    | none => none
    | some (x, r) =>
      match skipSpace r with
      | .char ',' :: r' => (items fuel r').map fun p => (x :: p.1, p.2)
      | .char ']' :: r' => some ([x], r')
      | _ => none

/-- The members of an object up to its closing brace. -/
def members : Nat → List Piece → Option (List (Option String × Loose) × List Piece)
  | 0, _ => none
  | fuel + 1, ps =>
    match skipSpace ps with
    | .char '"' :: r =>
      match string r with
      | none => none
      | some (k, r) =>
        match skipSpace r with
        | .char ':' :: r =>
          match value fuel r with
          | none => none
          | some (v, r) =>
            match skipSpace r with
            | .char ',' :: r' => (members fuel r').map fun p => ((k, v) :: p.1, p.2)
            | .char '\x7d' :: r' => some ([(k, v)], r')
            | _ => none
        | _ => none
    | _ => none

end

/-- Reads bytes that hold one value and blanks. -/
def parse (bytes : Bytes) : Option Loose :=
  match value (2 * bytes.length + 2) (Utf8.pieces bytes) with
  | some (j, r) => if (skipSpace r).isEmpty then some j else none
  | none => none

/-! ### Members and items -/

/-- The members of an object, if all their names are texts. -/
def named (members : List (Option String × Loose)) : Option (List (String × Loose)) :=
  members.mapM fun m => m.1.map (·, m.2)

/-- The only value of a member. -/
def member? (members : List (String × Loose)) (name : String) : Option Loose :=
  match members.filter (·.1 == name) with
  | [(_, v)] => some v
  | _ => none

/-- The only value of a member, or `default` where there is none. -/
def memberOr? (default : Loose) (members : List (String × Loose)) (name : String) : Option Loose :=
  match members.filter (·.1 == name) with
  | [] => some default
  | [(_, v)] => some v
  | _ => none

/-- The values of the named members in order. -/
def members? (names : List String) : Loose → Option (List Loose)
  | .obj members => do names.mapM (member? (← named members))
  | .arr items => if items.length = names.length then some items else none
  | _ => none

def items? {α : Type} (item? : Loose → Option α) : Loose → Option (List α)
  | .arr items => items.mapM item?
  | _ => none

def text? : Loose → Option String
  | .str s => s
  | _ => none

def bool? : Loose → Option Bool
  | .bool b => some b
  | _ => none

/-- A value that may be missing. -/
def orNull? {α : Type} (value? : Loose → Option α) : Loose → Option (Option α)
  | .null => some none
  | j => (value? j).map some

/-- A constant by its name, which may also be the only member of an object. -/
def named? {α : Type} (ofText? : String → Option α) : Loose → Option α
  | .str s => s.bind ofText?
  | .obj [(s, .null)] => s.bind ofText?
  | _ => none

end Json

end ContractBuild.Text

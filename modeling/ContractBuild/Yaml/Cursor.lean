import ContractBuild.Text.Chars

/-!
A place in a YAML stream: the text to come with its index, line and column.
-/

namespace ContractBuild.Yaml

structure Cursor where
  rest : List Char
  index : Nat := 0
  line : Nat := 0
  column : Nat := 0

def isBlank (c : Char) : Bool := c == ' ' || c == '\t'

/-- Line breaks; the last three are next line, line separator and paragraph separator. -/
def isBreak (c : Char) : Bool :=
  c == '\n' || c == '\r' || c == '\u0085' || c == '\u2028' || c == '\u2029'

/-- Whether a blank, a line break or the end comes first in a text. -/
def atBlankOrEnd : List Char → Bool
  | [] => true
  | c :: _ => isBlank c || isBreak c

/-- The characters that a stream may hold. -/
def isAllowed (c : Char) : Bool :=
  let n := c.toNat
  c == '\t' || c == '\n' || c == '\r' || (0x20 ≤ n && n ≤ 0x7e) || n == 0x85 ||
    (0xa0 ≤ n && n ≤ 0xd7ff) || (0xe000 ≤ n && n ≤ 0xfffd) || 0x10000 ≤ n

namespace Cursor

def head? (p : Cursor) : Option Char := p.rest.head?

/-- Passes one character that is no line break. -/
def skip (p : Cursor) : Cursor :=
  { p with rest := p.rest.tail, index := p.index + 1, column := p.column + 1 }

def skipN : Nat → Cursor → Cursor
  | 0, p => p
  | n + 1, p => skipN n p.skip

/-- Passes a line break; a carriage return with a line feed is one. -/
def skipLine (p : Cursor) : Cursor :=
  match p.rest with
  | '\r' :: '\n' :: r => { rest := r, index := p.index + 2, line := p.line + 1 }
  | _ :: r => { rest := r, index := p.index + 1, line := p.line + 1 }
  | [] => p

/-- How the line break in front is kept: separators as they are, all others as a line feed. -/
def lineBreak (p : Cursor) : List Char :=
  match p.rest with
  | c :: _ => if c == '\u2028' || c == '\u2029' then [c] else if isBreak c then ['\n'] else []
  | [] => []

/-- Passes characters as long as `keep` holds, and returns them. -/
def takeWhile (keep : Char → Bool) (p : Cursor) : List Char × Cursor :=
  let run := p.rest.takeWhile keep
  (run, skipN run.length p)

/-- Whether a line starts here with `mark` and a blank. -/
def atMarker (mark : String) (p : Cursor) : Bool :=
  p.column == 0 &&
    match mark.toList.isPrefixOf? p.rest with
    | some r => atBlankOrEnd r
    | none => false

def atDocumentMarker (p : Cursor) : Bool := p.atMarker "---" || p.atMarker "..."

end Cursor

/-- What stands between two words of a scalar that may run over several lines. -/
structure Gap where
  blanks : List Char := []
  /-- The first line break, once one has been passed. -/
  first : Option (List Char) := none
  more : List Char := []

namespace Gap

def isEmpty (g : Gap) : Bool := g.blanks.isEmpty && g.first.isNone

def blank (g : Gap) (c : Char) : Gap := if g.first.isSome then g else { g with blanks := g.blanks ++ [c] }

def lineBreak (g : Gap) (b : List Char) : Gap :=
  if g.first.isSome then { g with more := g.more ++ b } else { first := some b }

/-- The text of the gap: a single line feed folds into a space. -/
def fold (g : Gap) : List Char :=
  match g.first with
  | none => g.blanks
  | some ['\n'] => if g.more.isEmpty then [' '] else g.more
  | some b => b ++ g.more

end Gap

end ContractBuild.Yaml

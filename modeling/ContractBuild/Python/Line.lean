import ContractBuild.Python.Fault
import ContractBuild.Text.Nested

/-!
Logical lines of a source text, as a one-pass scan.

Comments go, lines joined by a bracket or a backslash become one, a semicolon divides a line, and
a string literal shrinks to its two quotes, so that later readers never meet quoted text. The scan
reads one character at a time; what it has to remember of the characters just read is its phase.
-/

namespace ContractBuild.Python

open ContractBuild.Text

/-- One statement: the 1-based line where it starts, its indentation (tabs go to the next multiple
of 8) and its text without blanks at the ends. -/
structure Line where
  number : Nat
  indent : Nat
  text : String
  deriving DecidableEq

namespace Line

/-- An open string literal: its quote, the line of its first quote, and whether three quotes
close it. -/
structure Quoted where
  quote : Char
  opened : Nat
  triple : Bool

inductive Phase where
  | code
  | comment
  /-- After a backslash that may join two lines. -/
  | slash
  /-- After a backslash and a carriage return. -/
  | slashReturn
  /-- After the first quote of a literal. -/
  | quoteOne (q : Char) (opened : Nat)
  /-- After two quotes: an empty literal, or the start of a triple one. -/
  | quoteTwo (q : Char) (opened : Nat)
  /-- Inside a literal, after `run` of its quotes in a row. -/
  | string (s : Quoted) (run : Nat)
  /-- Inside a literal, after a backslash. -/
  | escape (s : Quoted)

structure St where
  phase : Phase := .code
  line : Nat := 1
  depth : Nat := 0
  done : List Line := []
  text : List Char := []
  start : Nat := 1
  indent : Nat := 0
  column : Nat := 0
  fresh : Bool := true

def init : St := {}

/-- Ends the statement that is being read, and keeps it if it is not blank. -/
def finish (s : St) : St :=
  let text := trim s.text
  let done := if text.isEmpty then s.done else s.done ++ [⟨s.start, s.indent, String.ofList text⟩]
  { s with done, text := [], indent := 0 }

/-- Notes where a statement starts when its first character is about to be read. -/
def begin (s : St) : St :=
  if s.text.isEmpty then
    { s with start := s.line, indent := if s.fresh then s.column else s.indent, fresh := false }
  else s

def push (s : St) (c : Char) : St := { s with text := s.text ++ [c] }

/-- Reads `c` as part of the statement itself. -/
def plain (s : St) (c : Char) : St :=
  let s := push (begin s) c
  { s with depth := depthAfter s.depth c }

def newline (s : St) : St :=
  let s := { s with phase := .code, line := s.line + 1 }
  if s.depth > 0 then push s ' ' else { finish s with fresh := true, column := 0 }

/-- Joins the next physical line to this one. -/
def join (s : St) : St := push { s with phase := .code, line := s.line + 1 } ' '

/-- A literal in the statement's text. -/
def literal (s : St) (q : Char) : St := push (push { s with phase := .code } q) q

def semicolon (s : St) : St := { finish s with indent := s.indent, fresh := false }

/-- Whether `s` stands in the indentation of a line. -/
def indenting (s : St) : Bool := s.fresh && s.depth == 0 && s.text.isEmpty

def codeStep (s : St) (c : Char) : St :=
  if indenting s && c == ' ' then { s with column := s.column + 1 }
  else if indenting s && c == '\t' then { s with column := (s.column / 8 + 1) * 8 }
  else if indenting s && c == '\x0c' then s
  else if c == '#' then { s with phase := .comment }
  else if c == '\n' then newline s
  else if c == '\r' then s
  else if c == '\\' then { s with phase := .slash }
  else if c == '\'' || c == '"' then { begin s with phase := .quoteOne c s.line }
  else if c == ';' && s.depth == 0 then semicolon s
  else plain s c

/-- A backslash that joined nothing is a character like any other. -/
def slashStep (s : St) (c : Char) : St := codeStep (plain { s with phase := .code } '\\') c

def stringStep (s : St) (q : Quoted) (run : Nat) (c : Char) : Except Fault St :=
  if c == '\\' then .ok { s with phase := .escape q }
  else if c == '\n' then
    if q.triple then .ok { s with phase := .string q 0, line := s.line + 1 }
    else .error ⟨q.opened, .unterminatedString⟩
  else if c == q.quote then
    if !q.triple || run == 2 then .ok (literal s q.quote)
    else .ok { s with phase := .string q (run + 1) }
  else .ok { s with phase := .string q 0 }

def step (s : St) (c : Char) : Except Fault St :=
  match s.phase with
  | .code => .ok (codeStep s c)
  | .comment => .ok (if c == '\n' then newline s else s)
  | .slash =>
    .ok (if c == '\n' then join s
      else if c == '\r' then { s with phase := .slashReturn }
      else slashStep s c)
  | .slashReturn => .ok (if c == '\n' then join s else slashStep s c)
  | .quoteOne q opened =>
    if c == q then .ok { s with phase := .quoteTwo q opened } else stringStep s ⟨q, opened, false⟩ 0 c
  | .quoteTwo q opened =>
    if c == q then .ok { s with phase := .string ⟨q, opened, true⟩ 0 } else .ok (codeStep (literal s q) c)
  | .string q run => stringStep s q run c
  | .escape q =>
    .ok { s with phase := .string q 0, line := if c == '\n' then s.line + 1 else s.line }

def run (s : St) (cs : List Char) : Except Fault St := cs.foldlM step s

/-- Settles what the last phase left open. -/
def settle (s : St) : Except Fault St :=
  match s.phase with
  | .code | .comment => .ok s
  | .slash | .slashReturn => .ok (plain { s with phase := .code } '\\')
  | .quoteTwo q _ => .ok (literal s q)
  | .quoteOne _ opened => .error ⟨opened, .unterminatedString⟩
  | .string q _ | .escape q => .error ⟨q.opened, .unterminatedString⟩

def close (s : St) : Except Fault (List Line) :=
  if s.depth > 0 && !(trim s.text).isEmpty then .error ⟨s.start, .unclosedBracket⟩
  else .ok (finish s).done

/-- The logical lines of a source text. -/
def scan (source : String) : Except Fault (List Line) := do
  close (← settle (← run init source.toList))

end Line

end ContractBuild.Python

import ContractBuild.Yaml.Scalar

/-!
Tokens of a YAML stream.

A key needs no mark of its own: whether a scalar is one shows only at the colon after it. So each
place where a key may start is remembered for its flow level, and the tokens that open the key and
its mapping are put in there once the colon comes.
-/

namespace ContractBuild.Yaml

inductive Token where
  | documentStart
  | documentEnd
  | blockSequence
  | blockMapping
  | blockEnd
  | flowSequence
  | flowSequenceEnd
  | flowMapping
  | flowMappingEnd
  | blockEntry
  | flowEntry
  | key
  | value
  | alias (name : String)
  | anchor (name : String)
  | tag
  | scalar (text : String) (plain : Bool)
  deriving DecidableEq

/-- A place where a key may have started: the number of tokens before it, and the position. -/
structure KeyStart where
  tokens : Nat
  line : Nat
  index : Nat
  column : Nat
  /-- Whether nothing but a key can stand there. -/
  required : Bool

structure St where
  pos : Cursor
  tokens : List Token := []
  indent : Int := -1
  outer : List Int := []
  /-- The key that may have started, for the block level and each flow level, innermost first. -/
  keys : List (Option KeyStart) := [none]
  keyAllowed : Bool := true

namespace St

def inFlow (s : St) : Bool := s.keys.length > 1

def add (s : St) (t : Token) : St := { s with tokens := s.tokens ++ [t] }

def insert (s : St) (i : Nat) (t : Token) : St := { s with tokens := s.tokens.insertIdx i t }

def setKey (s : St) (k : Option KeyStart) : St := { s with keys := k :: s.keys.tail }

/-- Gives up the key that may have started here, unless one is required. -/
def dropKey (s : St) : Option St :=
  match s.keys.head? with
  | some (some k) => if k.required then none else some (s.setKey none)
  | _ => some s

/-- Notes that a key may start here. -/
def saveKey (s : St) : Option St :=
  if s.keyAllowed then
    s.dropKey.map fun s => s.setKey (some
      ⟨s.tokens.length, s.pos.line, s.pos.index, s.pos.column,
        !s.inFlow && s.indent == (s.pos.column : Int)⟩)
  else some s

/-- A key lies within one line and 1024 characters. -/
def isStale (s : St) (k : KeyStart) : Bool := k.line < s.pos.line || k.index + 1024 < s.pos.index

/-- Forgets keys that can no longer be completed. -/
def dropStale (s : St) : Option St :=
  let stale := fun k => s.isStale k
  if s.keys.any fun k => k.any fun k => stale k && k.required then none
  else some { s with keys := s.keys.map fun k => k.filter fun k => !stale k }

/-- Closes the block collections right of `column`. -/
def unroll (column : Int) : Nat → St → St
  | 0, s => s
  | fuel + 1, s =>
    if s.indent > column then
      unroll column fuel { s.add .blockEnd with indent := s.outer.headD (-1), outer := s.outer.tail }
    else s

def unrollTo (s : St) (column : Int) : St :=
  if s.inFlow then s else unroll column (s.outer.length + 1) s

/-- Opens a block collection at `column`, before token `i`, if it lies right of the current one. -/
def roll (s : St) (column : Nat) (i : Nat) (t : Token) : St :=
  if !s.inFlow && s.indent < (column : Int) then
    { s.insert i t with indent := column, outer := s.indent :: s.outer }
  else s

/-- Passes blanks, comments and line breaks. Tabs count as blanks where no key may start. -/
def skipToToken : Nat → St → St
  | 0, s => s
  | fuel + 1, s =>
    match s.pos.rest with
    | [] => s
    | c :: _ =>
      if c == ' ' || (c == '\t' && (s.inFlow || !s.keyAllowed)) then
        skipToToken fuel { s with pos := s.pos.skip }
      else if c == '#' then skipToToken fuel { s with pos := (s.pos.takeWhile (!isBreak ·)).2 }
      else if isBreak c then
        skipToToken fuel
          { s with pos := s.pos.skipLine, keyAllowed := s.keyAllowed || !s.inFlow }
      else s

/-- Adds a token of `n` characters. -/
def take (s : St) (n : Nat) (t : Token) : St := { s.add t with pos := s.pos.skipN n }

def documentMarker (s : St) (t : Token) : Option St :=
  (s.unrollTo (-1)).dropKey.map fun s => { s.take 3 t with keyAllowed := false }

def openFlow (s : St) (t : Token) : Option St :=
  s.saveKey.map fun s => { s.take 1 t with keys := none :: s.keys, keyAllowed := true }

def closeFlow (s : St) (t : Token) : Option St :=
  s.dropKey.map fun s =>
    { s.take 1 t with
      keys := if s.keys.length > 1 then s.keys.tail else s.keys
      keyAllowed := false }

def flowSeparator (s : St) : Option St :=
  s.dropKey.map fun s => { s.take 1 .flowEntry with keyAllowed := true }

/-- An indicator that opens a block collection of its own outside flow collections. -/
def blockIndicator (s : St) (opens t : Token) (allowed : Bool) : Option St :=
  if !s.inFlow && !s.keyAllowed then none
  else
    (s.roll s.pos.column s.tokens.length opens).dropKey.map fun s =>
      { s.take 1 t with keyAllowed := allowed }

def valueIndicator (s : St) : Option St :=
  match s.keys.head? with
  | some (some k) =>
    let s := (s.insert k.tokens .key).roll k.column k.tokens .blockMapping
    some { (s.setKey none).take 1 .value with keyAllowed := false }
  | _ =>
    if !s.inFlow && !s.keyAllowed then none
    else
      let s := s.roll s.pos.column s.tokens.length .blockMapping
      some { s.take 1 .value with keyAllowed := !s.inFlow }

def isNameChar (c : Char) : Bool := c.isAlphanum || c == '_' || c == '-'

/-- An anchor or an alias, whose name ends before a blank or an indicator. -/
def name (s : St) (make : String → Token) : Option St :=
  let (chars, p) := s.pos.skip.takeWhile isNameChar
  let ends := atBlankOrEnd p.rest || p.head?.any fun c => "?:,]\x7d%@`".toList.contains c
  if chars.isEmpty || !ends then none
  else s.saveKey.map fun s =>
    { s.add (make (String.ofList chars)) with pos := p, keyAllowed := false }

def tagToken (s : St) : Option St :=
  let p := (s.pos.takeWhile fun c => !isBlank c && !isBreak c && !(s.inFlow && isFlowIndicator c)).2
  s.saveKey.map fun s => { s.add .tag with pos := p, keyAllowed := false }

def quotedScalar (s : St) : Option St := do
  let s ← s.saveKey
  let (text, p) ← quoted s.pos
  return { s.add (.scalar (String.ofList text) false) with pos := p, keyAllowed := false }

def plainScalar (s : St) : Option St := do
  let s ← s.saveKey
  let (text, afterBreak, p) ← plain s.inFlow (s.indent + 1) s.pos
  return { s.add (.scalar (String.ofList text) true) with pos := p, keyAllowed := afterBreak }

def blockScalar (s : St) : Option St := do
  let s ← s.dropKey
  let (text, p) ← block s.indent s.pos
  return { s.add (.scalar (String.ofList text) false) with pos := p, keyAllowed := true }

/-- Whether a plain scalar may start with `c` before `r`. -/
def startsPlain (s : St) (c : Char) (r : List Char) : Bool :=
  (!isBlank c && !"-?:,[]\x7b\x7d#&*!|>'\"%@`".toList.contains c) ||
    (c == '-' && !r.head?.any isBlank) ||
    (!s.inFlow && (c == '?' || c == ':') && !atBlankOrEnd r)

/-- Reads the token that starts with `c`, before `r`. -/
def token (s : St) (c : Char) (r : List Char) : Option St :=
  if s.pos.column == 0 && c == '%' then none
  else if s.pos.atMarker "---" then s.documentMarker .documentStart
  else if s.pos.atMarker "..." then s.documentMarker .documentEnd
  else if c == '[' then s.openFlow .flowSequence
  else if c == '\x7b' then s.openFlow .flowMapping
  else if c == ']' then s.closeFlow .flowSequenceEnd
  else if c == '\x7d' then s.closeFlow .flowMappingEnd
  else if c == ',' then s.flowSeparator
  else if c == '-' && atBlankOrEnd r then s.blockIndicator .blockSequence .blockEntry true
  else if c == '?' && (s.inFlow || atBlankOrEnd r) then
    s.blockIndicator .blockMapping .key !s.inFlow
  else if c == ':' && (s.inFlow || atBlankOrEnd r) then s.valueIndicator
  else if c == '*' then s.name .alias
  else if c == '&' then s.name .anchor
  else if c == '!' then s.tagToken
  else if (c == '|' || c == '>') && !s.inFlow then s.blockScalar
  else if c == '\'' || c == '"' then s.quotedScalar
  else if s.startsPlain c r then s.plainScalar
  else none

/-- Reads tokens up to the end of the stream. -/
def run : Nat → St → Option St
  | 0, _ => none
  | fuel + 1, s =>
    match (s.skipToToken (s.pos.rest.length + 1)).dropStale with
    | none => none
    | some s =>
      match s.pos.rest with
      | [] => (s.unrollTo (-1)).dropKey
      | c :: r =>
        match (s.unrollTo s.pos.column).token c r with
        | none => none
        | some s => run fuel s

end St

/-- Passes a byte order mark in front of a stream, which takes up a column. -/
def Cursor.skipMark (p : Cursor) : Cursor := if p.head? == some '\ufeff' then p.skip else p

/-- The tokens of a stream, or `none` if it is malformed. -/
def tokens? (text : List Char) : Option (List Token) :=
  if text.all isAllowed then
    (St.run (text.length + 1) { pos := Cursor.skipMark { rest := text } }).map St.tokens
  else none

end ContractBuild.Yaml

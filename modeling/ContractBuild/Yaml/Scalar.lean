import ContractBuild.Text.Json
import ContractBuild.Yaml.Cursor

/-!
Scalars of a YAML stream: quoted, plain and block. Each reader takes the place where the scalar
starts and gives its text and the place after it.
-/

namespace ContractBuild.Yaml

/-! ### Quoted -/

/-- Escapes of one letter in a double-quoted scalar. -/
def letterEscape (c : Char) : Option Nat :=
  match c with
  | '0' => some 0x0
  | 'a' => some 0x7
  | 'b' => some 0x8
  | 't' | '\t' => some 0x9
  | 'n' => some 0xa
  | 'v' => some 0xb
  | 'f' => some 0xc
  | 'r' => some 0xd
  | 'e' => some 0x1b
  | ' ' => some 0x20
  | '"' => some 0x22
  | '/' => some 0x2f
  | '\\' => some 0x5c
  | 'N' => some 0x85
  | '_' => some 0xa0
  | 'L' => some 0x2028
  | 'P' => some 0x2029
  | _ => none

/-- The number of hexadecimal digits after an escape letter. -/
def hexEscape (c : Char) : Option Nat :=
  match c with
  | 'x' => some 2
  | 'u' => some 4
  | 'U' => some 8
  | _ => none

def hexNumber (ds : List Char) : Option Nat :=
  ds.foldlM (fun n d => (Text.Json.hexValue d).map (n * 16 + ·)) 0

/-- The character of an escape, which starts with its letter, and the place after it. -/
def escaped (p : Cursor) : Option (Char × Cursor) :=
  match p.rest with
  | [] => none
  | c :: r =>
    match letterEscape c, hexEscape c with
    | some n, _ => some (Char.ofNat n, p.skip)
    | none, none => none
    | none, some width =>
      if r.length < width then none
      else match hexNumber (r.take width) with
        | none => none
        | some n =>
          if n.isValidChar then some (Char.ofNat n, p.skipN (width + 1)) else none

/-- The rest of a quoted scalar after `gap`. -/
def quotedRest (quote : Char) : Nat → Gap → Cursor → Option (List Char × Cursor)
  | 0, _, _ => none
  | fuel + 1, gap, p =>
    match p.rest with
    | [] => none
    | c :: r =>
      let emit (text : List Char) (p : Cursor) :=
        (quotedRest quote fuel {} p).map fun q => (gap.fold ++ text ++ q.1, q.2)
      if isBlank c then quotedRest quote fuel (gap.blank c) p.skip
      else if isBreak c then quotedRest quote fuel (gap.lineBreak p.lineBreak) p.skipLine
      else if p.atDocumentMarker then none
      else if c == quote then
        if quote == '\'' && r.head? == some '\'' then emit ['\''] (p.skipN 2)
        else some (gap.fold, p.skip)
      else if quote == '"' && c == '\\' then
        if r.head?.any isBreak then
          -- an escaped line break leaves no space
          (quotedRest quote fuel { first := some [] } p.skip.skipLine).map fun q =>
            (gap.fold ++ q.1, q.2)
        else match escaped p.skip with
          | some (e, p') => emit [e] p'
          | none => none
      else emit [c] p.skip

def quoted (p : Cursor) : Option (List Char × Cursor) :=
  match p.rest with
  | q :: r => quotedRest q (r.length + 1) {} p.skip
  | [] => none

/-! ### Plain -/

def isFlowIndicator (c : Char) : Bool :=
  c == ',' || c == '[' || c == ']' || c == '\x7b' || c == '\x7d'

/-- The rest of a plain scalar, which has to stay at `indent` or right of it outside flow
collections. The flag tells whether the scalar ended after a line break. -/
def plainRest (flow : Bool) (indent : Int) : Nat → Gap → Cursor → Option (List Char × Bool × Cursor)
  | 0, _, _ => none
  | fuel + 1, gap, p =>
    let stop : Option (List Char × Bool × Cursor) := some ([], gap.first.isSome, p)
    match p.rest with
    | [] => stop
    | c :: r =>
      if isBlank c then
        if gap.first.isSome && c == '\t' && (p.column : Int) < indent then none
        else plainRest flow indent fuel (gap.blank c) p.skip
      else if isBreak c then plainRest flow indent fuel (gap.lineBreak p.lineBreak) p.skipLine
      else if !gap.isEmpty && !flow && (p.column : Int) < indent then stop
      else if p.atDocumentMarker then stop
      else if !gap.isEmpty && c == '#' then stop
      else if flow && c == ':' && r.head?.any fun d => isFlowIndicator d || d == '?' then none
      else if (c == ':' && atBlankOrEnd r) || (flow && isFlowIndicator c) then stop
      else (plainRest flow indent fuel {} p.skip).map fun q => (gap.fold ++ c :: q.1, q.2)

def plain (flow : Bool) (indent : Int) (p : Cursor) : Option (List Char × Bool × Cursor) :=
  plainRest flow indent (p.rest.length + 1) {} p

/-! ### Block -/

inductive Chomp where
  | clip
  | strip
  | keep
  deriving DecidableEq

/-- The header of a block scalar: how its end is chomped and its own indentation, if given. -/
def blockHeader (cs : List Char) : Option (Chomp × Option Nat × List Char) :=
  let chompOf (c : Char) : Option Chomp :=
    if c == '+' then some .keep else if c == '-' then some .strip else none
  let digit (cs : List Char) : Option (Option Nat × List Char) :=
    match cs with
    | d :: r =>
      if d == '0' then none else if d.isDigit then some (some (d.toNat - 48), r) else some (none, cs)
    | [] => some (none, [])
  match cs with
  | [] => some (.clip, none, [])
  | c :: r =>
    match chompOf c with
    | some chomp => (digit r).map fun d => (chomp, d.1, d.2)
    | none =>
      match digit cs with
      | none => none
      | some (none, r) => some (.clip, none, r)
      | some (width, r) =>
        match r with
        | c :: r' =>
          match chompOf c with
          | some chomp => some (chomp, width, r')
          | none => some (.clip, width, r)
        | [] => some (.clip, width, [])

/-- Passes the indentation and the empty lines before a line of text. With no indentation known
yet, the widest one met is found. -/
def blockBreaks (indent : Option Nat) : Nat → Nat → Cursor → Option (List Char × Nat × Cursor)
  | 0, _, _ => none
  | fuel + 1, widest, p =>
    let inside := indent.all fun n => p.column < n
    match p.rest with
    | [] => some ([], max widest p.column, p)
    | c :: _ =>
      if inside && c == ' ' then blockBreaks indent fuel widest p.skip
      else if inside && c == '\t' then none
      else if isBreak c then
        (blockBreaks indent fuel (max widest p.column) p.skipLine).map fun q =>
          (p.lineBreak ++ q.1, q.2)
      else some ([], max widest p.column, p)

/-- The lines of a block scalar. `leading` is the line break before the next line, `trailing` the
empty lines after it, and `wasBlank` tells whether the line before starts with a blank. -/
def blockLines (literal : Bool) (chomp : Chomp) (indent : Nat) :
    Nat → List Char → List Char → Bool → Cursor → Option (List Char × Cursor)
  | 0, _, _, _, _ => none
  | fuel + 1, leading, trailing, wasBlank, p =>
    let ending := (if chomp = .strip then [] else leading) ++ if chomp = .keep then trailing else []
    match p.rest with
    | [] => some (ending, p)
    | c :: _ =>
      if p.column ≠ indent then some (ending, p)
      else
        let isBlankLine := isBlank c
        let joined :=
          if !literal && leading == ['\n'] && !wasBlank && !isBlankLine then
            if trailing.isEmpty then [' '] else trailing
          else leading ++ trailing
        let (text, p) := p.takeWhile (!isBreak ·)
        let leading := p.lineBreak
        match blockBreaks (some indent) (p.rest.length + 1) 0 p.skipLine with
        | none => none
        | some (trailing, _, p) =>
          (blockLines literal chomp indent fuel leading trailing isBlankLine p).map fun q =>
            (joined ++ text ++ q.1, q.2)

/-- A block scalar inside a collection indented by `parent`, which is negative at the top. -/
def block (parent : Int) (p : Cursor) : Option (List Char × Cursor) :=
  let literal := p.head? == some '|'
  let p := p.skip
  match blockHeader p.rest with
  | none => none
  | some (chomp, width, r) =>
    let p := p.skipN (p.rest.length - r.length)
    let blanks := (p.takeWhile isBlank).2
    let p := if blanks.head? == some '#' then (blanks.takeWhile (!isBreak ·)).2 else blanks
    if !p.head?.all isBreak then none
    else
      let p := if p.rest.isEmpty then p else p.skipLine
      let given := width.map fun n => if parent ≥ 0 then parent.toNat + n else n
      match blockBreaks given (p.rest.length + 1) 0 p with
      | none => none
      | some (trailing, widest, p) =>
        let indent := given.getD (max widest (max (parent + 1).toNat 1))
        blockLines literal chomp indent (p.rest.length + 1) [] trailing false p

end ContractBuild.Yaml

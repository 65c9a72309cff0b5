import ContractBuild.Version.Basic

/-!
Version requirements: comparators that a version has to satisfy all at once.

A pre-release satisfies a requirement only if some comparator names a pre-release of the same
release.
-/

namespace ContractBuild.Version

open ContractBuild.Text

inductive Operator where
  | exact
  | greater
  | greaterEq
  | less
  | lessEq
  | tilde
  | caret
  | wildcard
  deriving DecidableEq

def Operator.text : Operator → String
  | exact => "="
  | greater => ">"
  | greaterEq => ">="
  | less => "<"
  | lessEq => "<="
  | tilde => "~"
  | caret => "^"
  | wildcard => ""

structure Comparator where
  op : Operator
  major : Nat
  minor : Option Nat
  patch : Option Nat
  pre : PreRelease
  deriving DecidableEq

/-- An empty list of comparators admits every release. -/
structure Requirement where
  comparators : List Comparator
  deriving DecidableEq

namespace Comparator

def text (c : Comparator) : String :=
  let wild := if c.op = .wildcard then ".*" else ""
  c.op.text ++ toString c.major ++
    match c.minor, c.patch with
    | none, _ => wild
    | some minor, none => "." ++ toString minor ++ wild
    | some minor, some patch =>
      s!".{minor}.{patch}" ++ if c.pre.isEmpty then "" else "-" ++ preText c.pre

/-- Whether the parts that the comparator gives are those of the version. -/
def isExact (c : Comparator) (v : Version) : Bool :=
  v.major == c.major && c.minor.all (v.minor == ·) && c.patch.all (v.patch == ·) && v.pre == c.pre

/-- Precedence of a version against the comparator; a missing part equals any. -/
def order (c : Comparator) (v : Version) : Ordering :=
  (Ord.compare v.major c.major).then <|
    match c.minor with
    | none => .eq
    | some minor => (Ord.compare v.minor minor).then <|
      match c.patch with
      | none => .eq
      | some patch => (Ord.compare v.patch patch).then (comparePre v.pre c.pre)

def isTilde (c : Comparator) (v : Version) : Bool :=
  v.major == c.major && c.minor.all (v.minor == ·) &&
    match c.patch with
    | some patch =>
      if v.patch = patch then (comparePre v.pre c.pre).isGE else v.patch > patch
    | none => (comparePre v.pre c.pre).isGE

/-- No change to the left-most part that is not zero. -/
def isCaret (c : Comparator) (v : Version) : Bool :=
  v.major == c.major &&
    match c.minor with
    | none => true
    | some minor =>
      match c.patch with
      | none => if c.major > 0 then v.minor ≥ minor else v.minor == minor
      | some patch =>
        let pre := (comparePre v.pre c.pre).isGE
        if c.major > 0 then
          if v.minor = minor then if v.patch = patch then pre else v.patch > patch
          else v.minor > minor
        else if minor > 0 then
          v.minor == minor && if v.patch = patch then pre else v.patch > patch
        else v.minor == minor && v.patch == patch && pre

def isMet (c : Comparator) (v : Version) : Bool :=
  match c.op with
  | .exact | .wildcard => c.isExact v
  | .greater => c.order v == .gt
  | .greaterEq => c.isExact v || c.order v == .gt
  | .less => c.order v == .lt
  | .lessEq => c.isExact v || c.order v == .lt
  | .tilde => c.isTilde v
  | .caret => c.isCaret v

/-- Whether the comparator lets the pre-release `v` in. -/
def namesPreOf (c : Comparator) (v : Version) : Bool :=
  c.major == v.major && c.minor == some v.minor && c.patch == some v.patch && !c.pre.isEmpty

end Comparator

namespace Requirement

def text (r : Requirement) : String :=
  if r.comparators.isEmpty then "*" else String.intercalate ", " (r.comparators.map Comparator.text)

def isMet (r : Requirement) (v : Version) : Bool :=
  r.comparators.all (·.isMet v) && (v.pre.isEmpty || r.comparators.any (·.namesPreOf v))

/-! ### Reading -/

def skipSpaces (cs : List Char) : List Char := cs.dropWhile (· == ' ')

/-- The operator in front of a comparator, if one is written. -/
def operator : List Char → Option Operator × List Char
  | '=' :: r => (some .exact, r)
  | '>' :: '=' :: r => (some .greaterEq, r)
  | '>' :: r => (some .greater, r)
  | '<' :: '=' :: r => (some .lessEq, r)
  | '<' :: r => (some .less, r)
  | '~' :: r => (some .tilde, r)
  | '^' :: r => (some .caret, r)
  | r => (none, r)

/-- A number without leading zeros, and the rest. -/
def number? (cs : List Char) : Option (Nat × List Char) :=
  let ds := cs.takeWhile Char.isDigit
  if ds.head? = some '0' && ds.length > 1 then none
  else (wordOfDigits? ds).map fun n => (n, cs.drop ds.length)

def wildcard? : List Char → Option (List Char)
  | c :: r => if c == '*' || c == 'x' || c == 'X' then some r else none
  | [] => none

/-- A part after the major number. -/
inductive Part where
  | missing
  | wild
  | given (n : Nat)

def part? : List Char → Option (Part × List Char)
  | '.' :: r =>
    match wildcard? r with
    | some r' => some (.wild, r')
    | none => (number? r).map fun p => (.given p.1, p.2)
  | r => some (.missing, r)

def Part.toOption : Part → Option Nat
  | .given n => some n
  | _ => none

def Part.isWild : Part → Bool
  | .wild => true
  | _ => false

/-- The pre-release after a full release, which may not be empty. -/
def preTail? : List Char → Option (PreRelease × List Char)
  | '-' :: r =>
    match preHead? r with
    | some ([], _) => none
    | found => found
  | r => some ([], r)

/-- The rest after the build metadata of a full release. -/
def buildTail? : List Char → Option (List Char)
  | '+' :: r =>
    let run := r.takeWhile fun c => isIdentifierChar c || c == '.'
    if (run.splitOn '.').all (!·.isEmpty) then some (r.drop run.length) else none
  | r => some r

def comparator? (cs : List Char) : Option (Comparator × List Char) := do
  let (op, r) := operator cs
  let (major, r) ← number? (skipSpaces r)
  let (minor, r) ← part? r
  let (patch, r) ← part? r
  -- after a wildcard only another one may follow
  if minor.isWild && patch.toOption.isSome then none
  let (pre, r) ← if patch.toOption.isSome then preTail? r else some ([], r)
  let r ← if patch.toOption.isSome then buildTail? r else some r
  let usual := if minor.isWild || patch.isWild then .wildcard else .caret
  return (⟨op.getD usual, major, minor.toOption, patch.toOption, pre⟩, skipSpaces r)

/-- Comparators separated by commas, at most `limit` of them. -/
def comparators? : Nat → List Char → Option (List Comparator)
  | 0, _ => none
  | limit + 1, cs =>
    match comparator? cs with
    | none => none
    | some (c, []) => some [c]
    | some (c, ',' :: r) => (comparators? limit (skipSpaces r)).map (c :: ·)
    | some _ => none

def maxComparators : Nat := 32

def ofChars? (cs : List Char) : Option Requirement :=
  let cs := skipSpaces cs
  match wildcard? cs with
  | some r => if (skipSpaces r).isEmpty then some ⟨[]⟩ else none
  | none => (comparators? maxComparators cs).map Requirement.mk

end Requirement

end ContractBuild.Version

import ContractBuild.Text.Decimal

/-!
Semantic versions: three numbers and the identifiers of a pre-release, with their precedence.
-/

namespace ContractBuild

open ContractBuild.Text

namespace Version

/-- A dot-separated part of a pre-release. -/
inductive Identifier where
  | number (n : Nat)
  | word (s : String)
  deriving DecidableEq

def Identifier.text : Identifier → String
  | .number n => toString n
  | .word s => s

/-- Numbers come before words; each kind has its own order. -/
def Identifier.compare : Identifier → Identifier → Ordering
  | .number a, .number b => Ord.compare a b
  | .number _, .word _ => .lt
  | .word _, .number _ => .gt
  | .word a, .word b => Ord.compare a b

abbrev PreRelease := List Identifier

/-- Identifier by identifier; a proper initial part comes first. -/
def compareIdentifiers : PreRelease → PreRelease → Ordering
  | [], [] => .eq
  | [], _ :: _ => .lt
  | _ :: _, [] => .gt
  | a :: r, b :: s => (a.compare b).then (compareIdentifiers r s)

/-- A release, which has no identifiers, comes after its pre-releases. -/
def comparePre : PreRelease → PreRelease → Ordering
  | [], [] => .eq
  | [], _ :: _ => .gt
  | _ :: _, [] => .lt
  | a :: r, b :: s => compareIdentifiers (a :: r) (b :: s)

def preText (pre : PreRelease) : String := String.intercalate "." (pre.map Identifier.text)

end Version

structure Version where
  major : Nat
  minor : Nat
  patch : Nat
  pre : Version.PreRelease := []
  deriving DecidableEq

namespace Version

def text (v : Version) : String :=
  s!"{v.major}.{v.minor}.{v.patch}" ++ if v.pre.isEmpty then "" else "-" ++ preText v.pre

/-- Precedence of versions. -/
def compare (a b : Version) : Ordering :=
  (Ord.compare a.major b.major).then <| (Ord.compare a.minor b.minor).then <|
    (Ord.compare a.patch b.patch).then <| comparePre a.pre b.pre

/-! ### Reading identifiers -/

def isIdentifierChar (c : Char) : Bool := c.isAlphanum || c == '-'

/-- One identifier. A number has no leading zero. -/
def Identifier.ofChars? (cs : List Char) : Option Identifier :=
  if cs.isEmpty || !cs.all isIdentifierChar then none
  else if cs.all Char.isDigit then
    if cs.head? = some '0' && cs.length > 1 then none else some (.number (digitsValue cs))
  else some (.word (String.ofList cs))

/-- The identifiers that a text starts with, and the rest of it. -/
def preHead? (cs : List Char) : Option (PreRelease × List Char) :=
  let run := cs.takeWhile fun c => isIdentifierChar c || c == '.'
  if run.isEmpty then some ([], cs)
  else ((run.splitOn '.').mapM Identifier.ofChars?).map fun pre => (pre, cs.drop run.length)

/-- A text that consists of identifiers. -/
def preOfChars? (cs : List Char) : Option PreRelease :=
  match preHead? cs with
  | some (pre, []) => some pre
  | _ => none

end Version

end ContractBuild

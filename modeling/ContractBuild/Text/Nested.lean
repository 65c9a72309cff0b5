import ContractBuild.Text.Chars

/-!
Cutting a text where it stands outside all brackets.

The three kinds of bracket count alike, and a closing bracket at depth `0` stays there.
-/

namespace ContractBuild.Text

def isOpening (c : Char) : Bool := c == '(' || c == '[' || c == '\x7b'

def isClosing (c : Char) : Bool := c == ')' || c == ']' || c == '\x7d'

/-- The bracket depth after reading `c` at depth `d`. -/
def depthAfter (d : Nat) (c : Char) : Nat :=
  if isOpening c then d + 1 else if isClosing c then d - 1 else d

/-- The parts between the occurrences of `sep` at depth `0`, for a text that starts at depth `d`. -/
def splitAtDepth (sep : Char) : Nat → List Char → List (List Char)
  | _, [] => [[]]
  | d, c :: r =>
    if isOpening c || isClosing c then
      (splitAtDepth sep (depthAfter d c) r).modifyHead (c :: ·)
    else if c == sep && d == 0 then [] :: splitAtDepth sep d r
    else (splitAtDepth sep d r).modifyHead (c :: ·)

def splitTop (sep : Char) (cs : List Char) : List (List Char) := splitAtDepth sep 0 cs

/-- A character that makes an equals sign after it part of a comparison or an assignment
expression. -/
def joinsEquals (c : Char) : Bool := c == '=' || c == '<' || c == '>' || c == '!' || c == ':'

/-- The texts before and after the first `target` at depth `0`. An equals sign that is part of a
longer operator is passed over. -/
def cutAtDepth (target : Char) : Option Char → Nat → List Char → Option (List Char × List Char)
  | _, _, [] => none
  | prev, d, c :: r =>
    let onward (d : Nat) := (cutAtDepth target (some c) d r).map fun p => (c :: p.1, p.2)
    if isOpening c || isClosing c then onward (depthAfter d c)
    else if c == target && d == 0 then
      if target == '=' && (prev.any joinsEquals || r.head? == some '=') then onward d
      else some ([], r)
    else onward d

def cutTop (target : Char) (cs : List Char) : Option (List Char × List Char) :=
  cutAtDepth target none 0 cs

/-- For a text that stands inside `d` brackets, what comes before and after the bracket that
closes the outermost of them. -/
def cutClosing : Nat → List Char → Option (List Char × List Char)
  | _, [] => none
  | d, c :: r =>
    let onward (d : Nat) := (cutClosing d r).map fun p => (c :: p.1, p.2)
    if isOpening c then onward (d + 1)
    else if isClosing c then if d ≤ 1 then some ([], r) else onward (d - 1)
    else onward d

end ContractBuild.Text

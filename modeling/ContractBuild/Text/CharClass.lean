import ContractBuild.Text.Alphabetic
import ContractBuild.Text.Mark
import ContractBuild.Text.Numeric

/-!
Character classes over all of Unicode: blanks, letters, digits, word characters, and the
identifiers built from them.
-/

namespace ContractBuild.Text

def inRanges (table : List (Nat × Nat)) (c : Char) : Bool :=
  table.any fun r => r.1 ≤ c.toNat && c.toNat ≤ r.2

/-- The code points with the property White_Space. -/
def blankRanges : List (Nat × Nat) :=
  [(0x9, 0xd), (0x20, 0x20), (0x85, 0x85), (0xa0, 0xa0), (0x1680, 0x1680), (0x2000, 0x200a),
   (0x2028, 0x2029), (0x202f, 0x202f), (0x205f, 0x205f), (0x3000, 0x3000)]

/-- The general category Connector_Punctuation. -/
def connectorRanges : List (Nat × Nat) :=
  [(0x5f, 0x5f), (0x203f, 0x2040), (0x2054, 0x2054), (0xfe33, 0xfe34), (0xfe4d, 0xfe4f),
   (0xff3f, 0xff3f)]

/-- The property Join_Control. -/
def joinerRanges : List (Nat × Nat) := [(0x200c, 0x200d)]

def isBlank (c : Char) : Bool := inRanges blankRanges c

def isLetter (c : Char) : Bool := inRanges alphabeticRanges c

def isDecimalDigit (c : Char) : Bool := inRanges decimalDigitRanges c

def isLetterOrNumber (c : Char) : Bool := isLetter c || inRanges numericRanges c

/-- The characters of a word in the sense of Unicode's compatibility properties. -/
def isWordChar (c : Char) : Bool :=
  isLetter c || inRanges markRanges c || isDecimalDigit c || inRanges connectorRanges c ||
    inRanges joinerRanges c

def isAsciiLetterOrUnderscore (c : Char) : Bool := c.isAlpha || c == '_'

/-- A letter or underscore, then letters, numbers and underscores. -/
def isIdentifier : List Char → Bool
  | [] => false
  | c :: r => (c == '_' || isLetter c) && r.all fun d => d == '_' || isLetterOrNumber d

end ContractBuild.Text

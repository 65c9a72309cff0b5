import ContractBuild.Text.Chars

/-!
Unsigned 64-bit numbers written in decimal.
-/

namespace ContractBuild.Text

/-- The numbers that fit into 64 bits lie below this one. -/
def wordLimit : Nat := UInt64.size

def digitsValue (ds : List Char) : Nat := ds.foldl (fun n d => n * 10 + (d.toNat - 48)) 0

/-- A number below the limit written with ASCII digits, leading zeros allowed. -/
def wordOfDigits? (ds : List Char) : Option Nat :=
  if !ds.isEmpty && ds.all Char.isDigit && digitsValue ds < wordLimit then some (digitsValue ds)
  else none

/-- The same, with a plus sign allowed in front. -/
def wordOfSigned? (cs : List Char) : Option Nat :=
  match cs with
  | '+' :: ds => wordOfDigits? ds
  | ds => wordOfDigits? ds

end ContractBuild.Text

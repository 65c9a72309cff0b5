import ContractBuild.Host.Basic

/-!
Directories that exist only while some work is done.
-/

namespace ContractBuild.Host

open ContractBuild.Disk

def base36 (n : Nat) : Char := Char.ofNat (if n < 10 then 48 + n else 87 + n)

def base36Digits : Nat → Nat → List Char
  | 0, _ => []
  | count + 1, n => base36 (n % 36) :: base36Digits count (n / 36)

/-- Six letters and digits made from a drawn number. -/
def scratchSuffix (n : Nat) : String := String.ofList (base36Digits 6 n)

/-- Works in a new directory whose name starts as given; it is removed however the work ends. -/
def inScratch {ε α : Type} (wrap : Fault → ε) (root : Path) (lead : String)
    (act : Path → Attempt ε α) : Attempt ε α := do
  let dir := root.joinName (lead ++ scratchSuffix (← draw))
  match ← (alter (·.makeDirectory dir)).result with
  | .error f => throw (wrap (.other s!"{f.message} at path \"{dir.text}\""))
  | .ok () =>
    let result ← (act dir).result
    quietly (alter (·.removeDirectory dir))
    match result with
    | .ok a => return a
    | .error e => throw e

end ContractBuild.Host

import ContractBuild.Text.Utf8

/-!
Reading and writing the parts that binary modules are made of: bytes, numbers in LEB128, names and
vectors.

A number may be written with more groups than it needs, up to the width of its type. Writing uses
the fewest.
-/

namespace ContractBuild.Wasm

/-- Takes a value off the front of the bytes, or fails. -/
abbrev Reader (α : Type) := StateT Bytes Option α

namespace Reader

def byte : Reader UInt8 := fun bs =>
  match bs with
  | b :: r => some (b, r)
  | [] => none

/-- The next byte, which stays where it is. -/
def peek : Reader UInt8 := fun bs => bs.head?.map fun b => (b, bs)

def take (n : Nat) : Reader Bytes := fun bs =>
  if n ≤ bs.length then some (bs.take n, bs.drop n) else none

def check (b : Bool) : Reader Unit := fun bs => if b then some ((), bs) else none

/-- Seven payload bits of a group. -/
def low (b : UInt8) : Nat := b.toNat % 128

/-- An unsigned number of at most `width` bits. -/
def unsignedFrom : Nat → Bytes → Option (Nat × Bytes)
  | _, [] => none
  | width, b :: r =>
    if width ≤ 7 then if b.toNat < 1 <<< width then some (b.toNat, r) else none
    else if b.toNat < 128 then some (b.toNat, r)
    else (unsignedFrom (width - 7) r).map fun p => (low b + 128 * p.1, p.2)

/-- The payload of a last group in two's complement. -/
def signExtend (n : Nat) : Int := if n < 64 then n else n - 128

/-- A signed number of at most `width` bits. -/
def signedFrom : Nat → Bytes → Option (Int × Bytes)
  | _, [] => none
  | width, b :: r =>
    if width ≤ 7 then
      if b.toNat < 128 ∧ (b.toNat < 1 <<< (width - 1) ∨ 128 ≤ b.toNat + 1 <<< (width - 1)) then
        some (signExtend b.toNat, r)
      else none
    else if b.toNat < 128 then some (signExtend b.toNat, r)
    else (signedFrom (width - 7) r).map fun p => (low b + 128 * p.1, p.2)

def u32 : Reader Nat := unsignedFrom 32

def u64 : Reader Nat := unsignedFrom 64

def s32 : Reader Int := signedFrom 32

def s33 : Reader Int := signedFrom 33

def s64 : Reader Int := signedFrom 64

def times {α : Type} (item : Reader α) : Nat → Reader (List α)
  | 0 => pure []
  | n + 1 => do
    let x ← item
    return x :: (← times item n)

/-- A count and as many items. -/
def vector {α : Type} (item : Reader α) : Reader (List α) := do times item (← u32)

/-- The longest name, in bytes. -/
def maxNameLength : Nat := 100000

def name : Reader String := do
  let n ← u32
  check (n ≤ maxNameLength)
  match Text.Utf8.decode (← take n) with
  | .ok s => return s
  | .error _ => failure

/-- Items up to the end of the bytes; `fuel` bounds their number. -/
def many {α : Type} (item : Reader α) : Nat → Bytes → Option (List α)
  | _, [] => some []
  | 0, _ :: _ => none
  | fuel + 1, bs =>
    match item bs with
    | some (x, r) => (many item fuel r).map (x :: ·)
    | none => none

/-- Runs a reader that has to use up all bytes. -/
def whole {α : Type} (r : Reader α) (bs : Bytes) : Option α :=
  match r bs with
  | some (x, []) => some x
  | _ => none

end Reader

/-- A number in the fewest groups, at most `groups` of them. -/
def writeGroups : Nat → Nat → Bytes
  | 0, _ => []
  | groups + 1, n =>
    if n < 128 then [UInt8.ofNat n]
    else UInt8.ofNat (n % 128 + 128) :: writeGroups groups (n / 128)

def writeU32 (n : Nat) : Bytes := writeGroups 5 n

/-- Bytes after their length. -/
def writeSized (bs : Bytes) : Bytes := writeU32 bs.length ++ bs

end ContractBuild.Wasm

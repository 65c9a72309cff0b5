import ContractBuild.Text.Decimal

/-!
Points in time, written as in RFC 3339.

Reading is lenient: blanks may stand in front of numbers, marks and the offset, numbers may be
shorter, a blank may divide date and time, and `UTC` may stand for the offset.
-/

namespace ContractBuild.Text.Timestamp

/-- A number of at most `width` digits. -/
def number (width : Nat) (cs : List Char) : Option (Nat × List Char) :=
  let cs := trimLeft cs
  let digits := (cs.take width).takeWhile Char.isDigit
  if digits.isEmpty then none else some (digitsValue digits, cs.drop digits.length)

/-- A year of at most four digits, or of any length after a sign. -/
def year (cs : List Char) : Option (Int × List Char) := do
  let cs := trimLeft cs
  match cs with
  | '-' :: r =>
    let (n, rest) ← signed r
    return (-n, rest)
  | '+' :: r => signed r
  | _ =>
    let (n, rest) ← number 4 cs
    return (n, rest)
where
  signed (r : List Char) : Option (Int × List Char) :=
    let digits := r.takeWhile Char.isDigit
    if digits.isEmpty then none else some (digitsValue digits, r.drop digits.length)

def mark (c : Char) (cs : List Char) : Option (List Char) :=
  match trimLeft cs with
  | d :: r => if d = c then some r else none
  | [] => none

def isLeap (year : Int) : Bool := year % 4 = 0 && (year % 100 ≠ 0 || year % 400 = 0)

def daysIn (year : Int) (month : Nat) : Nat :=
  if month = 2 then (if isLeap year then 29 else 28)
  else if month = 4 ∨ month = 6 ∨ month = 9 ∨ month = 11 then 30
  else 31

/-- The largest year that the calendar covers. -/
def lastYear : Int := 262142

def date (cs : List Char) : Option (List Char) := do
  let (y, cs) ← year cs
  let (m, cs) ← number 2 (← mark '-' cs)
  let (d, cs) ← number 2 (← mark '-' cs)
  if -lastYear - 1 ≤ y ∧ y ≤ lastYear ∧ 1 ≤ m ∧ m ≤ 12 ∧ 1 ≤ d ∧ d ≤ daysIn y m then some cs
  else none

/-- A part of a second. -/
def fraction (cs : List Char) : Option (List Char) :=
  match cs with
  | '.' :: r =>
    let digits := r.takeWhile Char.isDigit
    if digits.isEmpty then none else some (r.drop digits.length)
  | _ => some cs

/-- A time of day; a minute may have a leap second. -/
def time (cs : List Char) : Option (List Char) := do
  let (h, cs) ← number 2 cs
  let (m, cs) ← number 2 (← mark ':' cs)
  let (s, cs) ← number 2 (← mark ':' cs)
  if h < 24 ∧ m < 60 ∧ s ≤ 60 then fraction cs else none

/-- Two digits with a value below `limit`. -/
def pair (limit : Nat) (cs : List Char) : Option (List Char) :=
  match cs with
  | a :: b :: r => if a.isDigit ∧ b.isDigit ∧ digitsValue [a, b] < limit then some r else none
  | _ => none

/-- The difference to universal time. -/
def offset (cs : List Char) : Option (List Char) := do
  match trimLeft cs with
  | c :: r =>
    if c = 'Z' ∨ c = 'z' then return r
    if c = '+' ∨ c = '-' ∨ c.toNat = 0x2212 then
      let r ← pair 24 r
      return ← pair 60 (r.dropWhile fun d => d == ':' || isBlank d)
    if (c :: r.take 2).map Char.toUpper = ['U', 'T', 'C'] then return r.drop 2
    none
  | [] => none

def isTimestamp (s : String) : Bool :=
  let rest := do
    match ← date s.toList with
    | c :: r => if c = 'T' ∨ c = 't' ∨ c = ' ' then offset (← time r) else none
    | [] => none
  rest.any fun r => (trimLeft r).isEmpty

end ContractBuild.Text.Timestamp

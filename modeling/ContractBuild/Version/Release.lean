import ContractBuild.Version.Basic

/-!
Package versions as distributions write them, read leniently.

`1.2` is `1.2.0` and `2.0rc1` is `2.0.0-rc.1`. Further release numbers, post-releases and local
labels are passed over.
-/

namespace ContractBuild.Version

open ContractBuild.Text

def isSeparator (c : Char) : Bool := c == '-' || c == '_' || c == '.'

def skipSeparator : List Char → List Char
  | c :: r => if isSeparator c then r else c :: r
  | [] => []

/-- A letter as words are compared here: ASCII case does not count, and the long s is an s. -/
def foldCase (c : Char) : Char := if c.toNat = 0x17f then 's' else c.toLower

/-- What follows `word` at the start of a text. -/
def afterFolded (word : String) (cs : List Char) : Option (List Char) :=
  if (cs.take word.length).map foldCase = word.toList then some (cs.drop word.length) else none

/-- The spellings of pre-release tags and the tag each stands for, longer ones first. -/
def tagSpellings : List (String × String) :=
  [("preview", "rc"), ("alpha", "a"), ("beta", "b"), ("pre", "rc"), ("dev", "dev"), ("rc", "rc"),
   ("a", "a"), ("b", "b"), ("c", "rc")]

/-- The numbers of a release, as their digits. -/
def releaseNumbers : Nat → List Char → List (List Char) × List Char
  | 0, cs => ([], cs)
  | fuel + 1, cs =>
    match cs with
    | '.' :: r =>
      let ds := r.takeWhile isDecimalDigit
      if ds.isEmpty then ([], cs)
      else
        let more := releaseNumbers fuel (r.drop ds.length)
        (ds :: more.1, more.2)
    | _ => ([], cs)

/-- The tag and the number of a pre-release, and the rest. -/
def preTag (cs : List Char) : Option (String × List Char) × List Char :=
  let body := skipSeparator cs
  let found := tagSpellings.findSome? fun (spelling, tag) =>
    (afterFolded spelling body).map fun r => (tag, r)
  match found with
  | none => (none, cs)
  | some (tag, r) =>
    let r := skipSeparator r
    let ds := r.takeWhile isDecimalDigit
    (some (tag, ds), r.drop ds.length)

/-- What follows a post-release, whose number is optional in words and needed after a dash. -/
def afterPost (cs : List Char) : List Char :=
  match afterFolded "post" (skipSeparator cs) with
  | some r => (skipSeparator r).dropWhile isDecimalDigit
  | none =>
    match cs with
    | '-' :: d :: r => if isDecimalDigit d then r.dropWhile isDecimalDigit else cs
    | _ => cs

/-- Nothing, or a local label to the end. -/
def isLocalLabel : List Char → Bool
  | [] => true
  | '+' :: r => !r.isEmpty && r.all fun c => isWordChar c || c == '.'
  | _ => false

def ofRelease? (raw : String) : Option Version := do
  let cs := trim raw.toList
  let cs := (afterFolded "v" cs).getD cs
  let first := cs.takeWhile isDecimalDigit
  if first.isEmpty then none
  let (more, r) := releaseNumbers cs.length (cs.drop first.length)
  let (tag, r) := preTag r
  if !isLocalLabel (afterPost r) then none
  let number (i : Nat) := (more[i]?.map wordOfDigits?).getD (some 0)
  let major ← wordOfDigits? first
  let minor ← number 0
  let patch ← number 1
  let pre ← match tag with
    | none => some []
    | some (tag, ds) => preOfChars? (tag.toList ++ if ds.isEmpty then [] else '.' :: ds)
  return ⟨major, minor, patch, pre⟩

/-- Package names compare without case, and a run of `-`, `_` and `.` is one separator. -/
def normalizeName (name : String) : String := String.ofList (go false (trim name.toList))
where
  go : Bool → List Char → List Char
    | _, [] => []
    | afterSeparator, c :: r =>
      if isSeparator c then (if afterSeparator then [] else ['_']) ++ go true r
      else c.toLower :: go false r

end ContractBuild.Version

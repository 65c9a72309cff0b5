import ContractBuild.Version.Release
import ContractBuild.Version.Requirement

/-!
Version pins: what a project demands of an installed package.

Clauses are joined by commas. A comparison with a version means that full release, `~=` the
compatible releases, and everything else is a requirement as it stands.
-/

namespace ContractBuild.Version

open ContractBuild.Text

inductive PinFault where
  | empty
  | exclusion (clause : String)
  | notVersion (raw : String)
  | notNumeric (version : String)
  | componentCount (version : String)
  | notRequirement (constraint : String)
  /-- The successor of a component does not fit into 64 bits. -/
  | overflow
  deriving DecidableEq

def PinFault.reason : PinFault → String
  | .empty => "empty version constraint"
  | .exclusion clause => s!"exclusion constraint `{clause}` is not supported"
  | .notVersion raw => s!"`{raw}` is not a version"
  | .notNumeric v => s!"`~={v}` needs a numeric release version"
  | .componentCount v => s!"`~={v}` needs two or three version components"
  | .notRequirement c => s!"`{c}`: <semver error>"
  | .overflow => "attempt to add with overflow"

structure Pin where
  package : String
  constraint : String
  requirement : Requirement
  deriving DecidableEq

namespace Pin

def fullVersion (raw : List Char) : Except PinFault (List Char) :=
  match ofRelease? (String.ofList raw) with
  | some v => .ok v.text.toList
  | none => .error (.notVersion (String.ofList raw))

def successor (n : Nat) : Except PinFault (List Char) :=
  if n + 1 < wordLimit then .ok (toString (n + 1)).toList else .error .overflow

/-- `~=X.Y` is at least `X.Y` and below `X+1`; `~=X.Y.Z` is at least `X.Y.Z` and below `X.Y+1`. -/
def compatible (version : List Char) : Except PinFault (List Char) := do
  let atLeast := ">=".toList ++ version ++ ", <".toList
  match (version.splitOn '.').mapM wordOfSigned? with
  | none => .error (.notNumeric (String.ofList version))
  | some [major, _] => return atLeast ++ (← successor major)
  | some [major, minor, _] => return atLeast ++ (toString major).toList ++ '.' :: (← successor minor)
  | some _ => .error (.componentCount (String.ofList version))

/-- One clause as comparators. -/
def comparators (clause : List Char) : Except PinFault (List Char) := do
  match clause with
  | [] => .error .empty
  | '~' :: '=' :: r => compatible (trim r)
  | '!' :: '=' :: _ => .error (.exclusion (String.ofList clause))
  | '=' :: '=' :: '=' :: r => return '=' :: (← fullVersion (trim r))
  | '=' :: '=' :: r =>
    match stripSuffix? ['.', '*'] (trim r) with
    | some start => return '=' :: start
    | none => return '=' :: (← fullVersion (trim r))
  | '<' :: '=' :: r => return '<' :: '=' :: (← fullVersion (trim r))
  | '>' :: '=' :: r => return '>' :: '=' :: (← fullVersion (trim r))
  | '<' :: r => return '<' :: (← fullVersion (trim r))
  | '>' :: r => return '>' :: (← fullVersion (trim r))
  | r => return r

def parse (package constraint : String) : Except PinFault Pin := do
  let clauses ← (constraint.toList.splitOn ',').mapM fun c => comparators (trim c)
  match Requirement.ofChars? (joinWith [',', ' '] clauses) with
  | some requirement => return ⟨package, constraint, requirement⟩
  | none => .error (.notRequirement constraint)

def isMet (p : Pin) (v : Version) : Bool := p.requirement.isMet v

/-- Whether the pin names the distribution or the top-level module. -/
def appliesTo (p : Pin) (distribution root : String) : Bool :=
  normalizeName p.package == normalizeName distribution ||
    normalizeName p.package == normalizeName root

end Pin

end ContractBuild.Version

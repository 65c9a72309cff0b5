import ContractBuild.Disk.Files
import ContractBuild.Manifest.Basic
import ContractBuild.Yaml.Node

/-!
Reading a manifest from its YAML text, and loading it from its file.

Where a text or a path is wanted, any scalar counts as what is written. Unknown and repeated fields
are refused; of repeated pins the last counts.
-/

namespace ContractBuild.Manifest

open ContractBuild.Text ContractBuild.Yaml

def textOf? : Node → Option String
  | .scalar s _ => some s
  | _ => none

def pathOf? (n : Node) : Option Path := (textOf? n).map Path.mk

/-- The items of a list; a field with nothing written is an empty one. -/
def itemsOf? : Node → Option (List Node)
  | .seq items => some items
  | .scalar s isPlain => if isPlain && s.isEmpty then some [] else none
  | .map _ => none

def pairsOf? : Node → Option (List (Node × Node))
  | .map pairs => some pairs
  | .scalar s isPlain => if isPlain && s.isEmpty then some [] else none
  | .seq _ => none

def pathsOf? (n : Node) : Option (List Path) := do (← itemsOf? n).mapM pathOf?

def isNull (s : String) : Bool := ["", "~", "null", "Null", "NULL"].contains s

/-- A path that may be absent. -/
def optionalPathOf? (n : Node) : Option (Option Path) :=
  match n with
  | .scalar s isPlain => if isPlain && isNull s then some none else some (some ⟨s⟩)
  | _ => none

def boolOf? : Node → Option Bool
  | .scalar s true =>
    if ["true", "True", "TRUE"].contains s then some true
    else if ["false", "False", "FALSE"].contains s then some false
    else none
  | _ => none

def pinOf? (p : Node × Node) : Option (String × String) := do
  return (← textOf? p.1, ← textOf? p.2)

/-- Puts the value of one field into a draft. -/
def setField (d : Draft) (name : String) (n : Node) : Option Draft := do
  match name with
  | "entry" => return { d with entry := ← pathOf? n }
  | "source-roots" => return { d with sourceRoots := ← pathsOf? n }
  | "package-roots" => return { d with packageRoots := ← pathsOf? n }
  | "exclude" => return { d with exclude := sortedSet (← (← itemsOf? n).mapM textOf?) }
  | "optimize" => return { d with optimize := ← Mode.ofText? (← textOf? n) }
  | "output" => return { d with output := ← optionalPathOf? n }
  | "abi-output" => return { d with abiOutput := ← optionalPathOf? n }
  | "pin" => return { d with pins := sortedMap (← (← pairsOf? n).mapM pinOf?) }
  | "include-debug-info" => return { d with debugInfo := ← boolOf? n }
  | _ => none

def Draft.ofNode? (n : Node) : Option Draft := do
  let pairs ← pairsOf? n
  let names ← pairs.mapM fun p => textOf? p.1
  if !names.Nodup || !names.contains "entry" then none
  (names.zip (pairs.map (·.2))).foldlM (fun d f => setField d f.1 f.2) { entry := ⟨""⟩ }

/-- Reads a manifest; `origin` names its text in messages. -/
def parse (origin text : String) : Except Fault Manifest :=
  match Node.parse? text with
  | none => .error (.malformed origin)
  | some n =>
    match Draft.ofNode? n with
    | none => .error (.malformed origin)
    | some d => ofDraft d

/-! ### Files -/

variable {m : Type → Type} [Monad m]

def load (fs : Disk.Files m) (path : Path) : m (Except Fault Manifest) := do
  match ← fs.readText path with
  | .error f => return .error (.read path.text f.message)
  | .ok text => return parse path.text text

/-- Loads the manifest in a project directory. -/
def loadFrom (fs : Disk.Files m) (project : Path) : m (Except Fault Manifest) :=
  load fs (project.joinName fileName)

end ContractBuild.Manifest

import ContractBuild.Abi.Descriptor
import ContractBuild.Digest.Sha256
import ContractBuild.Graph.Basic

/-!
Reading the ABI off a module: a function is exported if one of its decorators is named `view`,
`call` or `init`.
-/

namespace ContractBuild.Abi

open ContractBuild.Digest ContractBuild.Disk ContractBuild.Python ContractBuild.Text

/-- The kind that the decorators agree on, given the one found so far. -/
def agreedKind (function : String) : Option Kind → List Decorator → Except Fault (Option Kind)
  | found, [] => .ok found
  | found, d :: r =>
    match Kind.ofText? d.last, found with
    | none, _ => agreedKind function found r
    | some k, none => agreedKind function (some k) r
    | some k, some first =>
      if first = k then agreedKind function found r
      else .error (.conflictingKinds function first.text k.text d.line)

/-- The export kind of a function. -/
def kindOf (f : Function) : Except Fault (Option Kind) := agreedKind f.name none f.decorators

def describeParam (f : Function) (p : Param) : Except Fault Argument :=
  if p.kind = .varArgs ∨ p.kind = .varKeywords then .error (.variadic f.name p.name f.line)
  else match TypeTag.ofParameter p.typeText with
    | .ok t => .ok ⟨p.name, t⟩
    | .error reason => .error (.unsupportedType f.name reason.message f.line)

def describe (f : Function) (kind : Kind) : Except Fault Method := do
  let params ← f.params.mapM (describeParam f)
  match TypeTag.ofReturn f.returns with
  | .ok (returns, panics) => return ⟨f.name, kind, params, returns, panics⟩
  | .error reason => .error (.unsupportedType f.name reason.message f.line)

/-- The lines on which the functions of a name start. -/
def linesOf (fs : List Function) (name : String) : List Nat :=
  (fs.filter (·.name == name)).map (·.line)

/-- Describes the exported functions among `fs`, the module's functions being `all` and `init` the
name of the init function met before. -/
def methodsFrom (all : List Function) : Option String → List Function → Except Fault (List Method)
  | _, [] => .ok []
  | init, f :: r => do
    match ← kindOf f with
    | none => methodsFrom all init r
    | some kind =>
      match linesOf all f.name with
      | first :: second :: _ => .error (.duplicateMethod f.name first second)
      | _ =>
        match kind, init with
        | .init, some first => .error (.duplicateInit first f.name f.line)
        | _, _ =>
          let m ← describe f kind
          return m :: (← methodsFrom all (if kind = .init then some f.name else init) r)

/-- The ABI of a source text with the given digest. -/
def extract (module source digest : String) : Except Fault Descriptor :=
  match Module.parse source with
  | .error f => .error (.unreadable module f.line f.cause.reason)
  | .ok m => do return ⟨← methodsFrom m.functions none m.functions, digest⟩

/-- The ABI of source bytes with the given digest. -/
def extractBytes (module : String) (bytes : Bytes) (digest : String) : Except Fault Descriptor :=
  match Utf8.decode bytes with
  | .error f => .error (.unreadable module 1 s!"source is not valid UTF-8: {f.message}")
  | .ok source => extract module source digest

/-- The ABI of a module of a graph, from the bytes its imports were read from. -/
def extractNode (n : Graph.Node) : Except Fault Descriptor := extractBytes n.name n.source n.digest

/-- The ABI of a file as it is now. -/
def extractFile {m : Type → Type} [Monad m] (fs : Files m) (module : String) (path : Path) :
    m (Except Fault Descriptor) := do
  match ← fs.read path with
  | .error f => return .error (.read module path.text f.message)
  | .ok bytes => return extractBytes module bytes (sha256Hex bytes)

end ContractBuild.Abi

import ContractBuild.Disk.Fault
import ContractBuild.Mode
import ContractBuild.Wasm.Live

/-!
The optimizing passes on a module, over any parser.

For size, bodies that are never reached shrink to a trap and custom sections go; for speed, only
debug sections go. A marker section tells that an external optimizer has run in that mode.
-/

namespace ContractBuild.Wasm

/-- What can go wrong while a binary is optimized. -/
inductive Fault where
  | malformed (reason : String)
  | invalidOutput (reason : String)
  | externalTool (status stderr : String)
  | timeout (seconds : Nat)
  | toolUnavailable (path reason : String)
  | io (error : Disk.Fault)
  deriving DecidableEq

def Fault.message : Fault → String
  | .malformed reason => s!"Malformed WASM input: {reason}"
  | .invalidOutput reason => s!"Optimizer produced invalid WASM: {reason}"
  | .externalTool status stderr => s!"wasm-opt failed ({status}): {stderr}"
  | .timeout seconds => s!"wasm-opt did not finish within {seconds}s"
  | .toolUnavailable path reason => s!"wasm-opt at {path} is not usable: {reason}"
  | .io error => s!"I/O error: {error.message}"

/-- The custom section that records the mode of an external optimizer. -/
def markerName : String := "contract-forge.opt"

/-- A body that traps at once: no locals, `unreachable`, `end`. -/
def trapBody : Bytes := [0x00, 0x00, 0x0b]

def isDebugSection (name : String) : Bool :=
  ".debug_".toList.isPrefixOf name.toList || name == "sourceMappingURL" ||
    name == "external_debug_info"

/-- Whether a custom section stays. -/
def keepsCustom (mode : Mode) (keepDebug : Bool) (name : String) : Bool :=
  if name == markerName then false
  else if keepDebug && (isDebugSection name || name == "name") then true
  else match mode with
    | .size => false
    | .speed => !isDebugSection name
    | .debug => true

/-- The mode that a marker section names. -/
def markedMode (name : String) (data : Bytes) : Option Mode :=
  if name == markerName then
    match Text.Utf8.decode data with
    | .ok s => Mode.ofText? s
    | .error _ => none
  else none

def markerSection (mode : Mode) : Section := .custom markerName (Text.Utf8.encode mode.text)

/-- A module that is being written again: the sections so far, the bodies of code written, how many
are still to come, and the place of the next one. -/
structure Draft where
  sections : List Section := []
  code : List Bytes := []
  remaining : Nat := 0
  next : Nat := 0

/-- A body that is not live is replaced, unless it is as short as the replacement. -/
def snipBody (live : Bool) (b : Bytes) : Bytes :=
  if !live && b.length > trapBody.length then trapBody else b

/-- Writes a part of a module again. The code section is written when its last body has come. -/
def Draft.add (live : Nat → Bool) (keeps : String → Bool) (d : Draft) :
    Payload → Except Fault Draft
  | .version .component => .error (.malformed "components are not supported")
  | .version .module => .ok d
  | .code count =>
    let sections := if count = 0 then d.sections ++ [.code d.code] else d.sections
    .ok { d with sections, remaining := count }
  | .body b =>
    let code := d.code ++ [snipBody (live d.next) b.bytes]
    let remaining := d.remaining - 1
    let sections := if remaining = 0 then d.sections ++ [.code code] else d.sections
    .ok { sections, code, remaining, next := d.next + 1 }
  | .custom name data =>
    .ok (if keeps name then { d with sections := d.sections ++ [.custom name data] } else d)
  | .other id content _ => .ok { d with sections := d.sections ++ [.other id content] }

def Draft.addPart (live : Nat → Bool) (keeps : String → Bool) (d : Draft)
    (part : Except String Payload) : Except Fault Draft := do
  d.add live keeps (← part.mapError .malformed)

/-- Writes a module again, part by part, and a marker after it. -/
def rewrite (live : Nat → Bool) (keeps : String → Bool) (marker : Option Mode)
    (parts : List (Except String Payload)) : Except Fault Bytes := do
  let d ← parts.foldlM (Draft.addPart live keeps) {}
  return writeModule (d.sections ++ (marker.map markerSection).toList)

/-- An external optimizer, run within a monad of effects. -/
abbrev ExternalTool (m : Type → Type) := Mode → Bool → Bytes → ExceptT Fault m Bytes

namespace Parser

variable (p : Parser)

/-- Which bodies are live in the mode. -/
def live (mode : Mode) (bs : Bytes) : Except Fault (Nat → Bool) :=
  if mode = .size then
    ((Live.reached (p.payloads bs)).map fun fs i => fs.contains i).mapError .malformed
  else .ok fun _ => true

/-- Runs the passes on bytes that need not be valid. -/
def runPasses (mode : Mode) (keepDebug : Bool) (marker : Option Mode) (bs : Bytes) :
    Except Fault Bytes := do
  let live ← p.live mode bs
  rewrite live (keepsCustom mode keepDebug) marker (p.payloads bs)

def checkInput (bs : Bytes) : Except Fault Unit := (p.validate bs).mapError .malformed

def checkOutput (bs : Bytes) : Except Fault Unit := (p.validate bs).mapError .invalidOutput

/-- The mode that a part records, if it is a readable marker. -/
def recordedIn : Except String Payload → Option Mode
  | .ok (.custom name data) => markedMode name data
  | _ => none

/-- The mode recorded in a binary, by the first readable marker. -/
def recordedMode (bs : Bytes) : Option Mode := (p.payloads bs).findSome? recordedIn

/-- The passes on a valid binary. An optimization recorded for the mode stays recorded. -/
def passes (mode : Mode) (keepDebug : Bool) (bs : Bytes) : Except Fault Bytes := do
  p.checkInput bs
  if mode = .debug then return bs
  let marker := if p.recordedMode bs = some mode then some mode else none
  let out ← p.runPasses mode keepDebug marker bs
  p.checkOutput out
  return out

/-- Optimizes with an external tool, if there is one, and the passes after it. A tool that already
ran in the mode is not run again, and for size a result that grew is dropped. -/
def optimizeWith {m : Type → Type} [Monad m] (tool : Option (ExternalTool m)) (mode : Mode)
    (keepDebug : Bool) (bs : Bytes) : ExceptT Fault m Bytes := do
  p.checkInput bs
  if mode = .debug then return bs
  let (input, marker) ←
    if p.recordedMode bs = some mode then pure (bs, some mode)
    else match tool with
      | some run => do
        let out ← run mode keepDebug bs
        pure (out, some mode)
      | none => pure (bs, none)
  let out ← p.runPasses mode keepDebug marker input
  let out ← if mode = .size ∧ out.length > bs.length then p.runPasses mode keepDebug none bs
    else pure out
  p.checkOutput out
  return out

/-- Optimizes without any external tool. -/
def optimize (mode : Mode) (keepDebug : Bool) (bs : Bytes) : Except Fault Bytes :=
  (p.optimizeWith none mode keepDebug bs : ExceptT Fault Id Bytes).run

end Parser

end ContractBuild.Wasm

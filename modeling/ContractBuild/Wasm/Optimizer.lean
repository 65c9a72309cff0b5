import ContractBuild.Host.Program
import ContractBuild.Host.Scratch
import ContractBuild.Wasm.Standard

/-!
The optimizer of a build: the passes alone, or an external `wasm-opt` before them.
-/

namespace ContractBuild.Wasm

open ContractBuild.Disk ContractBuild.Host

/-- Whether an external optimizer is used, and which. -/
inductive Setting where
  /-- Use `wasm-opt` if it is installed. -/
  | auto
  | disabled
  | path (p : Path)
  deriving DecidableEq

def Setting.ofText (s : String) : Setting :=
  match s with
  | "auto" => .auto
  | "off" | "none" | "disabled" => .disabled
  | p => .path ⟨p⟩

def Setting.text : Setting → String
  | .auto => "auto"
  | .disabled => "off"
  | .path p => p.text

/-- An installed `wasm-opt`; `limit` bounds its runs in milliseconds. -/
structure Tool where
  program : Path
  version : String
  limit : Nat

structure Optimizer where
  parser : Parser := .standard
  tool : Option Tool := none

namespace Tool

/-- The version that a program reports, or why it does not. -/
def queryVersion (program : Path) (limit : Nat) : Attempt String String := do
  match ← (runWithin limit { program, arguments := ["--version"] }).result with
  | .error f => throw f.message
  | .ok outcome =>
    if outcome.ending.isSuccess then return firstLine outcome.stdout
    else throw s!"`--version` exited with {outcome.ending.text}"

def levelOf : Mode → String
  | .speed => "-O3"
  | _ => "-Oz"

/-- The directory for temporary files. -/
def temporaryDirectory : OnHost Path := do return ⟨(← readVariable "TMPDIR").getD "/tmp"⟩

/-- Reports a failure to read or write as a fault of the optimization. -/
def orIo {α : Type} (act : Attempt Disk.Fault α) : Attempt Fault α := do
  match ← act.result with
  | .ok a => return a
  | .error f => throw (.io f)

def run (tool : Tool) : ExternalTool OnHost := fun mode keepDebug binary => do
  inScratch Fault.io (← temporaryDirectory) "contract-forge-opt-" fun dir => do
    let input := dir.joinName "input.wasm"
    let output := dir.joinName "output.wasm"
    orIo (Host.write input binary)
    let arguments := [input.text, levelOf mode, "-o", output.text] ++
      if keepDebug then ["--debuginfo"] else []
    match ← (runWithin tool.limit { program := tool.program, arguments }).result with
    | .error (.timedOut seconds) => throw (.timeout seconds)
    | .error (.notStarted error) => throw (.io error)
    | .ok outcome =>
      if !outcome.ending.isSuccess then
        throw (.externalTool outcome.ending.text (Text.Utf8.decodeLossy outcome.stderr))
      orIo (Host.read output)

end Tool

namespace Optimizer

/-- Finds the external tool that the setting asks for. An automatic choice does without one that
does not work. -/
def detect (setting : Setting) (limit : Nat) (parser : Parser := .standard) :
    Attempt Fault Optimizer := do
  match setting with
  | .disabled => return { parser }
  | .auto =>
    match ← which "wasm-opt" with
    | none => return { parser }
    | some program =>
      match ← (Tool.queryVersion program (min limit versionLimit)).result with
      | .ok version => return { parser, tool := some { program, version, limit } }
      | .error _ => return { parser }
  | .path program =>
    match ← (Tool.queryVersion program (min limit versionLimit)).result with
    | .ok version => return { parser, tool := some { program, version, limit } }
    | .error reason => throw (.toolUnavailable program.text reason)

/-- Tells apart optimizers that may give different results. -/
def fingerprint (o : Optimizer) : String :=
  match o.tool with
  | some tool => s!"passes-v1+{tool.version}"
  | none => "passes-v1"

def optimize (o : Optimizer) (mode : Mode) (keepDebug : Bool) (binary : Bytes) :
    Attempt Fault Bytes :=
  o.parser.optimizeWith (o.tool.map Tool.run) mode keepDebug binary

end Optimizer

end ContractBuild.Wasm

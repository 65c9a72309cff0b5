import ContractBuild.Cache.Key
import ContractBuild.Native.Settings
import ContractBuild.Native.Toolchain
import ContractBuild.Native.Workspace

/-!
Native builds: the toolchain turns frozen sources into a raw binary.
-/

namespace ContractBuild.Native

open ContractBuild.Disk ContractBuild.Host

/-- The command line of a build in a workspace. -/
def command (program dir : Path) (entry : String) (flags : BuildFlags) : Invocation where
  program
  arguments :=
    ["build", "--protocol", toString protocolVersion,
      "--manifest", (Workspace.listing dir).text, "--entry", entry,
      "--output", (Workspace.output dir).text, "--opt", flags.mode.text] ++
    (if flags.debugSymbols then ["--debug-symbols"] else []) ++ flags.extraArgs
  directory := some dir
  environment := [("FROZEN_MANIFEST", (Workspace.listing dir).text)]

/-- How a failed toolchain ended. -/
def endingText : Ending → String
  | .exit code => s!"exit code {code}"
  | .signal _ => "termination by signal"

/-- The binary that the toolchain left in a workspace. -/
def takeOutput (dir : Path) : Attempt Fault Bytes := do
  let missing : Fault := .missingOutput (Workspace.output dir).text
  match ← (Host.read (Workspace.output dir)).result with
  | .ok [] => throw missing
  | .ok binary => return binary
  | .error f => if f = .notFound then throw missing else throw (.io f)

/-- Builds with a toolchain that is stopped after `limit` milliseconds. -/
def build (toolchain : Toolchain) (root : Path) (limit : Nat) (frozen : Frozen)
    (flags : BuildFlags) : Attempt Fault Bytes :=
  Workspace.within root frozen fun dir => do
    match ← (start (command toolchain.program dir frozen.entry flags)).result with
    | .error f => throw (.spawn toolchain.program.text f.message)
    | .ok outcome =>
      let stderr := Text.Utf8.decodeLossy outcome.stderr
      if limit < outcome.duration then throw (.timeout (limit / 1000) stderr)
      if !outcome.ending.isSuccess then throw (.failed (endingText outcome.ending) stderr)
      takeOutput dir

end ContractBuild.Native

import ContractBuild.Host.Program
import ContractBuild.Native.Fault

/-!
The native toolchain: the program found, and the version that it reports.
-/

namespace ContractBuild.Native

open ContractBuild.Host

structure Toolchain where
  program : Path
  version : String
  deriving DecidableEq

/-- Finds a program and asks it for its version, for at most `limit` milliseconds. -/
def Toolchain.detect (program : String) (limit : Nat) : Attempt Fault Toolchain := do
  match ← which program with
  | none => throw (.notFound program "cannot find binary path")
  | some path =>
    match ← (runWithin limit { program := path, arguments := ["--version"] }).result with
    | .error (.timedOut seconds) =>
      throw (.notFound program s!"`--version` {(RunFault.timedOut seconds).message}")
    | .error (.notStarted error) => throw (.spawn path.text error.message)
    | .ok outcome =>
      if !outcome.ending.isSuccess then
        let said := Text.trimString (Text.Utf8.decodeLossy outcome.stderr)
        throw (.notFound program s!"`--version` exited with {outcome.ending.text}: {said}")
      let version := firstLine outcome.stdout
      if version.isEmpty then throw (.notFound program "`--version` printed nothing")
      return { program := path, version }

end ContractBuild.Native

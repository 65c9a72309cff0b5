import ContractBuild.Disk.Fault

/-!
What can go wrong with the native toolchain.
-/

namespace ContractBuild.Native

inductive Fault where
  | notFound (program reason : String)
  | invalidArguments (raw reason : String)
  | workspace (path reason : String)
  | spawn (program reason : String)
  | failed (status stderr : String)
  | timeout (seconds : Nat) (stderr : String)
  | missingOutput (path : String)
  | io (error : Disk.Fault)
  deriving DecidableEq

def Fault.message : Fault → String
  | .notFound program reason => s!"Toolchain `{program}` not available: {reason}"
  | .invalidArguments raw reason => s!"Invalid toolchain arguments `{raw}`: {reason}"
  | .workspace path reason => s!"Failed to prepare build workspace {path}: {reason}"
  | .spawn program reason => s!"Failed to start toolchain `{program}`: {reason}"
  | .failed status stderr => s!"Toolchain exited with {status}: {stderr}"
  | .timeout seconds stderr => s!"Toolchain timed out after {seconds}s: {stderr}"
  | .missingOutput path => s!"Toolchain reported success but produced no output at {path}"
  | .io error => s!"I/O error: {error.message}"

end ContractBuild.Native

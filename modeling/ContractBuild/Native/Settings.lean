import ContractBuild.Native.Fault
import ContractBuild.Text.ShellWords

/-!
Which toolchain is used and with which arguments.
-/

namespace ContractBuild.Native

/-- The program used when nothing else is said. -/
def defaultProgram : String := "mpy-wasm-build"

/-- The environment variable that names the program. -/
def programVariable : String := "CONTRACT_FORGE_TOOLCHAIN"

/-- The environment variable with further arguments. -/
def argumentsVariable : String := "CONTRACT_FORGE_TOOLCHAIN_ARGS"

/-- The version of the agreement on arguments and output with the toolchain. -/
def protocolVersion : Nat := 1

/-- An explicit program wins over the variable, if that is not empty, and this over the default. -/
def programOf (explicit configured : Option String) : String :=
  explicit.getD ((configured.filter (!·.isEmpty)).getD defaultProgram)

def splitArguments (raw : String) : Except Fault (List String) :=
  match Text.ShellWords.split raw with
  | some words => .ok words
  | none => .error (.invalidArguments raw "missing closing quote")

/-- The arguments that the variable holds. -/
def variableArguments (configured : Option String) : Except Fault (List String) :=
  match configured with
  | some raw => splitArguments raw
  | none => .ok []

end ContractBuild.Native

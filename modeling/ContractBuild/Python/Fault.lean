/-!
What makes a source text unreadable.
-/

namespace ContractBuild.Python

inductive FaultCause where
  | unclosedBracket
  | unterminatedString
  | malformedImport (statement : String)
  | unsupportedDecorator (expression : String)
  | unbalancedParameters (function : String)
  | missingReturnColon (function : String)
  | malformedSignature (function : String)
  deriving DecidableEq

/-- A cause and the 1-based line it is reported on. -/
structure Fault where
  line : Nat
  cause : FaultCause
  deriving DecidableEq

def FaultCause.reason : FaultCause → String
  | .unclosedBracket => "unclosed bracket at end of file"
  | .unterminatedString => "unterminated string literal"
  | .malformedImport s => s!"malformed import statement `{s}`"
  | .unsupportedDecorator e => s!"unsupported decorator expression `@{e}`"
  | .unbalancedParameters f => s!"unbalanced parameter list in `def {f}`"
  | .missingReturnColon f => s!"missing `:` after return annotation of `{f}`"
  | .malformedSignature f => s!"malformed signature for `{f}`"

def Fault.message (f : Fault) : String := s!"line {f.line}: {f.cause.reason}"

end ContractBuild.Python

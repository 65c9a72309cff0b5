import ContractBuild.Wasm.Section

/-!
Parsers and validators of binaries.

The optimizer reads binaries through a library that splits them into payloads and judges whether
they are valid. What it asks that library is collected here, and the optimizer takes it as a
parameter. Errors are texts, since all that is done with them is to report them.
-/

namespace ContractBuild.Wasm

/-- What is imported or exported. -/
inductive ExternalKind where
  | function
  | table
  | memory
  | global
  | tag
  deriving DecidableEq

/-- An operator, as far as it names a function. -/
inductive Operator where
  | call (function : Nat)
  | returnCall (function : Nat)
  | refFunc (function : Nat)
  | other
  deriving DecidableEq

/-- The items of an element segment. -/
inductive Segment where
  | functions (indices : List Nat)
  | exprs (items : List (List Operator))
  deriving DecidableEq

/-- What a section says about functions. -/
inductive Told where
  | imports (kinds : List ExternalKind)
  | exports (items : List (ExternalKind × Nat))
  | start (function : Nat)
  | elements (segments : List Segment)
  | globals (inits : List (List Operator))
  | tables (inits : List (Option (List Operator)))
  | nothing
  deriving DecidableEq

/-- A function body, with its operators unless they cannot be read. -/
structure Body where
  bytes : Bytes
  operators : Except String (List Operator)

/-- A part of a binary. The code section comes as a count and then body by body. -/
inductive Payload where
  | version (layer : Layer)
  | custom (name : String) (data : Bytes)
  | code (count : Nat)
  | body (b : Body)
  | other (id : UInt8) (content : Bytes) (told : Except String Told)

structure Parser where
  validate : Bytes → Except String Unit
  /-- The parts up to the end of the binary, or up to the first one that cannot be read. -/
  payloads : Bytes → List (Except String Payload)

end ContractBuild.Wasm

import ContractBuild.Native.Build
import ContractBuild.Wasm.Optimizer

/-!
The tools of a compiler. They are looked for when first needed and kept from then on.
-/

namespace ContractBuild.Build

open ContractBuild.Host

/-- What has been found out about the tools. -/
structure Tools where
  toolchain : Option Native.Toolchain := none
  optimizer : Option Wasm.Optimizer := none

/-- A host and the tools found on it. -/
structure Bench where
  host : Host
  tools : Tools := {}

abbrev OnBench := StateM Bench

/-- Work on a bench that fails with an `ε`; what was done until then stays done. -/
abbrev BenchAttempt (ε : Type) := ExceptT ε OnBench

/-- Work on the host of a bench. -/
def onHost {ε α : Type} (act : Attempt ε α) : BenchAttempt ε α := fun (b : Bench) =>
  let (r, host) := act b.host
  (r, { b with host })

/-- What turns frozen sources into a raw binary. -/
structure Builder where
  /-- Tells apart builders that may give different binaries. -/
  version : BenchAttempt Native.Fault String
  build : Frozen → BuildFlags → BenchAttempt Native.Fault Bytes

/-- The toolchain, looked for if it has not been found yet. -/
def toolchain (program : String) (limit : Nat) : BenchAttempt Native.Fault Native.Toolchain := do
  match (← get).tools.toolchain with
  | some t => return t
  | none =>
    let t ← onHost (Native.Toolchain.detect program (min limit versionLimit))
    modify fun b => { b with tools := { b.tools with toolchain := some t } }
    return t

/-- Builds by running a program, each time in a workspace below `root`. -/
def Builder.ofProgram (program : String) (root : Path) (limit : Nat) : Builder where
  version := do return (← toolchain program limit).version
  build frozen flags := do
    let t ← toolchain program limit
    onHost (Native.build t root limit frozen flags)

/-- The optimizer, looked for if it has not been found yet. -/
def optimizer (parser : Wasm.Parser) (setting : Wasm.Setting) (limit : Nat) :
    BenchAttempt Wasm.Fault Wasm.Optimizer := do
  match (← get).tools.optimizer with
  | some o => return o
  | none =>
    let o ← onHost (Wasm.Optimizer.detect setting limit parser)
    modify fun b => { b with tools := { b.tools with optimizer := some o } }
    return o

end ContractBuild.Build

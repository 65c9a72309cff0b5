import ContractBuild.Build.Bench
import ContractBuild.Build.Diagnostic

/-!
One run of a compiler: the states it goes through, and the warnings it collects.

A listener is told of every stage and may act on the host before the run goes on.
-/

namespace ContractBuild.Build

/-- What happens when the end of a stage is reported. -/
abbrev Listener := Stage → Status → OnHost Unit

def Listener.silent : Listener := fun _ _ => pure ()

structure Run where
  bench : Bench
  /-- The states entered so far, and how. -/
  moves : List (State × Status) := []
  warnings : List Diagnostic := []

abbrev InRun := StateM Run

/-- Work in a run that fails with an `ε`; what was done until then stays done. -/
abbrev RunAttempt (ε : Type) := ExceptT ε InRun

namespace Run

def state (r : Run) : State := ((r.moves.getLast?).map (·.1)).getD .init

/-- The stages reported, in order. -/
def events (r : Run) : List (Stage × Status) :=
  r.moves.filterMap fun m => m.1.stage.map (·, m.2)

end Run

/-- Work on the bench of a run, whose fault becomes a fault of the build. -/
def atBench {ε α : Type} (wrap : ε → Fault) (act : BenchAttempt ε α) : RunAttempt Fault α :=
  fun (r : Run) =>
    match act r.bench with
    | (.ok a, bench) => (.ok a, { r with bench })
    | (.error e, bench) => (.error (wrap e), { r with bench })

/-- Work on the host of a run. -/
def atHost {α : Type} (act : OnHost α) : InRun α := fun r =>
  let (a, host) := act r.bench.host
  (a, { r with bench := { r.bench with host } })

/-- Enters a state; the listener hears of the stage that led to it. -/
def advance (listener : Listener) (next : State) (status : Status) : InRun Unit := do
  match next.stage with
  | some stage => atHost (listener stage status)
  | none => pure ()
  modify fun r => { r with moves := r.moves ++ [(next, status)] }

def warn (d : Diagnostic) : InRun Unit := modify fun r => { r with warnings := r.warnings ++ [d] }

/-- Ends a run with its faults; the stage is that of the first. -/
def fail (listener : Listener) (first : Fault) (more : List Fault) : InRun Failure := do
  advance listener (.failed first.stage) .failed
  return {
    stage := first.stage
    diagnostics := (← get).warnings ++ (first :: more).map Diagnostic.ofFault }

end ContractBuild.Build

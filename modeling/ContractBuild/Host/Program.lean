import ContractBuild.Host.Basic

/-!
Finding programs and running them for a limited time.
-/

namespace ContractBuild

open ContractBuild.Disk

/-- Why there is no outcome of a program. -/
inductive RunFault where
  | notStarted (error : Fault)
  | timedOut (seconds : Nat)
  deriving DecidableEq

def RunFault.message : RunFault → String
  | .notStarted error => error.message
  | .timedOut seconds => s!"did not exit within {seconds}s"

namespace Host

/-- The directories in which programs are looked for. -/
def searchPath : OnHost (List Path) := do
  match ← readVariable "PATH" with
  | some dirs => return (Text.splitString ':' dirs).map Path.mk
  | none => return []

/-- The executable file that a name or a path stands for. -/
def which (program : String) : OnHost (Option Path) := do
  let p : Path := ⟨program⟩
  if p.components.length > 1 then firstExecutable [(Tree.pathTo (← get).tree.start).join p]
  else firstExecutable ((← searchPath).map (·.join p))
where
  firstExecutable : List Path → OnHost (Option Path)
    | [] => return none
    | p :: rest => do if ← ask (·.isExecutable p) then return some p else firstExecutable rest

/-- Starts the file at a path and waits for its end. -/
def startAt (p : Path) (inv : Invocation) : Attempt Fault Outcome := do
  let execute := (← get).execute
  let outcome ← step fun t => do
    match ← t.look p with
    | .directory | .special => .error .accessDenied
    | .file content isExecutable =>
      if isExecutable then
        let outcome := execute content inv t
        return (outcome, outcome.tree)
      else .error .accessDenied
  modify fun h => { h with clock := h.clock + outcome.duration }
  return outcome

/-- Tries the files in turn. One that may not be run is reported if none can be. -/
def startFirst (inv : Invocation) (fault : Fault) : List Path → Attempt Fault Outcome
  | [] => throw fault
  | p :: rest => do
    match ← (startAt p inv).result with
    | .ok outcome => return outcome
    | .error f =>
      if f = .notFound ∨ f = .notDirectory then startFirst inv fault rest
      else if f = .accessDenied then startFirst inv f rest
      else throw f

/-- Runs a program to its end. A name without a slash is looked up. -/
def start (inv : Invocation) : Attempt Fault Outcome := do
  if inv.program.text.toList.contains '/' then startAt inv.program inv
  else if inv.program.text.isEmpty then throw .notFound
  else startFirst inv .notFound ((← searchPath).map (·.join inv.program))

/-- Runs a program that is stopped after `limit` milliseconds. -/
def runWithin (limit : Nat) (inv : Invocation) : Attempt RunFault Outcome := do
  match ← (start inv).result with
  | .error f => throw (.notStarted f)
  | .ok outcome =>
    if limit < outcome.duration then throw (.timedOut (limit / 1000)) else return outcome

/-- How long a program may take to tell its version, in milliseconds. -/
def versionLimit : Nat := 30000

/-- The first line of what a program wrote, without blanks around it. -/
def firstLine (output : Bytes) : String :=
  Text.trimString (String.ofList ((Text.lines (Text.Utf8.decodeLossy output).toList).headD []))

end Host

end ContractBuild

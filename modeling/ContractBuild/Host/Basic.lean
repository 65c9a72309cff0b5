import ContractBuild.Disk.Files

/-!
A computer on which builds run: its files, its environment, and what its programs do.

Every operation on files is one step. Before a step others may change the files, and the system may
refuse the step; one that writes may have stopped halfway then. Programs run between two steps.
-/

namespace ContractBuild

open ContractBuild.Disk

/-- A program and what it is started with. -/
structure Invocation where
  program : Path
  arguments : List String
  directory : Option Path := none
  /-- Variables set for the program only. -/
  environment : List (String × String) := []

/-- How a program ended. -/
inductive Ending where
  | exit (code : Nat)
  | signal (number : Nat)
  deriving DecidableEq

def Ending.isSuccess : Ending → Bool
  | .exit code => code = 0
  | .signal _ => false

def Ending.text : Ending → String
  | .exit code => s!"exit status: {code}"
  | .signal 9 => "signal: 9 (SIGKILL)"
  | .signal n => s!"signal: {n}"

/-- What a program did: the files after it, what it wrote, how it ended, and after how many
milliseconds. What it wrote and did to the files came before any waiting. -/
structure Outcome where
  tree : Tree
  stdout : Bytes := []
  stderr : Bytes := []
  ending : Ending := .exit 0
  duration : Nat := 0

structure Host where
  tree : Tree
  environment : List (String × String) := []
  /-- What an executable file of the given content does. -/
  execute : Bytes → Invocation → Tree → Outcome := fun _ _ tree => { tree }
  /-- The time, written as in RFC 3339. -/
  now : String := "1970-01-01T00:00:00Z"
  /-- Milliseconds that programs have run for. -/
  clock : Nat := 0
  /-- How many unused names have been drawn. -/
  drawn : Nat := 0
  /-- How many steps have been made. -/
  steps : Nat := 0
  /-- What others do to the files before a step. -/
  change : Nat → Tree → Tree := fun _ tree => tree
  /-- The steps that fail whatever they do. -/
  refuse : Nat → Option Fault := fun _ => none
  /-- How far a refused step that writes a file gets: `0` if it does nothing, and otherwise one more
  than the bytes that it still writes. -/
  torn : Nat → Nat := fun _ => 0

/-- Work on a host that cannot fail. -/
abbrev OnHost := StateM Host

/-- Work on a host that fails with an `ε`; what was done until then stays done. -/
abbrev Attempt (ε : Type) := ExceptT ε OnHost

/-- Carries on with whatever came of some work. -/
def Attempt.result {ε δ α : Type} (act : Attempt ε α) : Attempt δ (Except ε α) :=
  ExceptT.lift (ExceptT.run act)

namespace Host

/-- One step: an operation on the files as others left them. If it is refused, `part` tells what is
done all the same. -/
def step {α : Type} (op : Tree → Except Fault (α × Tree))
    (part : Nat → Tree → Tree := fun _ tree => tree) : Attempt Fault α := fun (h : Host) =>
  let tree := h.change h.steps h.tree
  let next := { h with tree, steps := h.steps + 1 }
  match h.refuse h.steps with
  | some f => (.error f, { next with tree := part (h.torn h.steps) tree })
  | none =>
    match op tree with
    | .ok (a, tree) => (.ok a, { next with tree })
    | .error f => (.error f, next)

def inspect {α : Type} (look : Tree → Except Fault α) : Attempt Fault α :=
  step fun t => (look t).map (·, t)

def alter (op : Tree → Except Fault Tree) : Attempt Fault Unit := step fun t => (op t).map ((), ·)

/-- Writes by an operation that can also write fewer bytes. -/
def writing (op : (Bytes → Bytes) → Tree → Except Fault Tree) : Attempt Fault Unit :=
  step (fun t => (op id t).map ((), ·)) fun
    | 0, t => t
    | n + 1, t => (op (·.take n) t).toOption.getD t

/-- A question that a refusal answers with no. -/
def ask (question : Tree → Bool) : OnHost Bool := do
  match ← (inspect fun t => .ok (question t)).run with
  | .ok b => return b
  | .error _ => return false

def readVariable (name : String) : OnHost (Option String) := do return (← get).environment.lookup name

/-- A number that has not been drawn before. -/
def draw : OnHost Nat := modifyGet fun h => (h.drawn, { h with drawn := h.drawn + 1 })

def files : Files OnHost where
  isFile p := ask (·.isFile p)
  isDirectory p := ask (·.isDirectory p)
  read p := (inspect (·.read p)).run
  list p := (inspect (·.list p)).run
  canonical p := (inspect (·.canonical p)).run

/-! ### Files -/

def read (p : Path) : Attempt Fault Bytes := inspect (·.read p)

def write (p : Path) (content : Bytes) : Attempt Fault Unit :=
  writing fun part t => t.write p (part content)

def append (p : Path) (more : Bytes) : Attempt Fault Unit :=
  writing fun part t => t.append p (part more)

def copy (p q : Path) : Attempt Fault Unit := writing fun part t => t.copyPart part p q

def removeFile (p : Path) : Attempt Fault Unit := alter (·.removeFile p)

/-- Tries something for its effect only. -/
def quietly (act : Attempt Fault Unit) : OnHost Unit := do
  let _ ← act.run
  return

def succeeds (act : Attempt Fault Unit) : OnHost Bool := return (← act.run).isOk

/-- Makes the first of the directories, after those above it that are missing. -/
def makeAll : List Path → Attempt Fault Unit
  | [] => throw (.other "failed to create whole tree")
  | p :: above => do
    if p.text.isEmpty then return
    match ← (alter (·.makeDirectory p)).result with
    | .ok () => return
    | .error f =>
      if f = .notFound then
        makeAll above
        acceptDirectory p (← (alter (·.makeDirectory p)).result)
      else acceptDirectory p (.error f)
where
  /-- A directory that is there already will do. -/
  acceptDirectory (p : Path) : Except Fault Unit → Attempt Fault Unit
    | .ok () => return
    | .error f => do if ← ask (·.isDirectory p) then return else throw f

def makeDirectories (p : Path) : Attempt Fault Unit := makeAll p.ancestors

end Host

end ContractBuild

import ContractBuild.Host.Basic

/-!
Publishing files: content is written to a hidden file next to its target and then renamed over it,
so that a reader finds the old content or the new one and never a part. A group of files is
published as a whole or not at all.
-/

namespace ContractBuild.Host

open ContractBuild.Disk

/-- A number in hexadecimal with at least 32 digits. -/
def uniqueSuffix (n : Nat) : String :=
  let digits := Nat.toDigits 16 n
  String.ofList (List.replicate (32 - digits.length) '0' ++ digits)

/-- The hidden name next to a target, made from a drawn number. -/
def siblingName (name kind : String) (n : Nat) : String := s!".{name}.{kind}.{uniqueSuffix n}"

def siblingOf (target : Path) (kind : String) : Attempt Fault Path := do
  match target.fileName with
  | none => throw (.other s!"invalid target path: {target.text}")
  | some name => return (target.parent.getD ⟨"."⟩).joinName (siblingName name kind (← draw))

/-! ### One file -/

/-- A file being written for a target. -/
structure Writer where
  temp : Path
  target : Path
  isOpen : Bool := true
  /-- Why the piece handed on last was not written, until a call has reported it. -/
  fault : Option Fault := none
  deriving DecidableEq

namespace Writer

def create (target : Path) : Attempt Fault Writer := do
  let temp ← siblingOf target "tmp"
  alter (·.create temp)
  return { temp, target }

/-- The most that is handed on at once: two mebibytes. -/
def pieceLimit : Nat := 2 * 1024 * 1024

def pieces (chunk : Bytes) : List Bytes :=
  (List.range ((chunk.length + (pieceLimit - 1)) / pieceLimit)).map fun i =>
    (chunk.drop (i * pieceLimit)).take pieceLimit

/-- Hands on a piece to be written, without waiting for what comes of it. -/
def writePiece (w : Writer) (piece : Bytes) : OnHost Writer := do
  match ← (append w.temp piece).run with
  | .ok () => return w
  | .error f => return { w with fault := some f }

/-- Writes piece after piece, up to one that is not written: the piece after it reports that. -/
def writePieces (w : Writer) : List Bytes → OnHost (Except Fault Unit × Writer)
  | [] => return (.ok (), w)
  | piece :: rest =>
    match w.fault with
    | some f => return (.error f, { w with fault := none })
    | none => do (← w.writePiece piece).writePieces rest

def write (w : Writer) (chunk : Bytes) : OnHost (Except Fault Unit × Writer) :=
  if w.isOpen then w.writePieces (pieces chunk)
  else return (.error (.other "atomic writer already closed"), w)

/-- Closes the file for writing and waits until it is on disk. It is closed also if that fails. -/
def sync (w : Writer) : OnHost (Except Fault Unit × Writer) :=
  let closed := { w with isOpen := false, fault := none }
  if w.isOpen then
    match w.fault with
    | some f => return (.error f, closed)
    | none => do return (← (alter fun t => .ok t).run, closed)
  else return (.ok (), w)

/-- The writer after a call, which has to succeed. -/
def checked (call : OnHost (Except Fault Unit × Writer)) : Attempt Fault Writer := do
  match ← call with
  | (.ok (), w) => return w
  | (.error f, _) => throw f

/-- Gives the writer up. -/
def drop (w : Writer) : OnHost Unit := quietly (removeFile w.temp)

/-- Does work on behalf of a writer, which is given up if the work fails. -/
def guard {α : Type} (w : Writer) (act : Attempt Fault α) : Attempt Fault α := do
  match ← act.result with
  | .ok a => return a
  | .error f =>
    w.drop
    throw f

/-- Moves the file over its target. -/
def commit (w : Writer) : Attempt Fault Unit :=
  w.guard do
    let w ← checked w.sync
    alter (·.rename w.temp w.target)

/-- Gives the writer up; a file that is gone already does not matter. -/
def abort (w : Writer) : Attempt Fault Unit := do
  match ← (removeFile w.temp).result with
  | .ok () => return
  | .error f => if f = .notFound then return else throw f

/-- What can be asked of a writer any number of times. -/
inductive Call where
  | write (chunk : Bytes)
  | sync

def perform (w : Writer) : Call → OnHost (Except Fault Unit × Writer)
  | .write chunk => w.write chunk
  | .sync => w.sync

/-- Makes the calls in order and goes on after those that fail. -/
def performAll (w : Writer) : List Call → OnHost (List (Except Fault Unit) × Writer)
  | [] => return ([], w)
  | call :: rest => do
    let (r, w) ← w.perform call
    let (rs, w) ← w.performAll rest
    return (r :: rs, w)

/-- The ways in which a writer's work ends. -/
inductive Finish where
  | commit
  | abort
  | drop
  deriving DecidableEq

def finish (w : Writer) : Finish → Attempt Fault Unit
  | .commit => w.commit
  | .abort => w.abort
  | .drop => ExceptT.lift w.drop

end Writer

/-- Writes the content next to its target, in directories made as needed. -/
def stage (target : Path) (content : Bytes) : Attempt Fault Writer := do
  match target.parent with
  | some parent => if !parent.text.isEmpty then makeDirectories parent
  | none => pure ()
  let w ← Writer.create target
  w.guard do
    let w ← Writer.checked (w.write content)
    Writer.checked w.sync

/-- Replaces the target by a file of that content. -/
def publish (target : Path) (content : Bytes) : Attempt Fault Unit := do
  (← stage target content).commit

/-! ### Groups -/

/-- A file of a group that could not be published. -/
structure PublishFault where
  path : Path
  error : Fault
  deriving DecidableEq

def PublishFault.message (f : PublishFault) : String :=
  s!"failed to write {f.path.text}: {f.error.message}"

/-- A target that has its new content, and where its former file is kept. -/
structure Published where
  target : Path
  backup : Option Path

/-- Keeps the file at a target under a hidden name. -/
def keepPrevious (target : Path) : Attempt Fault (Option Path) := do
  match ← (inspect (·.look target)).result with
  | .ok (.file ..) =>
    let backup ← siblingOf target "bak"
    if !(← succeeds (alter (·.link target backup))) then copy target backup
    return some backup
  | .ok _ => return none
  | .error f => if f = .notFound then return none else throw f

def restore (p : Published) : OnHost Unit :=
  quietly <| match p.backup with
    | some backup => alter (·.rename backup p.target)
    | none => removeFile p.target

/-- Undoes what has been published, the latest first. -/
def rollBack (done : List Published) : OnHost Unit := done.reverse.forM restore

/-- Runs on to the next file of a group, or undoes all of it. -/
def orUndo {α : Type} (path : Path) (undo : OnHost Unit) (act : Attempt Fault α) :
    Attempt PublishFault α := do
  match ← act.result with
  | .ok a => return a
  | .error error =>
    undo
    throw { path, error }

/-- Writes every file of the group next to its target. -/
def stageAll (staged : List Writer) : List (Path × Bytes) → Attempt PublishFault (List Writer)
  | [] => return staged
  | (target, content) :: rest => do
    let w ← orUndo target (staged.forM Writer.drop) (stage target content)
    stageAll (staged ++ [w]) rest

/-- Moves the staged files over their targets. -/
def commitAll (done : List Published) : List Writer → Attempt PublishFault (List Published)
  | [] => return done
  | w :: rest => do
    let backup ← orUndo w.target
      (do rollBack done; (w :: rest).forM Writer.drop)
      (keepPrevious w.target)
    orUndo w.target
      (do backup.forM fun b => quietly (removeFile b)
          rollBack done
          rest.forM Writer.drop)
      w.commit
    commitAll (done ++ [⟨w.target, backup⟩]) rest

/-- Publishes all files or none. -/
def publishAll (files : List (Path × Bytes)) : Attempt PublishFault Unit := do
  let staged ← stageAll [] files
  let done ← commitAll [] staged
  done.forM fun p => p.backup.forM fun b => quietly (removeFile b)

end ContractBuild.Host

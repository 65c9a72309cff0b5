/-!
Command lines with subcommands, options and one argument.

Options are `--name value`, `--name=value`, `-n value`, `-nvalue` or `-n=value`, and short ones that
take no value may be written together. After `--` only arguments follow. An option may be given once
on each level unless it is made to be repeated.
-/

namespace ContractBuild.Cli

/-- What an option stands for. -/
inductive Kind where
  | flag
  /-- A flag that counts. -/
  | count
  | value (accepts : String → Bool)
  /-- A value that may be given many times and may look like an option. -/
  | values
  /-- Asks for information and ends the reading. -/
  | inform

structure Opt where
  name : String
  short : Option Char := none
  kind : Kind

/-- The form of a command line. -/
inductive Grammar where
  | mk (options : List Opt) (argument : Option Opt) (subcommands : List (String × Grammar))

namespace Grammar

def options : Grammar → List Opt
  | mk options _ _ => options

def argument : Grammar → Option Opt
  | mk _ argument _ => argument

def subcommands : Grammar → List (String × Grammar)
  | mk _ _ subcommands => subcommands

end Grammar

/-- Why there is nothing to run. -/
inductive Stop where
  /-- Help or the version was asked for. -/
  | informed
  | misused
  deriving DecidableEq

/-- What was given for one command: the options in order with their values. -/
abbrev Given := List (String × String)

/-- The reading of one command's part. -/
structure Reading where
  given : Given := []
  /-- An option that waits for its value. -/
  awaiting : Option Opt := none
  /-- A value that has been read but not been checked yet. -/
  pending : Option (Opt × String) := none
  /-- Whether the argument has been given. -/
  hasArgument : Bool := false
  /-- Whether only arguments follow. -/
  isTrailing : Bool := false

namespace Reading

/-- Records an option; `Except.error` if its value will not do or it was given before. -/
def record (r : Reading) (o : Opt) (value : String) : Except Stop Reading :=
  let added := { r with given := r.given ++ [(o.name, value)] }
  let isNew := !r.given.any (·.1 == o.name)
  match o.kind with
  | .count | .values => .ok added
  | .flag => if isNew then .ok added else .error .misused
  | .value accepts => if accepts value && isNew then .ok added else .error .misused
  | .inform => .error .informed

/-- Records what has been read so far. -/
def settle (r : Reading) : Except Stop Reading :=
  match r.awaiting, r.pending with
  | some _, _ => .error .misused
  | none, some (o, value) => { r with pending := none }.record o value
  | none, none => .ok r

def takesAnything (r : Reading) : Bool :=
  match r.awaiting with
  | some o => match o.kind with
    | .values => true
    | _ => false
  | none => false

/-- Gives a word to the option that waits for it. -/
def supply (r : Reading) (o : Opt) (word : String) : Reading :=
  { r with awaiting := none, pending := some (o, word) }

/-- An option with the value attached to it, if any. -/
def option (r : Reading) (o : Opt) (attached : Option String) : Except Stop Reading := do
  match o.kind, attached with
  | .value _, none | .values, none => return { ← r.settle with awaiting := some o }
  | .value _, some v | .values, some v => (← r.settle).record o v
  | _, some _ => .error .misused
  | _, none => (← r.settle).record o ""

/-- A word of short options, the first character being the dash. -/
def shorts (r : Reading) (options : List Opt) : List Char → Except Stop Reading
  | [] => .ok r
  | c :: rest => do
    match options.find? (·.short == some c) with
    | none => .error .misused
    | some o =>
      match o.kind with
      | .value _ | .values =>
        r.option o (match rest with
          | [] => none
          | '=' :: v => some (String.ofList v)
          | v => some (String.ofList v))
      | _ => (← r.option o none).shorts options rest

def long (r : Reading) (options : List Opt) (body : List Char) : Except Stop Reading :=
  let name := String.ofList (body.takeWhile (· ≠ '='))
  let attached := match body.dropWhile (· ≠ '=') with
    | _ :: v => some (String.ofList v)
    | [] => none
  match options.find? (·.name == name) with
  | some o => r.option o attached
  | none => .error .misused

def argument (r : Reading) (g : Grammar) (word : String) : Except Stop Reading := do
  match g.argument with
  | none => .error .misused
  | some o =>
    if r.hasArgument then .error .misused
    return { ← r.settle with hasArgument := true, pending := some (o, word) }

/-- Reads a word that is no subcommand. -/
def word (r : Reading) (g : Grammar) (w : String) : Except Stop Reading :=
  match w.toList, r.awaiting, r.takesAnything || r.isTrailing with
  | ['-', '-'], _, false => .ok { r with isTrailing := true }
  | '-' :: '-' :: body, _, false => r.long g.options body
  | '-' :: c :: rest, _, false => r.shorts g.options (c :: rest)
  | _, some o, _ => if r.isTrailing then .error .misused else .ok (r.supply o w)
  | _, none, _ => r.argument g w

end Reading

/-- Whether every word names a subcommand of the one before it. -/
def namesCommand : Grammar → List String → Bool
  | _, [] => true
  | g, w :: rest =>
    match g.subcommands.lookup w with
    | some sub => namesCommand sub rest
    | none => w == "help" && !g.subcommands.isEmpty && rest.isEmpty

/-- Reads the words of a command. Gives the names of the subcommands with what was given for each,
starting with the command itself. -/
def Grammar.read (name : String) (g : Grammar) (r : Reading) :
    List String → Except Stop (List (String × Given))
  | [] => do
    let r ← r.settle
    if g.subcommands.isEmpty then return [(name, r.given)] else .error .misused
  | w :: rest => do
    let isFree := r.awaiting.isNone && !r.isTrailing
    match if isFree then g.subcommands.lookup w else none with
    | some sub =>
      let deeper ← sub.read w {} rest
      return (name, (← r.settle).given) :: deeper
    | none =>
      if isFree && w == "help" && !g.subcommands.isEmpty then
        .error (if namesCommand g rest then .informed else .misused)
      else g.read name (← r.word g w) rest

end ContractBuild.Cli

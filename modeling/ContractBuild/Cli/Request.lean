import ContractBuild.Cli.Grammar
import ContractBuild.Mode
import ContractBuild.Text.Decimal
import ContractBuild.Wasm.Optimizer

/-!
The commands of the command line.
-/

namespace ContractBuild.Cli

/-- The project that a command is about. -/
structure Project where
  directory : Path
  /-- A manifest file other than the one in the directory. -/
  manifest : Option Path
  deriving DecidableEq

structure BuildOptions where
  project : Project
  mode : Option Mode
  output : Option Path
  useCache : Bool
  cacheDir : Option Path
  toolchain : Option String
  /-- How long a tool may run, in seconds. -/
  timeout : Nat
  optimizer : Wasm.Setting
  toolchainArgs : List String
  deriving DecidableEq

inductive CacheAction where
  | clear
  /-- Keeps the given version, or else that of a toolchain. -/
  | prune (keep toolchain : Option String)
  | stats
  deriving DecidableEq

inductive Command where
  | build (options : BuildOptions)
  | abi (project : Project)
  | deps (project : Project) (asJson : Bool)
  | cache (action : CacheAction) (dir : Option Path)
  | checkToolchain (program : Option String)
  deriving DecidableEq

structure Request where
  command : Command
  /-- How often more log output was asked for. -/
  verbosity : Nat
  deriving DecidableEq

/-- The level of log output. -/
def Request.level (r : Request) : String :=
  match r.verbosity with
  | 0 => "INFO"
  | 1 => "DEBUG"
  | _ => "TRACE"

/-! ### The form of the commands -/

def anyText : Kind := .value fun _ => true

def pathText : Kind := .value fun s => !s.isEmpty

def modeText : Kind := .value fun s => (Mode.ofText? s).isSome

def secondsText : Kind := .value fun s => (Text.wordOfSigned? s.toList).isSome

/-- The options of every command. -/
def commonOptions : List Opt :=
  [{ name := "verbose", short := some 'v', kind := .count },
   { name := "help", short := some 'h', kind := .inform }]

def manifestOption : Opt := { name := "manifest", kind := pathText }

def cacheDirOption : Opt := { name := "cache-dir", kind := pathText }

def toolchainOption : Opt := { name := "toolchain", kind := anyText }

def projectArgument : Opt := { name := "project-dir", kind := pathText }

def buildForm : Grammar :=
  .mk (commonOptions ++
    [manifestOption,
     { name := "optimize", kind := modeText },
     { name := "output", short := some 'o', kind := pathText },
     { name := "no-cache", kind := .flag },
     cacheDirOption,
     toolchainOption,
     { name := "timeout", kind := secondsText },
     { name := "wasm-opt", kind := anyText },
     { name := "toolchain-arg", kind := .values }]) (some projectArgument) []

def cacheForm : Grammar :=
  let options := commonOptions ++ [cacheDirOption]
  .mk options none
    [("clear", .mk options none []),
     ("prune", .mk (options ++ [{ name := "keep-version", kind := anyText }, toolchainOption])
       none []),
     ("stats", .mk options none [])]

def form : Grammar :=
  .mk (commonOptions ++ [{ name := "version", short := some 'V', kind := .inform }]) none
    [("build", buildForm),
     ("abi", .mk (commonOptions ++ [manifestOption]) (some projectArgument) []),
     ("deps", .mk (commonOptions ++ [manifestOption, { name := "json", kind := .flag }])
       (some projectArgument) []),
     ("cache", cacheForm),
     ("check-toolchain", .mk (commonOptions ++ [toolchainOption]) none [])]

/-! ### Reading a request -/

def valueOf (given : Given) (name : String) : Option String := given.lookup name

def isGiven (given : Given) (name : String) : Bool := (given.lookup name).isSome

def pathOf (given : Given) (name : String) : Option Path := (valueOf given name).map Path.mk

def projectOf (given : Given) : Project where
  directory := (pathOf given "project-dir").getD ⟨"."⟩
  manifest := pathOf given "manifest"

def buildOf (given : Given) : BuildOptions where
  project := projectOf given
  mode := (valueOf given "optimize").bind Mode.ofText?
  output := pathOf given "output"
  useCache := !isGiven given "no-cache"
  cacheDir := pathOf given "cache-dir"
  toolchain := valueOf given "toolchain"
  timeout := ((valueOf given "timeout").bind fun s => Text.wordOfSigned? s.toList).getD 300
  optimizer := Wasm.Setting.ofText ((valueOf given "wasm-opt").getD "auto")
  toolchainArgs := (given.filter (·.1 == "toolchain-arg")).map (·.2)

def cacheActionOf (name : String) (given : Given) : Option CacheAction :=
  match name with
  | "clear" => some .clear
  | "prune" => some (.prune (valueOf given "keep-version") (valueOf given "toolchain"))
  | "stats" => some .stats
  | _ => none

def commandOf : List (String × Given) → Option Command
  | [_, ("build", given)] => some (.build (buildOf given))
  | [_, ("abi", given)] => some (.abi (projectOf given))
  | [_, ("deps", given)] => some (.deps (projectOf given) (isGiven given "json"))
  | [_, ("cache", outer), (action, given)] => do
    let dir := pathOf given "cache-dir" <|> pathOf outer "cache-dir"
    return .cache (← cacheActionOf action given) dir
  | [_, ("check-toolchain", given)] => some (.checkToolchain (valueOf given "toolchain"))
  | _ => none

/-- How often an option was given; the innermost command that has it counts. -/
def countOf (levels : List (String × Given)) (name : String) : Nat :=
  let counts := levels.map fun l => (l.2.filter (·.1 == name)).length
  (counts.reverse.find? (· ≠ 0)).getD 0

/-- Reads the words after the name of the program. -/
def Request.parse (words : List String) : Except Stop Request := do
  let levels ← form.read "" {} words
  match commandOf levels with
  | some command => return { command, verbosity := countOf levels "verbose" }
  | none => .error .misused

end ContractBuild.Cli

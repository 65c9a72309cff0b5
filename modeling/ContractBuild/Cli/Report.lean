import ContractBuild.Build.Compile

/-!
What the commands print.
-/

namespace ContractBuild.Cli

open ContractBuild.Build

/-- The output of a command and, if it failed, the reasons with the outermost first. -/
structure Report where
  stdout : String := ""
  stderr : String := ""
  reasons : List String := []
  deriving DecidableEq

def Report.exitCode (r : Report) : Nat := if r.reasons.isEmpty then 0 else 1

def unlines (ls : List String) : String := String.join (ls.map (· ++ "\n"))

/-- The reasons of a failure, as shown at the end. -/
def Report.errorText (r : Report) : String :=
  match r.reasons with
  | [] => ""
  | [reason] => unlines [s!"Error: {reason}"]
  | reason :: causes =>
    unlines ([s!"Error: {reason}", "", "Caused by:"] ++ causes.map ("    " ++ ·))

def diagnosticLines (ds : List Diagnostic) : List String := ds.map Diagnostic.text

/-! ### Builds -/

def Report.ofFailure (f : Failure) : Report :=
  let errors := f.errors.length
  let plural := if errors = 1 then "" else "s"
  { stderr := unlines (diagnosticLines f.diagnostics ++
      [s!"❌ Build failed during {f.stage.text} with {errors} error{plural}"])
    reasons := [f.message] }

def methodLine (m : Abi.Method) : String :=
  let params := String.intercalate ", " (m.params.map fun p => s!"{p.name}: {p.type}")
  let returns := m.returns.getD "null"
  s!"  • {m.kind.text} {m.name}({params}) -> {returns}"

/-- A number of milliseconds in its largest unit. -/
def durationText (ms : Nat) : String :=
  if ms = 0 then "0ns"
  else if ms < 1000 then s!"{ms}ms"
  else
    let digits := (toString (ms % 1000 + 1000)).toList.drop 1
    let fraction := (digits.reverse.dropWhile (· == '0')).reverse
    if fraction.isEmpty then s!"{ms / 1000}s"
    else s!"{ms / 1000}." ++ String.ofList fraction ++ "s"

def Report.ofOutput (o : Output) (duration : Nat) : Report :=
  let source := if o.fromCache then "cache" else "toolchain"
  { stderr := unlines (diagnosticLines o.diagnostics)
    stdout := unlines (
      [s!"✅ Built {o.wasmPath.text} ({o.wasm.length} bytes, from {source})",
       s!"📄 ABI {o.abiPath.text} ({o.abi.methods.length} methods)"] ++
      o.abi.methods.map methodLine ++
      [s!"📦 {o.modules.length} frozen modules in {durationText duration}"]) }

def Report.ofAbi (abi : Abi.Descriptor) (ds : List Diagnostic) : Report where
  stdout := abi.toText
  stderr := unlines (diagnosticLines ds)

/-! ### Dependencies -/

def originText : Graph.Origin → String
  | .project => "local"
  | .package none => "package"
  | .package (some d) =>
    match d.rawVersion with
    | some v => s!"{d.name} {v}"
    | none => d.name

def listLine (title : String) (names : List String) : List String :=
  if names.isEmpty then [] else ["    " ++ title ++ ": " ++ String.intercalate ", " names]

def nodeLines (g : Graph) (n : Graph.Node) : List String :=
  [s!"{n.name} ({originText n.origin}) {n.path.text}"] ++
    listLine "imported by" (g.importersOf n.name) ++ listLine "excluded" n.excluded

def Report.ofGraph (g : Graph) (ds : List Diagnostic) : Report where
  stdout := unlines (g.nodes.flatMap (nodeLines g))
  stderr := unlines (diagnosticLines ds)

/-! ### Dependencies as JSON, the members of each object in the order of their names -/

open ContractBuild.Text (Json)

def orNull (s : Option String) : Json :=
  match s with
  | some s => .str s
  | none => .null

def texts (names : List String) : Json := .arr (names.map .str)

def diagnosticJson (d : Diagnostic) : Json :=
  .obj ((match d.location with
    | some (module, line) =>
      [("location", .obj [("line", match line with | some n => .nat n | none => .null),
        ("module", .str module)])]
    | none => []) ++
    [("message", .str d.message), ("severity", .str d.severity.text),
     ("stage", .str d.stage.text)])

def originJson : Graph.Origin → Json
  | .project => .obj [("kind", .str "local")]
  | .package d =>
    .obj [("distribution", match d with
        | some d => .obj [("name", .str d.name), ("raw_version", orNull d.rawVersion)]
        | none => .null),
      ("kind", .str "package")]

def nodeJson (n : Graph.Node) : Json :=
  .obj [("digest", .str n.digest), ("discovery_index", .nat n.index),
    ("excluded_imports", texts n.excluded), ("imports", texts n.imports),
    ("is_package", .bool n.isPackage), ("name", .str n.name), ("origin", originJson n.origin),
    ("path", .str n.path.text)]

def graphJson (g : Graph) (ds : List Diagnostic) : Json :=
  .obj [("diagnostics", .arr (ds.map diagnosticJson)), ("entry", .str g.entry),
    ("modules", .arr (g.nodes.map fun n =>
      .obj [("imported_by", texts (g.importersOf n.name)), ("module", nodeJson n)]))]

def Report.ofGraphJson (g : Graph) (ds : List Diagnostic) : Report where
  stdout := (graphJson g ds).render ++ "\n"

/-! ### Cache and toolchain -/

def statsLines (s : Cache.Stats) : List String :=
  [s!"📦 Cache entries: {s.entries}", s!"🗂️  Blobs: {s.blobs} ({s.blobBytes} bytes)"]

def prunedLine (p : Cache.Pruned) : String :=
  s!"🧹 Removed {p.entries} entries and {p.blobs} blobs"

def toolchainLines (t : Native.Toolchain) : List String :=
  [s!"✅ Toolchain: {t.program.text}", s!"   Version: {t.version}"]

end ContractBuild.Cli

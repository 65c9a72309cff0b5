import ContractBuild.Cli.Execute

/-!
The command line.

The names of the files that a command works on are read from standard input, one a line; for the
command there are no others. What it changes is written back. No program is started, so a build
finds no toolchain.
-/

namespace ContractBuild.Cli

open ContractBuild.Disk

def usage : String :=
  "Usage: contract-forge [-v]... <build|abi|deps|cache|check-toolchain> [OPTIONS] [PROJECT_DIR]"

/-- The variables that the commands look at. -/
def variableNames : List String :=
  ["PATH", "TMPDIR", "XDG_CACHE_HOME", "HOME", Native.programVariable, Native.argumentsVariable]

def readEnvironment : IO (List (String × String)) :=
  variableNames.filterMapM fun name => return (← IO.getEnv name).map (name, ·)

/-! ### Files -/

/-- Adds a file that can be read. -/
def load (t : Tree) (name : String) : IO Tree := do
  let p := (Tree.pathTo t.start).join ⟨name⟩
  try return t.addFile p.names (← IO.FS.readBinFile p.text).toList false
  catch _ => return t

/-- Writes what stands at a place. -/
def save (place : Place) : Node → IO Unit
  | .special => return
  | .directory => IO.FS.createDirAll (Tree.pathTo place).text
  | .file content _ => do
    IO.FS.createDirAll (Tree.pathTo place.dropLast).text
    IO.FS.writeBinFile (Tree.pathTo place).text (ByteArray.mk content.toArray)

/-- Removes what stood at a place. -/
def remove (place : Place) : Node → IO Unit
  | .directory => try IO.FS.removeDir (Tree.pathTo place).text catch _ => return
  | _ => IO.FS.removeFile (Tree.pathTo place).text

/-- Makes the files of one tree those of another. -/
def update (before after : Tree) : IO Unit := do
  let gone := before.nodes.filter fun e => (after.get? e.1).isNone
  for (place, node) in gone.mergeSort fun a b => b.1.length ≤ a.1.length do
    remove place node
  for (place, node) in after.nodes do
    if before.get? place ≠ some node then save place node

/-! ### Running a command -/

def run (r : Request) : IO UInt32 := do
  let names := Text.splitString '\n' (← (← IO.getStdin).readToEnd)
  let start := (Path.mk ((← IO.getEnv "PWD").getD "/")).names
  let before ← (names.filter (!·.isEmpty)).foldlM load ({ start : Tree }.addDirectories start)
  let host : Host := { tree := before, environment := ← readEnvironment }
  let (report, after) := execute r host
  update before after.tree
  IO.print report.stdout
  IO.eprint (report.stderr ++ report.errorText)
  return report.exitCode.toUInt32

def start (words : List String) : IO UInt32 := do
  match Request.parse words with
  | .ok r => run r
  | .error .informed =>
    IO.println usage
    return 0
  | .error .misused =>
    IO.eprintln usage
    return 2

end ContractBuild.Cli

def main (words : List String) : IO UInt32 := ContractBuild.Cli.start words

import ContractBuild.Frozen.Basic
import ContractBuild.Host.Scratch
import ContractBuild.Native.Fault

/-!
Build workspaces: a directory with the frozen sources, the list of them for the toolchain, and a
place for its output.
-/

namespace ContractBuild.Native.Workspace

open ContractBuild.Disk ContractBuild.Host

def sources (dir : Path) : Path := dir.joinName Frozen.directory

def listing (dir : Path) : Path := dir.joinName "manifest.py"

def outputDirectory (dir : Path) : Path := dir.joinName "build"

/-- Where the toolchain has to write the binary. -/
def output (dir : Path) : Path := (outputDirectory dir).joinName "contract.wasm"

/-- Does a part of the preparation that concerns a path. -/
def preparing {α : Type} (p : Path) (act : Attempt Disk.Fault α) : Attempt Fault α := do
  match ← act.result with
  | .ok a => return a
  | .error f => throw (.workspace p.text f.message)

def writeModule (dir : Path) (m : Frozen.Module) : Attempt Fault Unit := do
  let target := (sources dir).joinName m.relativePath
  match target.parent with
  | some parent => preparing parent (makeDirectories parent)
  | none => pure ()
  preparing target (Host.write target m.content)

def fill (dir : Path) (frozen : Frozen) : Attempt Fault Unit := do
  frozen.modules.forM (writeModule dir)
  preparing (listing dir) (Host.write (listing dir) (Text.Utf8.encode frozen.listing))
  preparing (outputDirectory dir) (makeDirectories (outputDirectory dir))

/-- Works in a new workspace below `root`, which is removed afterwards. -/
def within {α : Type} (root : Path) (frozen : Frozen) (act : Path → Attempt Fault α) :
    Attempt Fault α := do
  preparing root (makeDirectories root)
  inScratch (fun f => .workspace root.text f.message) root "contract-forge-" fun dir => do
    fill dir frozen
    act dir

end ContractBuild.Native.Workspace

import ContractBuild.Digest.Sha256
import ContractBuild.Frozen.Base
import ContractBuild.Total

/-!
Frozen modules: the exact input of a native build, as content and as canonical bytes.
-/

namespace ContractBuild

open ContractBuild.Text ContractBuild.Digest

namespace Frozen

structure Module where
  name : String
  digest : String
  content : Bytes
  isPackage : Bool
  deriving DecidableEq

/-- Where the module lies below the directory of frozen sources. -/
def Module.relativePath (m : Module) : String :=
  let base := String.ofList (m.name.toList.map fun c => if c == '.' then '/' else c)
  if m.isPackage then base ++ "/__init__.py" else base ++ ".py"

/-- The directory of frozen sources in a build workspace. -/
def directory : String := "frozen"

end Frozen

structure Frozen where
  entry : String
  modules : List Frozen.Module
  base : BaseLibrary
  deriving DecidableEq

namespace Frozen

def header : Bytes := Utf8.encode "contract-forge-frozen-v1\n"

def providesLine (name : String) : Bytes := Utf8.encode s!"provides {name}\n"

/-- A line with the length of the content, and the content itself. -/
def Module.canonical (m : Module) : Bytes :=
  Utf8.encode s!"module {m.name} {if m.isPackage then 1 else 0} {m.digest} {m.content.length}\n" ++
    m.content ++ [10]

/-- Bytes that depend only on the names, digests, contents and the base library. -/
def canonical (f : Frozen) : Bytes :=
  header ++ Utf8.encode s!"base {f.base.name} {f.base.version}\n" ++
    f.base.provides.flatMap providesLine ++ Utf8.encode s!"entry {f.entry}\n" ++
    f.modules.flatMap Module.canonical

def digest (f : Frozen) : String := sha256Hex f.canonical

def entryModule? (f : Frozen) : Option Module := f.modules.find? (·.name == f.entry)

def totalBytes (f : Frozen) : Nat := total (·.content.length) f.modules

/-- The file that tells the toolchain which modules to freeze. -/
def listing (f : Frozen) : String :=
  s!"# Frozen by contract-forge; entry module {f.entry}\n" ++
    s!"# base library {f.base.name} {f.base.version}\n" ++
    "include(\"$(BASE_LIBRARY)/manifest.py\")\n" ++
    String.join (f.modules.map fun m =>
      s!"module(\"{m.relativePath}\", base_path=\"{directory}\")\n")

end Frozen

end ContractBuild

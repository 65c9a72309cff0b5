import ContractBuild.Text.Sorted
import ContractBuild.Text.Chars

/-!
Base libraries: the modules that the toolchain puts into every contract by itself.
-/

namespace ContractBuild

structure BaseLibrary where
  name : String
  version : String
  /-- The modules provided, in order. -/
  provides : List String
  deriving DecidableEq

namespace BaseLibrary

/-- Modules compiled into the interpreter image. -/
def builtins : List String :=
  ["__future__", "array", "asyncio", "binascii", "builtins", "cmath", "collections", "deflate",
   "errno", "gc", "hashlib", "heapq", "io", "json", "math", "micropython", "os", "platform",
   "random", "re", "select", "struct", "sys", "time", "uasyncio", "ubinascii", "ucollections",
   "uctypes", "uerrno", "uhashlib", "uheapq", "uio", "ujson", "uos", "ure", "uselect", "ustruct",
   "usys", "utime", "uzlib", "zlib"]

def standard : BaseLibrary where
  name := "micropython-near-base"
  version := "1.0.0"
  provides := Text.sortedSet (builtins ++ ["typing", "near"])

/-- The part of a dotted name before its first dot. -/
def rootOf (name : String) : String := String.ofList (name.toList.takeWhile (· ≠ '.'))

/-- Whether a dotted module comes with the library, by itself or with its top-level package. -/
def has (b : BaseLibrary) (name : String) : Bool :=
  b.provides.contains name || b.provides.contains (rootOf name)

end BaseLibrary

end ContractBuild

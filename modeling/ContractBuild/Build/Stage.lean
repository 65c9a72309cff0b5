/-!
Stages of a build, the states between them, and how each stage ended.
-/

namespace ContractBuild.Build

inductive Stage where
  | manifest
  | resolve
  | freeze
  | build
  | optimize
  | abi
  | cache
  | emit
  deriving DecidableEq

def Stage.text : Stage → String
  | manifest => "manifest"
  | resolve => "resolve"
  | freeze => "freeze"
  | build => "build"
  | optimize => "optimize"
  | abi => "abi"
  | cache => "cache"
  | emit => "emit"

inductive Status where
  | completed
  /-- The output came from the build cache. -/
  | cached
  | failed
  deriving DecidableEq

def Status.text : Status → String
  | completed => "completed"
  | cached => "cached"
  | failed => "failed"

/-- Where a build stands. -/
inductive State where
  | init
  | resolved
  | frozen
  | built (fromCache : Bool)
  | optimized
  | abiExtracted
  | done
  | failed (stage : Stage)
  deriving DecidableEq

namespace State

def isTerminal : State → Bool
  | done | failed _ => true
  | _ => false

/-- Whether the second state directly follows the first. -/
def accepts : State → State → Bool
  | s, failed _ => !s.isTerminal
  | init, resolved | resolved, frozen | frozen, built _ | built _, optimized
  | optimized, abiExtracted | abiExtracted, done => true
  | _, _ => false

/-- The stage whose end leads into a state. -/
def stage : State → Option Stage
  | init => none
  | resolved => some .resolve
  | frozen => some .freeze
  | built _ => some .build
  | optimized => some .optimize
  | abiExtracted => some .abi
  | done => some .emit
  | failed s => some s

def text : State → String
  | init => "init"
  | resolved => "resolved"
  | frozen => "frozen"
  | built true => "built (cache hit)"
  | built false => "built"
  | optimized => "optimized"
  | abiExtracted => "abi-extracted"
  | done => "done"
  | failed s => s!"failed during {s.text}"

end State

end ContractBuild.Build

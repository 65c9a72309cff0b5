/-!
What a build is optimized for.
-/

namespace ContractBuild

inductive Mode where
  | size
  | speed
  | debug
  deriving DecidableEq

def Mode.text : Mode → String
  | size => "size"
  | speed => "speed"
  | debug => "debug"

def Mode.ofText? (s : String) : Option Mode :=
  match s with
  | "size" => some .size
  | "speed" => some .speed
  | "debug" => some .debug
  | _ => none

end ContractBuild

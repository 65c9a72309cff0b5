import ContractBuild.Python.Signature

/-!
A module as static analysis sees it: its imports, at any depth, and its top-level functions with
the decorators directly in front of them.
-/

namespace ContractBuild.Python

structure Module where
  imports : List Import := []
  functions : List Function := []
  deriving DecidableEq

namespace Module

/-- What has been read, and the decorators that wait for their function. -/
structure St where
  module : Module := {}
  pending : List Decorator := []

def step (s : St) (l : Line) : Except Fault St := do
  match ← Import.ofLine l with
  | some found =>
    let module := { s.module with imports := s.module.imports ++ found }
    return { module, pending := if l.indent == 0 then [] else s.pending }
  | none =>
    if l.indent != 0 then return s
    match l.text.toList with
    | '@' :: rest => return { s with pending := s.pending ++ [← Decorator.ofText l.number rest] }
    | _ =>
      match ← Function.ofLine l s.pending with
      | some f => return { module := { s.module with functions := s.module.functions ++ [f] } }
      | none => return { s with pending := [] }

def ofLines (ls : List Line) : Except Fault Module := do
  return (← ls.foldlM step {}).module

def parse (source : String) : Except Fault Module := do
  ofLines (← Line.scan source)

/-- The first function of that name. -/
def function? (m : Module) (name : String) : Option Function :=
  m.functions.find? (·.name == name)

end Module

end ContractBuild.Python

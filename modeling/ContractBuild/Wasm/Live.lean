import ContractBuild.Wasm.Parser

/-!
Which functions of a module can be reached.

Roots are the functions that are exported, started, listed in an element segment, or referred to by
the initial value of a global or a table. A reached body reaches what it calls or refers to.
-/

namespace ContractBuild.Wasm.Live

/-- The functions that a constant expression refers to. -/
def referred (ops : List Operator) : List Nat :=
  ops.filterMap fun
    | .refFunc f => some f
    | _ => none

/-- The functions that operators call or refer to. -/
def mentioned (ops : List Operator) : List Nat :=
  ops.filterMap fun
    | .call f | .returnCall f | .refFunc f => some f
    | .other => none

def exportedFunction (e : ExternalKind × Nat) : Option Nat :=
  if e.1 = .function then some e.2 else none

def segmentFunctions : Segment → List Nat
  | .functions fs => fs
  | .exprs es => es.flatMap referred

/-- The functions that a section makes reachable. -/
def rootsOf : Told → List Nat
  | .exports es => es.filterMap exportedFunction
  | .start f => [f]
  | .elements ss => ss.flatMap segmentFunctions
  | .globals is => is.flatMap referred
  | .tables is => is.flatMap fun init => referred (init.getD [])
  | .imports _ | .nothing => []

/-- The number of functions that a section imports. -/
def importedBy : Told → Nat
  | .imports kinds => kinds.count .function
  | _ => 0

/-- What has been collected from the parts of a module. -/
structure Survey where
  imported : Nat := 0
  roots : List Nat := []
  bodies : List Body := []

def Survey.add (s : Survey) : Payload → Except String Survey
  | .body b => return { s with bodies := s.bodies ++ [b] }
  | .other _ _ told => do
    let told ← told
    return { s with imported := s.imported + importedBy told, roots := s.roots ++ rootsOf told }
  | .version _ | .custom _ _ | .code _ => return s

/-- Goes over the parts of a module, up to the first that cannot be read. -/
def survey (parts : List (Except String Payload)) : Except String Survey :=
  parts.foldlM (fun s part => do s.add (← part)) {}

/-- How many functions a body mentions. -/
def mentions (b : Body) : Nat :=
  match b.operators with
  | .ok ops => (mentioned ops).length
  | .error _ => 0

/-- How many functions are mentioned by bodies, counted from `i`, that have not been opened. -/
def unopenedFrom (seen : List Nat) : Nat → List Body → Nat
  | _, [] => 0
  | i, b :: bodies => (if i ∈ seen then 0 else mentions b) + unopenedFrom seen (i + 1) bodies

theorem unopenedFrom_cons_of_lt {k i : Nat} (seen : List Nat) (bodies : List Body) (h : k < i) :
    unopenedFrom (k :: seen) i bodies = unopenedFrom seen i bodies := by
  induction bodies generalizing i with
  | nil => rfl
  | cons b bodies ih =>
    rw [unopenedFrom, unopenedFrom, ih (Nat.lt_succ_of_lt h)]
    simp only [List.mem_cons, Nat.ne_of_gt h, false_or]

/-- A body that is opened no longer counts. -/
theorem unopenedFrom_add_of_place {seen : List Nat} {i j : Nat} {bodies : List Body} {b : Body}
    (hb : bodies[j]? = some b) (hseen : i + j ∉ seen) :
    unopenedFrom seen i bodies = mentions b + unopenedFrom ((i + j) :: seen) i bodies := by
  induction bodies generalizing i j with
  | nil => cases hb
  | cons c bodies ih =>
    rw [unopenedFrom, unopenedFrom]
    cases j with
    | zero =>
      obtain rfl : c = b := Option.some.inj hb
      simp only [Nat.add_zero] at hseen ⊢
      rw [if_neg hseen, if_pos List.mem_cons_self, Nat.zero_add,
        unopenedFrom_cons_of_lt seen bodies (Nat.lt_succ_self i)]
    | succ j =>
      have hplace : i + (j + 1) = i + 1 + j := by omega
      have hne : i ≠ i + 1 + j := by omega
      rw [hplace] at hseen ⊢
      rw [ih hb hseen]
      simp only [List.mem_cons, hne, false_or]
      omega

theorem unopenedFrom_add {seen : List Nat} {j : Nat} {bodies : List Body} {b : Body}
    (hb : bodies[j]? = some b) (hseen : j ∉ seen) :
    unopenedFrom seen 0 bodies = mentions b + unopenedFrom (j :: seen) 0 bodies := by
  have h := unopenedFrom_add_of_place (i := 0) hb (by rwa [Nat.zero_add])
  rwa [Nat.zero_add] at h

/-- Opening a body puts no more on the worklist than counted before. -/
theorem length_add_unopened_lt {seen work : List Nat} {f j : Nat} {bodies : List Body} {b : Body}
    {ops : List Operator} (hseen : j ∉ seen) (hb : bodies[j]? = some b)
    (ho : b.operators = .ok ops) :
    ((mentioned ops).reverse ++ work).length + unopenedFrom (j :: seen) 0 bodies <
      (f :: work).length + unopenedFrom seen 0 bodies := by
  have hopened := unopenedFrom_add hb hseen
  have hmentions : mentions b = (mentioned ops).length := by rw [mentions, ho]
  simp only [List.length_append, List.length_reverse, List.length_cons]
  omega

/-- Visits the functions on a worklist, the one put there last first, and from each one not seen
before what its body mentions. The result lists the defined functions reached, by their place among
the bodies. -/
def visit (imported : Nat) (bodies : List Body) (work seen : List Nat) :
    Except String (List Nat) :=
  match work with
  | [] => .ok seen
  | f :: work =>
    if f < imported then visit imported bodies work seen
    else if _ : f - imported ∈ seen then visit imported bodies work seen
    else match _ : bodies[f - imported]? with
      | none => visit imported bodies work seen
      | some b =>
        match _ : b.operators with
        | .error reason => .error reason
        | .ok ops =>
          visit imported bodies ((mentioned ops).reverse ++ work) ((f - imported) :: seen)
termination_by work.length + unopenedFrom seen 0 bodies
decreasing_by
  · exact Nat.add_lt_add_right (Nat.lt_succ_self _) _
  · exact Nat.add_lt_add_right (Nat.lt_succ_self _) _
  · exact Nat.add_lt_add_right (Nat.lt_succ_self _) _
  · exact length_add_unopened_lt ‹_› ‹_› ‹_›

/-- The defined functions that are reached, unless a part that tells cannot be read. -/
def reached (parts : List (Except String Payload)) : Except String (List Nat) := do
  let s ← survey parts
  visit s.imported s.bodies s.roots.reverse []

end ContractBuild.Wasm.Live

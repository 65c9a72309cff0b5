/-!
Sets and maps of strings as lists in increasing order of their code points.
-/

namespace ContractBuild.Text

/-- Adds an element to a sorted set. -/
def insertSorted (x : String) : List String → List String
  | [] => [x]
  | y :: r => if x = y then y :: r else if x < y then x :: y :: r else y :: insertSorted x r

/-- The elements of a list in order, each once. -/
def sortedSet (xs : List String) : List String := xs.foldl (fun s x => insertSorted x s) []

/-- Sets the value of a key in a sorted map. -/
def putSorted {α : Type} (k : String) (v : α) : List (String × α) → List (String × α)
  | [] => [(k, v)]
  | (k', v') :: r =>
    if k = k' then (k, v) :: r
    else if k < k' then (k, v) :: (k', v') :: r
    else (k', v') :: putSorted k v r

/-- The sorted map of the given pairs; of two with one key the last counts. -/
def sortedMap {α : Type} (pairs : List (String × α)) : List (String × α) :=
  pairs.foldl (fun m p => putSorted p.1 p.2 m) []

end ContractBuild.Text

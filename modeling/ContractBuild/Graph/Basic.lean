import ContractBuild.Graph.Locate
import ContractBuild.Total

/-!
Dependency graphs: the modules that an entry module reaches, in the order in which they were
discovered.
-/

namespace ContractBuild

namespace Graph

/-- A module of the graph with the bytes its imports were read from. -/
structure Node where
  name : String
  path : Path
  digest : String
  source : Bytes
  isPackage : Bool
  origin : Origin
  /-- The modules of the graph that it imports, in order. -/
  imports : List String
  /-- The imported names left out because they are excluded or built in, in order. -/
  excluded : List String
  /-- Its place in the order of discovery. -/
  index : Nat
  deriving DecidableEq

end Graph

structure Graph where
  entry : String
  nodes : List Graph.Node
  deriving DecidableEq

namespace Graph

def get? (g : Graph) (name : String) : Option Node := g.nodes.find? (·.name == name)

def contains (g : Graph) (name : String) : Bool := (g.get? name).isSome

def size (g : Graph) : Nat := g.nodes.length

def names (g : Graph) : List String := g.nodes.map (·.name)

/-! ### Edges -/

/-- The place of a named module. -/
def placeOf? (g : Graph) (name : String) : Option Nat := g.nodes.findIdx? (·.name == name)

/-- An edge for each import, from the place of the module to that of what it imports. -/
def edges (g : Graph) : List (Nat × Nat) :=
  g.nodes.zipIdx.flatMap fun p => p.1.imports.filterMap fun i => (g.placeOf? i).map (p.2, ·)

def edgeCount (g : Graph) : Nat := g.edges.length

/-- Where the edges to a place come from, the last one first. -/
def predecessors (g : Graph) (place : Nat) : List Node :=
  (g.edges.filter (·.2 == place)).reverse.filterMap fun e => g.nodes[e.1]?

/-- Puts a node into the order of discovery, unless one with its index is there. -/
def insertByIndex (n : Node) : List Node → List Node
  | [] => [n]
  | m :: r =>
    if n.index = m.index then m :: r
    else if n.index < m.index then n :: m :: r
    else m :: insertByIndex n r

/-- The modules that import a module, in the order of discovery. -/
def importersOf (g : Graph) (name : String) : List String :=
  match g.placeOf? name with
  | none => []
  | some place =>
    ((g.predecessors place).foldl (fun ns n => insertByIndex n ns) []).map (·.name)

/-! ### Well-formed graphs -/

/-- The imports of a named module. -/
def importsOf (nodes : List Node) (name : String) : List String :=
  match nodes.find? (·.name == name) with
  | some n => n.imports
  | none => []

/-- The names reached from those to do, besides those seen; `fuel` bounds how many are done. -/
def reach (nodes : List Node) : Nat → List String → List String → List String
  | 0, _, seen => seen
  | _, [], seen => seen
  | fuel + 1, name :: rest, seen =>
    if seen.contains name then reach nodes fuel rest seen
    else reach nodes fuel (importsOf nodes name ++ rest) (name :: seen)

/-- The names reached from the entry. -/
def reached (entry : String) (nodes : List Node) : List String :=
  reach nodes (total (·.imports.length) nodes + 1) [entry] []

/-- The first module that is not at its place. -/
def misplaced? (nodes : List Node) : Option String :=
  (nodes.zipIdx.find? fun p => p.1.index ≠ p.2).map (·.1.name)

/-- The first import that leads out of the graph, with its module. -/
def unknown? (nodes : List Node) : Option (String × String) :=
  nodes.findSome? fun n =>
    (n.imports.find? fun i => !(nodes.any (·.name == i))).map fun i => (n.name, i)

/-- Puts nodes together to a graph, unless they are out of order, lack the entry or something
imported, or hold something that the entry does not reach. -/
def ofNodes (entry : String) (nodes : List Node) : Except String Graph := do
  if let some name := misplaced? nodes then
    throw s!"module {name} is out of discovery order"
  if !(nodes.any (·.name == entry)) then
    throw s!"entry module {entry} is missing from the graph"
  if let some (name, imported) := unknown? nodes then
    throw s!"module {name} imports unknown node {imported}"
  let seen := reached entry nodes
  if let some orphan := nodes.find? fun n => !(seen.contains n.name) then
    throw s!"module {orphan.name} is not reachable from {entry}"
  return { entry, nodes }

end Graph

end ContractBuild

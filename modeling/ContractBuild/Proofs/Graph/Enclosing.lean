import Mathlib
import ContractBuild.Proofs.Graph.Closure
import ContractBuild.Proofs.Graph.Finite

/-!
The packages around the modules of a graph. An import statement brings the packages around each
module that it means along, so a graph holds with every imported module all packages around it that
have a file. Nothing imports the entry module of a project as such, and its packages come only if
some statement means them.
-/

namespace ContractBuild.Graph

open ContractBuild.Disk ContractBuild.Text

/-- A package around a module: its components are the first ones of the module, but not all. -/
def Encloses (p n : String) : Prop := splitString '.' p <+: splitString '.' n ∧ p ≠ n

/-- The names that a statement lists after the module they are imported from. -/
def listed : Python.Import → List String
  | .whole _ _ => []
  | .names _ _ _ names => names

lemma splitString_of_not_mem {s : String} (h : '.' ∉ s.toList) : splitString '.' s = [s] := by
  have hdotted : Candidate.dotted [s] = s := String.intercalate_singleton
  have hsplit := splitString_dotted (List.cons_ne_nil s []) (by simpa using h)
  rwa [hdotted] at hsplit

/-- Around a name that is put after a module are that module and the packages around it. -/
lemma Encloses.of_append {p b x : String} (h : Encloses p (b ++ "." ++ x)) (hx : '.' ∉ x.toList) :
    splitString '.' p <+: splitString '.' b := by
  obtain ⟨hp, hne⟩ := h
  rw [splitString_append, splitString_of_not_mem hx, List.prefix_concat_iff] at hp
  rcases hp with hp | hp
  · refine absurd ?_ hne
    rw [← dotted_splitString p, hp, ← splitString_of_not_mem hx, ← splitString_append,
      dotted_splitString]
  · exact hp

/-- A statement that means a module means the packages around it too. -/
lemma Means.enclosing {importer : String} {isPackage : Bool} {i : Python.Import} {c : Candidate}
    {p : String} (hc : Means importer isPackage i c) (hi : ∀ x ∈ listed i, '.' ∉ x.toList)
    (hp : Encloses p c.name) : ∃ d, Means importer isPackage i d ∧ d.name = p := by
  have hname : Candidate.dotted (splitString '.' p) = p := dotted_splitString p
  have hne := splitString_ne_nil '.' p
  have hfront : ∀ {q : List String} {name : String}, q ≠ [] → q <+: splitString '.' name →
      Encloses p (Candidate.dotted q) → splitString '.' p <+: splitString '.' name := by
    intro q name hq hpre henc
    have hdots : ∀ w ∈ q, '.' ∉ w.toList := fun w hw =>
      not_mem_of_mem_splitString (hpre.subset hw)
    have hfirst := henc.1
    rw [splitString_dotted hq hdots] at hfirst
    exact hfirst.trans hpre
  cases hc with
  | whole hq hpre => exact ⟨_, .whole hne (hfront hq hpre hp), hname⟩
  | base hb hq hpre => exact ⟨_, .base hb hne (hfront hq hpre hp), hname⟩
  | name hb hn hs => exact ⟨_, .base hb hne (hp.of_append (hi _ hn)), hname⟩

section Search

variable {scope : Scope} {t : Tree} {first : Located} {s : Search}

/-- At the end of a search, a module that a node means has been discovered if it may be and can be
found. -/
lemma Holds.mem_of_isCandidate (h : Holds scope t first [] s) {n : Node} (hn : n ∈ s.nodes)
    {c : Candidate} (hc : IsCandidate t n.located c) (hex : scope.excludes c.name = false)
    (hfound : (scope.find? t c.name).isSome = true) : c.name ∈ s.discovered := by
  have hdone := h.done n hn
  by_cases hself : c.name = n.name
  · rw [h.order, hself]
    exact List.mem_append_left _ (List.mem_map_of_mem hn)
  · have hsome : (scope.module? t first c.name).isSome = true := by
      rw [Scope.module?]
      split_ifs
      · rfl
      · exact hfound
    exact hdone.kept _ ((hdone.imports _).mpr ⟨⟨_, c, hdone.located, hc, rfl⟩, hex, hself, hsome⟩)

/-- Apart from the entry, what has been discovered is meant by a statement of some node. -/
lemma Holds.exists_isCandidate (h : Holds scope t first [] s) (hq : s.queue = []) {x : String}
    (hx : x ∈ s.discovered) (hne : x ≠ first.name) :
    ∃ n ∈ s.nodes, ∃ c, IsCandidate t n.located c ∧ c.name = x := by
  rcases Relation.ReflTransGen.cases_tail (h.reached x hx) with heq | ⟨y, hy, hdep⟩
  · exact absurd heq hne
  obtain ⟨⟨module, c, hmod, hc, hcx⟩, -⟩ := hdep
  have hmem := h.mem_of_isReached hq hy
  rw [h.order, hq] at hmem
  obtain ⟨n, hn, rfl⟩ := List.mem_map.mp (by simpa using hmem)
  obtain rfl : n.located = module := Option.some.inj ((h.done n hn).located.symm.trans hmod)
  exact ⟨n, hn, c, hc, hcx⟩

/-- The statements of a node are among those of the modules reached. -/
lemma Holds.mem_statements (h : Holds scope t first [] s) {n : Node} (hn : n ∈ s.nodes)
    {i : Python.Import} (hi : HasImport t n.located i) : i ∈ statements scope t first := by
  refine ⟨n.name, n.located, h.reached _ ?_, (h.done n hn).located, hi⟩
  rw [h.order]
  exact List.mem_append_left _ (List.mem_map_of_mem hn)

end Search

/-- **A graph holds the packages around what it imports.** Let no name listed in an import have a
dot in it. Then a package around a module of the graph, if it is not left out and has a file, is in
the graph exactly if the module is not the entry, or some module of the graph imports the entry or
the package. -/
theorem resolve_holds_enclosing {t : Tree} {fuel : ℕ} {project : Path} {manifest : Manifest}
    {base : BaseLibrary} {res : Resolution}
    (h : resolveWithin (Files.ofTree t) fuel project manifest base = Except.ok res)
    (hlisted : ∀ scope first,
      prepare (Files.ofTree t) project manifest base = Except.ok (scope, first) →
        ∀ i ∈ statements scope t first, ∀ x ∈ listed i, '.' ∉ x.toList) :
    ∃ scope first, prepare (Files.ofTree t) project manifest base = Except.ok (scope, first) ∧
      (∀ x, scope.excludes x =
        (manifest.exclude.contains (BaseLibrary.rootOf x) || base.has x)) ∧
      ∀ n ∈ res.graph.names, ∀ p, Encloses p n → scope.excludes p = false →
        (locate (Files.ofTree t) p scope.roots : Option Located).isSome = true →
          (p ∈ res.graph.names ↔ n ≠ res.graph.entry ∨
            ∃ m ∈ res.graph.nodes, ∃ c, IsCandidate t m.located c ∧ (c.name = n ∨ c.name = p)) := by
  obtain ⟨scope, first, s, hprep, hs, hgraph⟩ := explore_of_resolveWithin h
  obtain ⟨hholds, hq⟩ := (holds_start scope t first).explore hs
  have hnames : res.graph.names = s.discovered := by
    rw [hholds.order, hq, hgraph]
    simp [Graph.names]
  obtain ⟨hexclude, hbase⟩ := prepare_excludes hprep
  refine ⟨scope, first, hprep, fun x => by rw [Scope.excludes, hexclude, hbase], ?_⟩
  intro n hn p hp hex hfound
  rw [hnames] at hn ⊢
  rw [hgraph]
  dsimp only
  constructor
  · intro hmem
    by_cases hentry : n = first.name
    · -- the package is another module, so some statement means it
      have hne : p ≠ first.name := fun heq => hp.2 (heq.trans hentry.symm)
      obtain ⟨m, hm, c, hc, hcp⟩ := hholds.exists_isCandidate hq hmem hne
      exact .inr ⟨m, hm, c, hc, .inr hcp⟩
    · exact .inl hentry
  · intro himported
    have hmeant : ∃ m ∈ s.nodes, ∃ c, IsCandidate t m.located c ∧ (c.name = n ∨ c.name = p) := by
      rcases himported with hne | himported
      · obtain ⟨m, hm, c, hc, hcn⟩ := hholds.exists_isCandidate hq hn hne
        exact ⟨m, hm, c, hc, .inl hcn⟩
      · exact himported
    obtain ⟨m, hm, c, ⟨i, hi, hc⟩, hcn⟩ := hmeant
    have hpackage : ∃ d, IsCandidate t m.located d ∧ d.name = p := by
      rcases hcn with rfl | hcp
      · obtain ⟨d, hd, hdp⟩ :=
          hc.enclosing (hlisted scope first hprep i (hholds.mem_statements hm hi)) hp
        exact ⟨d, ⟨i, hi, hd⟩, hdp⟩
      · exact ⟨c, ⟨i, hi, hc⟩, hcp⟩
    obtain ⟨d, hd, rfl⟩ := hpackage
    exact hholds.mem_of_isCandidate hm hd hex hfound

/-- A module in a package in a package, and a module beside them with the given imports. -/
def nestedTree (imports : String) : Tree where
  nodes := [(["p"], .directory), (["p", "main.py"], .file (Utf8.encode imports) false),
    (["p", "a"], .directory), (["p", "a", "__init__.py"], .file [] false),
    (["p", "a", "b"], .directory), (["p", "a", "b", "__init__.py"], .file [] false),
    (["p", "a", "b", "c.py"], .file [] false)]

/-- A project with the given entry. -/
def plainManifest (entry : String) : Manifest where
  entry := ⟨entry⟩
  sourceRoots := [⟨"."⟩]
  packageRoots := []
  exclude := []
  optimize := .size
  output := ⟨"main.wasm"⟩
  abiOutput := ⟨"main.abi.json"⟩
  pins := []
  debugInfo := false

/-- The graph of a project on a nested tree. -/
def resolveNested (imports entry : String) : Except Fault Resolution :=
  resolve (Files.ofTree (nestedTree imports)) ⟨"/p"⟩ (plainManifest entry) ⟨"base", "1", []⟩

theorem nestedTree_holds_enclosing : ∃ res,
    resolveNested "from a.b import c as d\n" "main.py" = .ok res ∧
      (∀ e ∈ (nestedTree "from a.b import c as d\n").nodes, ∀ i ∈ importsAt e.2, ∀ x ∈ listed i,
        '.' ∉ x.toList) ∧
      "a.b.c" ∈ res.graph.names ∧ Encloses "a" "a.b.c" ∧ "a" ∈ res.graph.names := by
  have hnames : (resolveNested "from a.b import c as d\n" "main.py").map
      (fun r => (r.graph.entry, r.graph.names)) = .ok ("main", ["main", "a", "a.b", "a.b.c"]) := by
    decide +kernel
  have hplain : ∀ e ∈ (nestedTree "from a.b import c as d\n").nodes, ∀ i ∈ importsAt e.2,
      ∀ x ∈ listed i, '.' ∉ x.toList := by decide +kernel
  have hp : Encloses "a" "a.b.c" := ⟨by decide +kernel, by decide⟩
  have hprep : (prepare (Files.ofTree (nestedTree "from a.b import c as d\n")) ⟨"/p"⟩
      (plainManifest "main.py") ⟨"base", "1", []⟩).run = Except.ok
        (⟨[], ⟨"base", "1", []⟩, [], [{ path := ⟨"/p"⟩ }]⟩,
          ⟨"main", ⟨"/p/main.py"⟩, false, .project⟩) := rfl
  obtain ⟨res, hres, hgraph⟩ := except_map_eq_ok.mp hnames
  have hn : "a.b.c" ∈ res.graph.names := by
    rw [(Prod.mk.inj hgraph).2]
    simp
  obtain ⟨scope, first, hprep', -, hholds⟩ := resolve_holds_enclosing hres (by
    intro scope first _ i hi
    obtain ⟨e, he, hmem⟩ := exists_importsAt hi
    exact hplain e he i hmem)
  cases hprep.symm.trans hprep'
  refine ⟨res, hres, hplain, hn, hp, (hholds _ hn "a" hp (by decide +kernel) (by decide +kernel)).mpr
    (.inl ?_)⟩
  rw [(Prod.mk.inj hgraph).1]
  decide

/-! ### Packages that are left out -/

/-- The packages around the entry module are not in the graph if nothing imports them, and neither
is a package that a dot in a listed name passes over, although all of them have files. -/
theorem enclosing_is_left_out :
    (resolveNested "" "a/b/c.py").map (fun r => (r.graph.entry, r.graph.names)) =
      .ok ("a.b.c", ["a.b.c"]) ∧
    (resolveNested "from a import b.c\n" "main.py").map (fun r => (r.graph.entry, r.graph.names)) =
      .ok ("main", ["main", "a", "a.b.c"]) ∧
    ∀ p ∈ ["a", "a.b"], ∀ imports ∈ ["", "from a import b.c\n"],
      (locate (Files.ofTree (nestedTree imports)) p [{ path := ⟨"/p"⟩ }] : Option Located).isSome =
        true := by
  decide +kernel

end ContractBuild.Graph

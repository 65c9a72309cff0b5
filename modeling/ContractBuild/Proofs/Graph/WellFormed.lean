import Mathlib
import ContractBuild.Proofs.Graph.Search

/-!
Which nodes make up a graph: those that are in their places, hold the entry and all that is
imported, and are all reached from the entry. In such a graph there is one edge for each import, and
going back along the edges leads from a module to those that import it.
-/

namespace ContractBuild.Graph

variable {nodes : List Node} {entry : String}

/-- One name imports another. -/
def Imports (nodes : List Node) (x y : String) : Prop := ∃ n ∈ nodes, n.name = x ∧ y ∈ n.imports

/-- The nodes are listed in the order of discovery, the entry is among them, nothing is imported
that is not, and the entry leads to all of them. -/
structure IsWellFormed (entry : String) (nodes : List Node) : Prop where
  placed : ∀ (i : ℕ) (n : Node), nodes[i]? = some n → n.index = i
  hasEntry : ∃ n ∈ nodes, n.name = entry
  closed : ∀ n ∈ nodes, ∀ x ∈ n.imports, ∃ m ∈ nodes, m.name = x
  connected : ∀ n ∈ nodes, Relation.ReflTransGen (Imports nodes) entry n.name

/-! ### Reaching all that is imported -/

/-- How many imports the names not seen have. -/
def unseenImports (nodes : List Node) (seen : List String) : ℕ :=
  total (·.imports.length) (nodes.filter fun n => !seen.contains n.name)

/-- Seeing a name takes its imports away. -/
lemma length_importsOf_add_le {seen : List String} {name : String} (hname : name ∉ seen) :
    (importsOf nodes name).length + unseenImports nodes (name :: seen) ≤
      unseenImports nodes seen := by
  induction nodes with
  | nil => exact le_rfl
  | cons n nodes ih =>
    by_cases hn : n.name = name
    · subst hn
      simp only [importsOf, unseenImports, List.find?_cons, List.filter_cons, beq_self_eq_true,
        List.contains_eq_mem, List.mem_cons, true_or, decide_true, Bool.not_true,
        Bool.false_eq_true, if_false, hname, decide_false, Bool.not_false, if_true,
        total_cons] at ih ⊢
      omega
    · have hfind : importsOf (n :: nodes) name = importsOf nodes name := by
        simp [importsOf, hn]
      rw [hfind]
      by_cases hseen : n.name ∈ seen <;>
        simp only [unseenImports, List.filter_cons, List.contains_eq_mem, List.mem_cons, hn,
          hseen, or_true, or_false, decide_true, decide_false, Bool.not_true, Bool.not_false,
          Bool.false_eq_true, if_false, if_true, total_cons] at ih ⊢ <;> omega

/-- With fuel for all imports not seen, everything to do is reached, and all that it imports. -/
lemma reach_closed {fuel : ℕ} {todo seen : List String}
    (hfuel : todo.length + unseenImports nodes seen ≤ fuel)
    (hseen : ∀ x ∈ seen, ∀ y ∈ importsOf nodes x, y ∈ todo ∨ y ∈ seen) :
    (∀ x, x ∈ todo ∨ x ∈ seen → x ∈ reach nodes fuel todo seen) ∧
      ∀ x ∈ reach nodes fuel todo seen, ∀ y ∈ importsOf nodes x,
        y ∈ reach nodes fuel todo seen := by
  induction fuel, todo, seen using reach.induct nodes with
  | case1 todo seen =>
    obtain rfl : todo = [] := List.length_eq_zero_iff.mp (by omega)
    simpa [reach] using hseen
  | case2 fuel seen => simpa [reach] using hseen
  | case3 fuel name rest seen hmem ih =>
    rw [List.contains_iff_mem] at hmem
    rw [reach, if_pos (List.contains_iff_mem.mpr hmem)]
    obtain ⟨hin, hclosed⟩ := ih (by rw [List.length_cons] at hfuel; omega) fun x hx y hy =>
      (hseen x hx y hy).elim (fun h => (List.mem_cons.mp h).elim (fun h => .inr (h ▸ hmem)) .inl)
        .inr
    refine ⟨fun x hx => hin x ?_, hclosed⟩
    rcases hx with hx | hx
    · rcases List.mem_cons.mp hx with rfl | hx
      · exact .inr hmem
      · exact .inl hx
    · exact .inr hx
  | case4 fuel name rest seen hmem ih =>
    rw [List.contains_iff_mem] at hmem
    rw [reach, if_neg (mt List.contains_iff_mem.mp hmem)]
    have hle : (importsOf nodes name).length + unseenImports nodes (name :: seen) ≤
        unseenImports nodes seen := length_importsOf_add_le hmem
    obtain ⟨hin, hclosed⟩ := ih
      (by rw [List.length_cons] at hfuel; rw [List.length_append]; omega) fun x hx y hy => by
        rcases List.mem_cons.mp hx with rfl | hx
        · exact .inl (List.mem_append_left _ hy)
        · rcases hseen x hx y hy with h | h
          · rcases List.mem_cons.mp h with rfl | h
            · exact .inr List.mem_cons_self
            · exact .inl (List.mem_append_right _ h)
          · exact .inr (List.mem_cons_of_mem _ h)
    refine ⟨fun x hx => hin x ?_, hclosed⟩
    rcases hx with hx | hx
    · rcases List.mem_cons.mp hx with rfl | hx
      · exact .inr List.mem_cons_self
      · exact .inl (List.mem_append_right _ hx)
    · exact .inr (List.mem_cons_of_mem _ hx)

lemma imports_of_mem_importsOf {x y : String} (h : y ∈ importsOf nodes x) : Imports nodes x y := by
  unfold importsOf at h
  split at h
  · next n hn =>
    exact ⟨n, List.mem_of_find?_eq_some hn, by simpa using List.find?_some hn, h⟩
  · cases h

/-- Nothing is reached but from what is to do. -/
lemma reach_sound {P : String → Prop} (hP : ∀ x y, Imports nodes x y → P x → P y) {fuel : ℕ}
    {todo seen : List String} (htodo : ∀ x ∈ todo, P x) (hseen : ∀ x ∈ seen, P x) :
    ∀ x ∈ reach nodes fuel todo seen, P x := by
  induction fuel, todo, seen using reach.induct nodes with
  | case1 todo seen => simpa [reach] using hseen
  | case2 fuel seen => simpa [reach] using hseen
  | case3 fuel name rest seen hmem ih =>
    rw [reach, if_pos hmem]
    exact ih (fun x hx => htodo x (List.mem_cons_of_mem _ hx)) hseen
  | case4 fuel name rest seen hmem ih =>
    rw [reach, if_neg hmem]
    have hname : P name := htodo name List.mem_cons_self
    refine ih (fun x hx => ?_) fun x hx => ?_
    · rcases List.mem_append.mp hx with hx | hx
      · exact hP name x (imports_of_mem_importsOf hx) hname
      · exact htodo x (List.mem_cons_of_mem _ hx)
    · rcases List.mem_cons.mp hx with rfl | hx
      · exact hname
      · exact hseen x hx

/-- The names reached hold the entry and are closed under imports. -/
lemma reached_closed (entry : String) (nodes : List Node) : entry ∈ reached entry nodes ∧
    ∀ x ∈ reached entry nodes, ∀ y ∈ importsOf nodes x, y ∈ reached entry nodes := by
  have hall : unseenImports nodes [] = total (·.imports.length) nodes := by
    simp [unseenImports]
  have hfuel : [entry].length + unseenImports nodes [] ≤ total (·.imports.length) nodes + 1 := by
    rw [hall, List.length_singleton]
    omega
  obtain ⟨hin, hclosed⟩ := reach_closed hfuel (by simp)
  exact ⟨hin entry (.inl List.mem_cons_self), hclosed⟩

/-- Where no two nodes share a name, each is found by its own. -/
lemma importsOf_of_mem (hnodup : (nodes.map (·.name)).Nodup) {n : Node} (hn : n ∈ nodes) :
    importsOf nodes n.name = n.imports := by
  have hfind : nodes.find? (·.name == n.name) = some n := by
    rcases hf : nodes.find? (·.name == n.name) with _ | m
    · exact absurd (List.find?_eq_none.mp hf n hn) (by simp)
    · have hname : m.name = n.name := by simpa using List.find?_some hf
      rw [hf, List.inj_on_of_nodup_map hnodup (List.mem_of_find?_eq_some hf) hn hname]
  rw [importsOf, hfind]

/-- **The search finds what the entry leads to**, in graphs with cycles as in others. -/
lemma mem_reached (hnodup : (nodes.map (·.name)).Nodup) {x : String} :
    x ∈ reached entry nodes ↔ Relation.ReflTransGen (Imports nodes) entry x := by
  constructor
  · refine reach_sound (fun y z hyz hy => hy.tail hyz) (fun y hy => ?_) (by simp) x
    rw [List.mem_singleton.mp hy]
  · intro h
    obtain ⟨hentry, hclosed⟩ := reached_closed entry nodes
    induction h with
    | refl => exact hentry
    | @tail y z _ hyz ih =>
      obtain ⟨n, hn, rfl, hz⟩ := hyz
      exact hclosed n.name ih z ((importsOf_of_mem hnodup hn).symm ▸ hz)

/-! ### What is accepted -/

lemma misplaced?_eq_none : misplaced? nodes = none ↔
    ∀ (i : ℕ) (n : Node), nodes[i]? = some n → n.index = i := by
  rw [misplaced?, Option.map_eq_none_iff, List.find?_eq_none]
  constructor
  · intro h i n hn
    simpa using h (n, i) (List.mk_mem_zipIdx_iff_getElem?.mpr hn)
  · rintro h ⟨n, i⟩ hn
    simpa using h i n (List.mk_mem_zipIdx_iff_getElem?.mp hn)

lemma unknown?_eq_none : unknown? nodes = none ↔
    ∀ n ∈ nodes, ∀ x ∈ n.imports, ∃ m ∈ nodes, m.name = x := by
  simp only [unknown?, List.findSome?_eq_none_iff, Option.map_eq_none_iff, List.find?_eq_none,
    Bool.not_eq_true', Bool.not_eq_false, List.any_eq_true, beq_iff_eq]

lemma isConsistent_iff (hnodup : (nodes.map (·.name)).Nodup) :
    IsConsistent entry nodes ↔ IsWellFormed entry nodes := by
  constructor
  · intro h
    exact ⟨misplaced?_eq_none.mp h.ordered, by simpa using h.hasEntry, unknown?_eq_none.mp h.known,
      fun n hn => (mem_reached hnodup).mp (h.allReached n hn)⟩
  · intro h
    exact ⟨misplaced?_eq_none.mpr h.placed, by simpa using h.hasEntry,
      unknown?_eq_none.mpr h.closed, fun n hn => (mem_reached hnodup).mpr (h.connected n hn)⟩

/-! ### Edges -/

section Edges

variable {g : Graph} {x : String} {i j : ℕ}

lemma name_of_placeOf? (h : g.placeOf? x = some i) : ∃ n, g.nodes[i]? = some n ∧ n.name = x := by
  obtain ⟨hi, hname, -⟩ := List.findIdx?_eq_some_iff_getElem.mp h
  exact ⟨g.nodes[i], List.getElem?_eq_getElem hi, by simpa using hname⟩

lemma isSome_placeOf? : (g.placeOf? x).isSome = true ↔ ∃ n ∈ g.nodes, n.name = x := by
  simp [Graph.placeOf?, List.findIdx?_isSome]

lemma mem_edges : (i, j) ∈ g.edges ↔
    ∃ n, g.nodes[i]? = some n ∧ ∃ x ∈ n.imports, g.placeOf? x = some j := by
  simp only [Graph.edges, List.mem_flatMap, List.mem_filterMap, Option.map_eq_some_iff,
    Prod.exists, List.mk_mem_zipIdx_iff_getElem?, Prod.mk.injEq]
  constructor
  · rintro ⟨n, k, hn, x, hx, j', hj, rfl, rfl⟩
    exact ⟨n, hn, x, hx, hj⟩
  · rintro ⟨n, hn, x, hx, hj⟩
    exact ⟨n, i, hn, x, hx, j, hj, rfl, rfl⟩

/-- Where everything imported is there, each import has an edge. -/
lemma length_edges (h : ∀ n ∈ g.nodes, ∀ x ∈ n.imports, ∃ m ∈ g.nodes, m.name = x) :
    g.edges.length = total (·.imports.length) g.nodes := by
  have hone : ∀ n ∈ g.nodes, ∀ k : ℕ,
      (n.imports.filterMap fun x => (g.placeOf? x).map (k, ·)).length = n.imports.length := by
    intro n hn k
    refine List.filterMap_length_eq_length.mpr fun x hx => ?_
    rw [Option.isSome_map]
    exact isSome_placeOf?.mpr (h n hn x hx)
  have hall : ∀ (ns : List Node) (k : ℕ), (∀ n ∈ ns, n ∈ g.nodes) →
      ((ns.zipIdx k).flatMap fun p => p.1.imports.filterMap fun x =>
        (g.placeOf? x).map (p.2, ·)).length = total (·.imports.length) ns := by
    intro ns
    induction ns with
    | nil => exact fun _ _ => rfl
    | cons n ns ih =>
      intro k hns
      rw [List.zipIdx_cons, List.flatMap_cons, List.length_append, total_cons,
        hone n (hns n List.mem_cons_self), ih _ fun m hm => hns m (List.mem_cons_of_mem _ hm)]
  exact hall g.nodes 0 fun _ hn => hn

/-- The edges to the place of a module come from those that import it. -/
lemma mem_predecessors (hx : g.placeOf? x = some j) {n : Node} :
    n ∈ g.predecessors j ↔ n ∈ g.nodes ∧ x ∈ n.imports := by
  simp only [Graph.predecessors, List.mem_filterMap, List.mem_reverse, List.mem_filter,
    beq_iff_eq, Prod.exists, mem_edges]
  constructor
  · rintro ⟨i, _, ⟨⟨m, hm, y, hy, hj⟩, rfl⟩, hn⟩
    obtain rfl : m = n := Option.some.inj (hm.symm.trans hn)
    -- one place has one name
    obtain ⟨k, hk, rfl⟩ := name_of_placeOf? hx
    obtain ⟨k', hk', rfl⟩ := name_of_placeOf? hj
    obtain rfl : k = k' := Option.some.inj (hk.symm.trans hk')
    exact ⟨List.mem_of_getElem? hm, hy⟩
  · rintro ⟨hn, hxn⟩
    obtain ⟨i, hi⟩ := List.mem_iff_getElem?.mp hn
    exact ⟨i, j, ⟨⟨n, hi, x, hxn, hx⟩, rfl⟩, hi⟩

end Edges

/-! ### Importers -/

/-- Nodes stand in the order of discovery, each once. -/
abbrev IsOrdered (ns : List Node) : Prop := ns.Pairwise fun a b => a.index < b.index

instance : Std.Irrefl fun a b : Node => a.index < b.index := ⟨fun a => lt_irrefl a.index⟩

instance : Std.Antisymm fun a b : Node => a.index < b.index :=
  ⟨fun _ _ hab hba => absurd hba (not_lt_of_gt hab)⟩

lemma isOrdered_of_placed (h : ∀ (i : ℕ) (n : Node), nodes[i]? = some n → n.index = i) :
    IsOrdered nodes := by
  refine List.pairwise_iff_getElem.mpr fun i j hi hj hij => ?_
  rw [h i _ (List.getElem?_eq_getElem hi), h j _ (List.getElem?_eq_getElem hj)]
  exact hij

/-- In well-formed graphs the index tells a node. -/
lemma eq_of_index_eq (h : ∀ (i : ℕ) (n : Node), nodes[i]? = some n → n.index = i) {n m : Node}
    (hn : n ∈ nodes) (hm : m ∈ nodes) (heq : n.index = m.index) : n = m := by
  obtain ⟨i, hi⟩ := List.mem_iff_getElem?.mp hn
  obtain ⟨j, hj⟩ := List.mem_iff_getElem?.mp hm
  rw [h i n hi, h j m hj] at heq
  subst heq
  exact Option.some.inj (hi.symm.trans hj)

lemma mem_insertByIndex {n m : Node} {ns : List Node}
    (h : ∀ k ∈ ns, n.index = k.index → n = k) : m ∈ insertByIndex n ns ↔ m = n ∨ m ∈ ns := by
  induction ns with
  | nil => simp [insertByIndex]
  | cons k ns ih =>
    have ih := ih fun l hl => h l (List.mem_cons_of_mem _ hl)
    rw [insertByIndex]
    split_ifs with heq hlt
    · rw [h k List.mem_cons_self heq]
      simp
    · simp
    · simp only [List.mem_cons, ih]
      tauto

lemma isOrdered_insertByIndex {n : Node} {ns : List Node}
    (h : ∀ k ∈ ns, n.index = k.index → n = k) (hns : IsOrdered ns) :
    IsOrdered (insertByIndex n ns) := by
  induction ns with
  | nil => simp [insertByIndex]
  | cons k ns ih =>
    obtain ⟨hk, hrest⟩ := List.pairwise_cons.mp hns
    have h' : ∀ l ∈ ns, n.index = l.index → n = l := fun l hl => h l (List.mem_cons_of_mem _ hl)
    rw [insertByIndex]
    split_ifs with heq hlt
    · exact hns
    · refine List.pairwise_cons.mpr ⟨fun l hl => ?_, hns⟩
      rcases List.mem_cons.mp hl with rfl | hl
      · exact hlt
      · exact hlt.trans (hk l hl)
    · refine List.pairwise_cons.mpr ⟨fun l hl => ?_, ih h' hrest⟩
      rcases (mem_insertByIndex h').mp hl with rfl | hl
      · omega
      · exact hk l hl

/-- Nodes of one list that are put in order one by one. -/
lemma foldl_insertByIndex (h : ∀ (i : ℕ) (n : Node), nodes[i]? = some n → n.index = i)
    {ns ms : List Node} (hns : ∀ n ∈ ns, n ∈ nodes) (hms : ∀ m ∈ ms, m ∈ nodes)
    (hordered : IsOrdered ms) :
    IsOrdered (ns.foldl (fun ms n => insertByIndex n ms) ms) ∧
      ∀ n, n ∈ ns.foldl (fun ms n => insertByIndex n ms) ms ↔ n ∈ ns ∨ n ∈ ms := by
  induction ns generalizing ms with
  | nil => exact ⟨hordered, fun n => by simp⟩
  | cons k ns ih =>
    have hk : k ∈ nodes := hns k List.mem_cons_self
    have hsame : ∀ m ∈ ms, k.index = m.index → k = m := fun m hm =>
      eq_of_index_eq h hk (hms m hm)
    have hmem : ∀ n, n ∈ insertByIndex k ms ↔ n = k ∨ n ∈ ms := fun n => mem_insertByIndex hsame
    obtain ⟨h1, h2⟩ := ih (fun n hn => hns n (List.mem_cons_of_mem _ hn))
      (fun m hm => ((hmem m).mp hm).elim (fun h => h ▸ hk) (hms m))
      (isOrdered_insertByIndex hsame hordered)
    refine ⟨h1, fun n => ?_⟩
    rw [List.foldl_cons, h2, hmem, List.mem_cons]
    tauto

/-- **Going back along the edges** leads to the modules that import a name, in the order of
discovery. -/
lemma importersOf_eq {g : Graph} (h : IsWellFormed g.entry g.nodes) (x : String) :
    g.importersOf x = (g.nodes.filter fun n => x ∈ n.imports).map (·.name) := by
  unfold Graph.importersOf
  rcases hx : g.placeOf? x with _ | j
  · -- what is not there is not imported
    have hnone : ∀ n ∈ g.nodes, x ∉ n.imports := by
      intro n hn hxn
      have hsome := isSome_placeOf?.mpr (h.closed n hn x hxn)
      rw [hx] at hsome
      cases hsome
    rw [List.filter_eq_nil_iff.mpr (by simpa using hnone)]
    rfl
  · have hin : ∀ n ∈ g.predecessors j, n ∈ g.nodes := fun n hn => ((mem_predecessors hx).mp hn).1
    have hnothing : ∀ n ∈ ([] : List Node), n ∈ g.nodes := by simp
    obtain ⟨hordered, hmem⟩ := foldl_insertByIndex h.placed hin hnothing .nil
    refine congrArg (List.map (·.name)) (hordered.eq_of_mem_iff ?_ fun n => ?_)
    · exact (isOrdered_of_placed h.placed).filter _
    · rw [hmem, mem_predecessors hx]
      simp

/-- **What makes a graph.** Nodes with different names are accepted exactly if they are in their
places, hold the entry and all that is imported, and are all reached from the entry. Their graph
lists them as they were given, counts one edge for each import, and tells for each name which
modules import it: in the order of discovery, each once. -/
theorem ofNodes_exact (entry : String) {nodes : List Node}
    (hnodup : (nodes.map (·.name)).Nodup) :
    ((∃ g, ofNodes entry nodes = .ok g) ↔ IsWellFormed entry nodes) ∧
      ∀ g, ofNodes entry nodes = .ok g → g.entry = entry ∧ g.nodes = nodes ∧
        g.edgeCount = total (·.imports.length) nodes ∧
        ∀ x, g.importersOf x = (nodes.filter fun n => x ∈ n.imports).map (·.name) ∧
          (g.importersOf x).Nodup ∧ IsOrdered (nodes.filter fun n => x ∈ n.imports) := by
  constructor
  · rw [← isConsistent_iff hnodup]
    constructor
    · rintro ⟨g, hg⟩
      exact (ofNodes_eq_ok.mp hg).2
    · exact fun h => ⟨_, ofNodes_eq_ok.mpr ⟨rfl, h⟩⟩
  · intro g hg
    obtain ⟨rfl, hconsistent⟩ := ofNodes_eq_ok.mp hg
    have h : IsWellFormed entry nodes := (isConsistent_iff hnodup).mp hconsistent
    refine ⟨rfl, rfl, length_edges h.closed, fun x => ?_⟩
    have himporters := importersOf_eq (g := ⟨entry, nodes⟩) h x
    refine ⟨himporters, ?_, (isOrdered_of_placed h.placed).filter _⟩
    rw [himporters]
    exact hnodup.sublist (List.filter_sublist.map _)

/-- A node about which nothing but its imports is told. -/
def plainNode (name : String) (imports : List String) (index : ℕ) : Node where
  name := name
  path := ⟨name⟩
  digest := ""
  source := []
  isPackage := false
  origin := .project
  imports := imports
  excluded := []
  index := index

/-- An entry that leads to two modules which import each other. -/
def cyclicNodes : List Node :=
  [plainNode "main" ["a"] 0, plainNode "a" ["b"] 1, plainNode "b" ["a"] 2]

theorem ofNodes_exact_cyclicNodes : (cyclicNodes.map (·.name)).Nodup ∧
    IsWellFormed "main" cyclicNodes ∧ ∃ g, ofNodes "main" cyclicNodes = .ok g ∧
      g.edgeCount = 3 ∧ g.importersOf "a" = ["main", "b"] ∧ g.importersOf "main" = [] := by
  have hnodup : (cyclicNodes.map (·.name)).Nodup := by decide
  have hg : ofNodes "main" cyclicNodes = .ok ⟨"main", cyclicNodes⟩ := by decide +kernel
  obtain ⟨hiff, hgraph⟩ := ofNodes_exact "main" hnodup
  obtain ⟨-, -, hcount, himporters⟩ := hgraph _ hg
  refine ⟨hnodup, hiff.mp ⟨_, hg⟩, _, hg, hcount, ?_, ?_⟩
  · rw [(himporters "a").1]
    decide
  · rw [(himporters "main").1]
    decide

end ContractBuild.Graph

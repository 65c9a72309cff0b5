import Mathlib
import ContractBuild.Proofs.Graph.Closure
import ContractBuild.Proofs.Graph.Discovery

/-!
The order of discovery is breadth-first. A module stands before another if it is met by an earlier
module, or at an earlier place in the same one; so the ways from the entry never get shorter, and
what the modules say alone fixes their order.
-/

namespace ContractBuild.Graph

open ContractBuild.Disk

/-- Where a name is met: `i` is the smallest index of a module that imports it, and `p` the first
place of the name among what that module offers. -/
structure IsMetAt (g : Graph) (x : String) (i p : ℕ) : Prop where
  importer : IsLeast {k | ∃ m ∈ g.nodes, m.index = k ∧ x ∈ m.imports} i
  place : ∃ m ∈ g.nodes, m.index = i ∧ IsLeast {k | m.offers[k]? = some x} p

/-- The modules of a graph are listed as a breadth-first search meets them. -/
structure IsBreadthFirst (g : Graph) : Prop where
  placed : ∀ (i : ℕ) (n : Node), g.nodes[i]? = some n → n.index = i
  nodup : g.names.Nodup
  entry : ∃ n, g.nodes[0]? = some n ∧ n.name = g.entry
  readable : ∀ n ∈ g.nodes, ∃ cs, candidatesIn n.located n.source = .ok cs
  imports : ∀ n ∈ g.nodes, ∀ x ∈ g.names, x ≠ g.entry →
    (x ∈ n.imports ↔ x ∈ n.offers ∧ x ≠ n.name)
  met : ∀ n ∈ g.nodes, n.name ≠ g.entry → ∃ i p, i < n.index ∧ IsMetAt g n.name i p
  order : ∀ n₁ ∈ g.nodes, ∀ n₂ ∈ g.nodes, n₁ ≠ n₂ → n₁.name ≠ g.entry → n₂.name ≠ g.entry →
    ∀ i₁ p₁ i₂ p₂, IsMetAt g n₁.name i₁ p₁ → IsMetAt g n₂.name i₂ p₂ →
      (n₁.index < n₂.index ↔ i₁ < i₂ ∨ i₁ = i₂ ∧ p₁ < p₂)

/-- The entry leads to a name by so many imports, one after the other. -/
inductive LeadsTo (g : Graph) : ℕ → String → Prop where
  | entry : LeadsTo g 0 g.entry
  | step {k : ℕ} {x y : String} (h : LeadsTo g k x) (hxy : Imports g.nodes x y) :
      LeadsTo g (k + 1) y

/-- The least number of imports by which the entry leads to a name. -/
def IsDistance (g : Graph) (x : String) (d : ℕ) : Prop := IsLeast {k | LeadsTo g k x} d

/-- What a module says: all that its candidates depend on. -/
def Node.content (n : Node) : String × Bool × Bytes := (n.name, n.isPackage, n.source)

/-! ### Graphs in breadth-first order -/

section Graphs

variable {g g' : Graph} {n m : Node} {x : String} {i j p q k : ℕ}

lemma IsBreadthFirst.getElem?_index (h : IsBreadthFirst g) (hn : n ∈ g.nodes) :
    g.nodes[n.index]? = some n := by
  obtain ⟨i, hi⟩ := List.mem_iff_getElem?.mp hn
  rwa [h.placed i n hi]

lemma IsBreadthFirst.eq_of_index (h : IsBreadthFirst g) (hn : n ∈ g.nodes) (hm : m ∈ g.nodes)
    (heq : n.index = m.index) : n = m :=
  eq_of_index_eq h.placed hn hm heq

lemma IsBreadthFirst.eq_of_name (h : IsBreadthFirst g) (hn : n ∈ g.nodes) (hm : m ∈ g.nodes)
    (heq : n.name = m.name) : n = m :=
  List.inj_on_of_nodup_map h.nodup hn hm heq

/-- Only the entry stands at the front. -/
lemma IsBreadthFirst.index_eq_zero (h : IsBreadthFirst g) (hn : n ∈ g.nodes) :
    n.index = 0 ↔ n.name = g.entry := by
  obtain ⟨e, he, hentry⟩ := h.entry
  have hmem : e ∈ g.nodes := List.mem_of_getElem? he
  have hzero : e.index = 0 := h.placed 0 e he
  constructor
  · intro hn0
    rw [h.eq_of_index hn hmem (hn0.trans hzero.symm), hentry]
  · intro hname
    rw [h.eq_of_name hn hmem (hname.trans hentry.symm), hzero]

/-- A module that stands before another is not met later. -/
lemma IsBreadthFirst.importer_le (h : IsBreadthFirst g) (hn : n ∈ g.nodes) (hm : m ∈ g.nodes)
    (hle : n.index ≤ m.index) (hne : n.name ≠ g.entry) (hn' : IsMetAt g n.name i p)
    (hm' : IsMetAt g m.name j q) : i ≤ j := by
  by_cases heq : n = m
  · subst heq
    exact (hn'.importer.unique hm'.importer).le
  · have hlt : n.index < m.index :=
      lt_of_le_of_ne hle fun hi => heq (h.eq_of_index hn hm hi)
    have hme : m.name ≠ g.entry := by
      rw [Ne, ← h.index_eq_zero hm]
      omega
    rcases (h.order n hn m hm heq hne hme i p j q hn' hm').mp hlt with hij | ⟨hij, -⟩
    · exact hij.le
    · exact hij.le

/-- What stands before a module that the entry leads to is not farther away. -/
lemma IsBreadthFirst.leadsTo_of_le (h : IsBreadthFirst g) (hx : LeadsTo g k x) :
    ∀ m ∈ g.nodes, m.name = x → ∀ n ∈ g.nodes, n.index ≤ m.index →
      ∃ k' ≤ k, LeadsTo g k' n.name := by
  induction hx with
  | entry =>
    intro m hm hname n hn hle
    have hm0 : m.index = 0 := (h.index_eq_zero hm).mpr hname
    have hn0 : n.index = 0 := by omega
    exact ⟨0, le_rfl, (h.index_eq_zero hn).mp hn0 ▸ .entry⟩
  | @step k x y _ hxy ih =>
    intro m hm hname n hn hle
    by_cases hne : n.name = g.entry
    · exact ⟨0, Nat.zero_le _, hne ▸ .entry⟩
    obtain ⟨c, hc, hcx, hy⟩ := hxy
    have hme : m.name ≠ g.entry := by
      intro hme
      have hm0 := (h.index_eq_zero hm).mpr hme
      exact hne ((h.index_eq_zero hn).mp (by omega))
    obtain ⟨i, p, -, hni⟩ := h.met n hn hne
    obtain ⟨j, q, -, hmj⟩ := h.met m hm hme
    -- the first module that imports `n` does not stand behind `c`, which imports `m`
    obtain ⟨f, hf, hfi, hfn⟩ := hni.importer.1
    have hij : i ≤ j := h.importer_le hn hm hle hne hni hmj
    have hjc : j ≤ c.index := hmj.importer.2 ⟨c, hc, rfl, hname ▸ hy⟩
    obtain ⟨k', hk', hlead⟩ := ih c hc hcx f hf (by omega)
    exact ⟨k' + 1, by omega, hlead.step ⟨f, hf, rfl, hfn⟩⟩

/-- The entry leads to every module. -/
lemma IsBreadthFirst.exists_leadsTo (h : IsBreadthFirst g) (hn : n ∈ g.nodes) :
    ∃ k, LeadsTo g k n.name := by
  induction hi : n.index using Nat.strong_induction_on generalizing n with
  | _ i ih =>
    by_cases hne : n.name = g.entry
    · exact ⟨0, hne ▸ .entry⟩
    obtain ⟨j, p, hlt, hmet⟩ := h.met n hn hne
    obtain ⟨m, hm, rfl, hmn⟩ := hmet.importer.1
    obtain ⟨k, hk⟩ := ih m.index (hi ▸ hlt) hm rfl
    exact ⟨k + 1, hk.step ⟨m, hm, rfl, hmn⟩⟩

lemma IsBreadthFirst.exists_isDistance (h : IsBreadthFirst g) (hn : n ∈ g.nodes) :
    ∃ d, IsDistance g n.name d :=
  ⟨_, isLeast_csInf (h.exists_leadsTo hn)⟩

/-- **Distances do not decrease** along the order. -/
lemma IsBreadthFirst.distance_le (h : IsBreadthFirst g) (hn : n ∈ g.nodes) (hm : m ∈ g.nodes)
    (hle : n.index ≤ m.index) {d e : ℕ} (hd : IsDistance g n.name d)
    (he : IsDistance g m.name e) : d ≤ e := by
  obtain ⟨k, hk, hlead⟩ := h.leadsTo_of_le he.1 m hm rfl n hn hle
  exact (hd.2 hlead).trans hk

/-! ### Equal contents -/

lemma Node.offers_congr {a b : Node} (h : a.content = b.content)
    (ha : ∃ cs, candidatesIn a.located a.source = .ok cs) : a.offers = b.offers := by
  obtain ⟨hname, hpackage, hsource⟩ : a.name = b.name ∧ a.isPackage = b.isPackage ∧
      a.source = b.source := by simpa [Node.content] using h
  obtain ⟨cs, hcs⟩ := ha
  have hcs' : candidatesIn b.located b.source = .ok cs :=
    candidatesIn_congr (l := a.located) hname hpackage (hsource ▸ hcs)
  rw [Node.offers_eq hcs, Node.offers_eq hcs']

/-- Two graphs have the same modules, as far as what they say is concerned. -/
def SaysTheSame (g g' : Graph) : Prop :=
  g.entry = g'.entry ∧ ∀ c, c ∈ g.nodes.map Node.content ↔ c ∈ g'.nodes.map Node.content

lemma SaysTheSame.symm (h : SaysTheSame g g') : SaysTheSame g' g :=
  ⟨h.1.symm, fun c => (h.2 c).symm⟩

lemma SaysTheSame.mem_names (h : SaysTheSame g g') (hx : x ∈ g.names) : x ∈ g'.names := by
  obtain ⟨n, hn, rfl⟩ := List.mem_map.mp hx
  obtain ⟨n', hn', hc⟩ := List.mem_map.mp ((h.2 n.content).mp (List.mem_map_of_mem hn))
  exact List.mem_map.mpr ⟨n', hn', congrArg Prod.fst hc⟩

/-- Modules of one name say the same. -/
lemma SaysTheSame.content_eq (h : SaysTheSame g g') (hg' : IsBreadthFirst g') {n n' : Node}
    (hn : n ∈ g.nodes) (hn' : n' ∈ g'.nodes) (hname : n.name = n'.name) :
    n.content = n'.content := by
  obtain ⟨m, hm, hc⟩ := List.mem_map.mp ((h.2 n.content).mp (List.mem_map_of_mem hn))
  have hmn : m.name = n.name := congrArg Prod.fst hc
  rw [← hc, hg'.eq_of_name hm hn' (hmn.trans hname)]

/-- Modules of one name import the same of what both graphs hold. -/
lemma SaysTheSame.imports_iff (h : SaysTheSame g g') (hg : IsBreadthFirst g)
    (hg' : IsBreadthFirst g') {n n' : Node} (hn : n ∈ g.nodes) (hn' : n' ∈ g'.nodes)
    (hname : n.name = n'.name) (hx : x ∈ g.names) (hne : x ≠ g.entry) :
    x ∈ n.imports ↔ x ∈ n'.imports := by
  rw [hg.imports n hn x hx hne, hg'.imports n' hn' x (h.mem_names hx) (h.1 ▸ hne), ← hname,
    Node.offers_congr (h.content_eq hg' hn hn' hname) (hg.readable n hn)]

/-- At a place where both graphs have one name, they have modules of that name. -/
lemma IsBreadthFirst.exists_counterpart (hg : IsBreadthFirst g) (hg' : IsBreadthFirst g')
    (hn : n ∈ g.nodes) (hagree : g.names[n.index]? = g'.names[n.index]?) :
    ∃ n' ∈ g'.nodes, n'.index = n.index ∧ n.name = n'.name := by
  rw [Graph.names, Graph.names, List.getElem?_map, List.getElem?_map, hg.getElem?_index hn,
    Option.map_some] at hagree
  obtain ⟨n', hn', hname⟩ := Option.map_eq_some_iff.mp hagree.symm
  exact ⟨n', List.mem_of_getElem? hn', hg'.placed _ n' hn', hname.symm⟩

/-- Where both graphs agree up to the module that meets a name, it is met at the same place. -/
lemma SaysTheSame.isMetAt (h : SaysTheSame g g') (hg : IsBreadthFirst g)
    (hg' : IsBreadthFirst g') (hagree : ∀ j < k, g.names[j]? = g'.names[j]?) (hx : x ∈ g.names)
    (hne : x ≠ g.entry) (hmet : IsMetAt g x i p) (hi : i < k) : IsMetAt g' x i p := by
  obtain ⟨m, hm, rfl, hplace⟩ := hmet.place
  obtain ⟨f, hf, hfm, hfx⟩ := hmet.importer.1
  obtain rfl : f = m := hg.eq_of_index hf hm hfm
  obtain ⟨m', hm', hindex, hname⟩ := hg.exists_counterpart hg' hm (hagree _ hi)
  refine ⟨⟨⟨m', hm', hindex, (h.imports_iff hg hg' hm hm' hname hx hne).mp hfx⟩, ?_⟩,
    m', hm', hindex, ?_⟩
  · -- a module of the other graph that imports it earlier would have a counterpart
    rintro j ⟨n', hn', rfl, hnx⟩
    by_contra hlt
    obtain ⟨n, hn, hnn', hname'⟩ :=
      hg'.exists_counterpart hg hn' (hagree _ (by omega : n'.index < k)).symm
    have hnx' := (h.imports_iff hg hg' hn hn' hname'.symm hx hne).mpr hnx
    exact hlt (hmet.importer.2 ⟨n, hn, hnn', hnx'⟩)
  · rwa [← Node.offers_congr (h.content_eq hg' hm hm' hname) (hg.readable f hm)]

/-- A module that is not yet at its place, where another one stands, stands behind it. -/
lemma IsBreadthFirst.lt_index (hg : IsBreadthFirst g) (hg' : IsBreadthFirst g')
    (hagree : ∀ j < k, g.names[j]? = g'.names[j]?) (hn : n ∈ g.nodes) (hk : n.index = k)
    (hm : m ∈ g'.nodes) (hname : m.name = n.name) (hne : m.index ≠ k) : k < m.index := by
  by_contra hle
  obtain ⟨c, hc, hcm, hcn⟩ :=
    hg'.exists_counterpart hg hm (hagree m.index (by omega)).symm
  obtain rfl : c = n := hg.eq_of_name hc hn (hcn.symm.trans hname)
  omega

/-- If two graphs agree up to a place, they agree there: otherwise each of the two modules would
stand further behind in the other graph, although both are met at the same places in both. -/
lemma SaysTheSame.name_eq (h : SaysTheSame g g') (hg : IsBreadthFirst g) (hg' : IsBreadthFirst g')
    (hagree : ∀ j < k, g.names[j]? = g'.names[j]?) {m' : Node} (hn : n ∈ g.nodes)
    (hnk : n.index = k) (hm' : m' ∈ g'.nodes) (hmk : m'.index = k) : n.name = m'.name := by
  by_contra hdiffer
  have hagree' : ∀ j < k, g'.names[j]? = g.names[j]? := fun j hj => (hagree j hj).symm
  obtain ⟨n', hn', hnn'⟩ := List.mem_map.mp (h.mem_names (List.mem_map_of_mem hn))
  obtain ⟨m, hm, hmm'⟩ := List.mem_map.mp (h.symm.mem_names (List.mem_map_of_mem hm'))
  have hkn' : k < n'.index := hg.lt_index hg' hagree hn hnk hn' hnn' fun hi =>
    hdiffer (hnn' ▸ congrArg Node.name (hg'.eq_of_index hn' hm' (hi.trans hmk.symm)))
  have hkm : k < m.index := hg'.lt_index hg hagree' hm' hmk hm hmm' fun hi =>
    hdiffer (hmm' ▸ (congrArg Node.name (hg.eq_of_index hm hn (hi.trans hnk.symm))).symm)
  -- what stands behind something is not the entry
  have hme : m.name ≠ g.entry := fun he => by
    have := (hg.index_eq_zero hm).mpr he
    omega
  have hne' : n'.name ≠ g'.entry := fun he => by
    have := (hg'.index_eq_zero hn').mpr he
    omega
  have hne : n.name ≠ g.entry := by rwa [h.1, ← hnn']
  have hme' : m'.name ≠ g'.entry := by rwa [← h.1, ← hmm']
  obtain ⟨i, p, hi, hmet⟩ := hg.met n hn hne
  obtain ⟨j, q, hj, hmet'⟩ := hg'.met m' hm' hme'
  have hother : IsMetAt g' n'.name i p :=
    hnn' ▸ h.isMetAt hg hg' hagree (List.mem_map_of_mem hn) hne hmet (hnk ▸ hi)
  have hother' : IsMetAt g m.name j q :=
    hmm' ▸ h.symm.isMetAt hg' hg hagree' (List.mem_map_of_mem hm') hme' hmet' (hmk ▸ hj)
  have h1 : i < j ∨ i = j ∧ p < q :=
    (hg.order n hn m hm (by rintro rfl; omega) hne hme i p j q hmet hother').mp (by omega)
  have h2 : j < i ∨ j = i ∧ q < p :=
    (hg'.order m' hm' n' hn' (by rintro rfl; omega) hme' hne' j q i p hmet' hother).mp (by omega)
  omega

/-- **The contents fix the order.** -/
lemma SaysTheSame.names_eq (h : SaysTheSame g g') (hg : IsBreadthFirst g)
    (hg' : IsBreadthFirst g') : g.names = g'.names := by
  have hlen : g.names.length = g'.names.length :=
    ((List.perm_ext_iff_of_nodup hg.nodup hg'.nodup).mpr
      fun x => ⟨h.mem_names, h.symm.mem_names⟩).length_eq
  refine List.ext_getElem? fun k => ?_
  induction k using Nat.strong_induction_on with
  | _ k ih =>
    rw [Graph.names, Graph.names, List.length_map, List.length_map] at hlen
    by_cases hk : k < g.nodes.length
    · have hk' : k < g'.nodes.length := hlen ▸ hk
      have hn := List.getElem?_eq_getElem hk
      have hm' := List.getElem?_eq_getElem hk'
      rw [Graph.names, Graph.names, List.getElem?_map, List.getElem?_map, hn, hm']
      exact congrArg some (h.name_eq hg hg' ih (List.getElem_mem hk) (hg.placed k _ hn)
        (List.getElem_mem hk') (hg'.placed k _ hm'))
    · rw [List.getElem?_eq_none (by simpa [Graph.names] using hk),
        List.getElem?_eq_none (by simpa [Graph.names, ← hlen] using hk)]

end Graphs

/-! ### Searches that have ended -/

section Ended

variable {scope : Scope} {t : Tree} {first : Located} {s : Search}

/-- What lies in an initial part stands before what does not. -/
lemma lt_of_prefix {xs ys : List String} {x y : String} {i j : ℕ} (hnodup : ys.Nodup)
    (hinitial : xs <+: ys) (hi : ys[i]? = some x) (hj : ys[j]? = some y) (hx : x ∈ xs)
    (hy : y ∉ xs) : i < j := by
  obtain ⟨zs, rfl⟩ := hinitial
  obtain ⟨k, hk⟩ := List.mem_iff_getElem?.mp hx
  have hlt : k < xs.length := (List.getElem?_eq_some_iff.mp hk).1
  have hki : k = i := (List.getElem?_inj (by rw [List.length_append]; omega) hnodup).mp
    (by rw [List.getElem?_append_left hlt, hk, hi])
  by_contra hle
  rw [List.getElem?_append_left (by omega)] at hj
  exact hy (List.mem_of_getElem? hj)

lemma IsUnderway.names_eq (h : IsUnderway scope t first s) (hq : s.queue = []) :
    s.nodes.map (·.name) = (first.name :: s.nodes.flatMap fun n =>
      n.offers.filter (scope.admits t first n.name)).eraseDups := by
  have horder := h.holds.order
  rw [hq, List.append_nil, List.map_nil, List.append_nil] at horder
  rw [← horder, h.discovered_eq]

/-- What has been written down when a module has gone through its offers up to a place: the entry,
what the modules before it import, and what it imports itself of these. -/
def Scope.written (scope : Scope) (t : Tree) (first : Located) (before : List Node) (f : Node)
    (p : ℕ) : List String :=
  (first.name :: (before.flatMap (fun n => n.offers.filter (scope.admits t first n.name)) ++
    (f.offers.take (p + 1)).filter (scope.admits t first f.name))).eraseDups

section Written

variable {f : Node} {before after : List Node} {p : ℕ}

lemma IsUnderway.written_prefix (h : IsUnderway scope t first s) (hq : s.queue = [])
    (hsplit : s.nodes = before ++ f :: after) :
    scope.written t first before f p <+: s.nodes.map (·.name) := by
  rw [h.names_eq hq, Scope.written]
  refine eraseDups_prefix (List.cons_prefix_cons.mpr ⟨rfl, ?_⟩)
  rw [hsplit, List.flatMap_append, List.flatMap_cons]
  exact (List.prefix_append_right_inj _).mpr
    (((List.take_prefix _ _).filter _).trans (List.prefix_append _ _))

lemma mem_written {x : String} (hoffer : f.offers[p]? = some x)
    (hadmitted : scope.admits t first f.name x = true) : x ∈ scope.written t first before f p := by
  rw [Scope.written, List.mem_eraseDups]
  refine List.mem_cons_of_mem _ (List.mem_append_right _ (List.mem_filter.mpr ⟨?_, hadmitted⟩))
  refine List.mem_of_getElem? (i := p) ?_
  rw [List.getElem?_take_of_lt (Nat.lt_succ_self p)]
  exact hoffer

/-- What is met later has not been written down yet. -/
lemma IsUnderway.not_mem_written (h : IsUnderway scope t first s)
    (hfrom : ∀ n ∈ s.nodes, n.IsFrom t) {y : String} {j q : ℕ} (hf : f ∈ s.nodes)
    (hsplit : s.nodes = before ++ f :: after) (hy : IsMetAt ⟨first.name, s.nodes⟩ y j q)
    (hye : y ≠ first.name) (hlt : f.index < j ∨ f.index = j ∧ p < q) :
    y ∉ scope.written t first before f p := by
  rw [Scope.written, List.mem_eraseDups, List.mem_cons, List.mem_append, List.mem_flatMap]
  rintro (hy' | ⟨n, hn, hy'⟩ | hy')
  · exact hye hy'
  · -- the modules before `f` do not import it
    have hmem : n ∈ s.nodes := hsplit ▸ List.mem_append_left _ hn
    have hnf : n.index < f.index := by
      have hordered : IsOrdered s.nodes := isOrdered_of_placed h.placed
      rw [hsplit] at hordered
      exact (List.pairwise_append.mp hordered).2.2 n hn f List.mem_cons_self
    have hjn := hy.importer.2
      ⟨n, hmem, rfl, (h.mem_imports hfrom hmem).mpr (List.mem_filter.mp hy')⟩
    omega
  · -- and `f` does not offer it up to that place
    obtain ⟨htake, hadmitted⟩ := List.mem_filter.mp hy'
    obtain ⟨k, hk⟩ := List.mem_iff_getElem?.mp htake
    have hkp : k < p + 1 := by
      have := (List.getElem?_eq_some_iff.mp hk).1
      rw [List.length_take] at this
      omega
    rw [List.getElem?_take_of_lt hkp] at hk
    have hjf := hy.importer.2
      ⟨f, hf, rfl, (h.mem_imports hfrom hf).mpr ⟨List.mem_of_getElem? hk, hadmitted⟩⟩
    obtain ⟨m, hm, hmj, hleast⟩ := hy.place
    obtain rfl : m = f := eq_of_index_eq h.placed hm hf (by omega)
    have := hleast.2 hk
    omega

end Written

/-- What is met earlier is in some initial part of the names, without what is met later. -/
lemma IsUnderway.exists_prefix (h : IsUnderway scope t first s) (hq : s.queue = [])
    (hfrom : ∀ n ∈ s.nodes, n.IsFrom t) {x y : String} {i p j q : ℕ}
    (hx : IsMetAt ⟨first.name, s.nodes⟩ x i p) (hy : IsMetAt ⟨first.name, s.nodes⟩ y j q)
    (hye : y ≠ first.name) (hlt : i < j ∨ i = j ∧ p < q) :
    ∃ xs, xs <+: s.nodes.map (·.name) ∧ x ∈ xs ∧ y ∉ xs := by
  obtain ⟨m, hm, hmi, hplace⟩ := hx.place
  obtain ⟨f, hf, rfl, hfx⟩ := hx.importer.1
  obtain rfl : f = m := eq_of_index_eq h.placed hf hm hmi.symm
  obtain ⟨before, after, hsplit⟩ := List.append_of_mem hm
  exact ⟨scope.written t first before f p, h.written_prefix hq hsplit,
    mem_written hplace.1 ((h.mem_imports hfrom hm).mp hfx).2,
    h.not_mem_written hfrom hm hsplit hy hye hlt⟩

section Places

variable {a b n : Node} {i p j q : ℕ}

/-- Every module but the entry is met, and by one before it. -/
lemma IsUnderway.exists_isMetAt (h : IsUnderway scope t first s)
    (hfrom : ∀ n ∈ s.nodes, n.IsFrom t) (hn : n ∈ s.nodes) (hne : n.name ≠ first.name) :
    ∃ i p, i < n.index ∧ IsMetAt ⟨first.name, s.nodes⟩ n.name i p := by
  obtain ⟨m, hm, hlt, himports⟩ := h.imported_before n hn hne
  have hleast := isLeast_csInf
    (s := {k | ∃ m ∈ s.nodes, m.index = k ∧ n.name ∈ m.imports}) ⟨_, m, hm, rfl, himports⟩
  obtain ⟨f, hf, hfi, hfn⟩ := hleast.1
  obtain ⟨p, hp⟩ := List.mem_iff_getElem?.mp ((h.mem_imports hfrom hf).mp hfn).1
  exact ⟨_, _, (hleast.2 ⟨m, hm, rfl, himports⟩).trans_lt hlt, hleast, f, hf, hfi,
    isLeast_csInf (s := {k | f.offers[k]? = some n.name}) ⟨p, hp⟩⟩

lemma IsUnderway.nodup_names (h : IsUnderway scope t first s) (hq : s.queue = []) :
    (s.nodes.map (·.name)).Nodup := by
  have := h.isOrderly.nodup
  rwa [hq, List.map_nil, List.append_nil] at this

lemma IsUnderway.getElem?_names (h : IsUnderway scope t first s) (hn : n ∈ s.nodes) :
    (s.nodes.map (·.name))[n.index]? = some n.name := by
  obtain ⟨i, hi⟩ := List.mem_iff_getElem?.mp hn
  rw [h.placed i n hi, List.getElem?_map, hi]
  rfl

/-- What is met earlier stands before what is met later. -/
lemma IsUnderway.index_lt (h : IsUnderway scope t first s) (hq : s.queue = [])
    (hfrom : ∀ n ∈ s.nodes, n.IsFrom t) (ha : a ∈ s.nodes) (hb : b ∈ s.nodes)
    (hbe : b.name ≠ first.name) (hmeta : IsMetAt ⟨first.name, s.nodes⟩ a.name i p)
    (hmetb : IsMetAt ⟨first.name, s.nodes⟩ b.name j q) (hlt : i < j ∨ i = j ∧ p < q) :
    a.index < b.index := by
  obtain ⟨xs, hinitial, hin, hout⟩ := h.exists_prefix hq hfrom hmeta hmetb hbe hlt
  exact lt_of_prefix (h.nodup_names hq) hinitial (h.getElem?_names ha) (h.getElem?_names hb) hin
    hout

/-- Two modules are not met at one place. -/
lemma IsUnderway.eq_of_isMetAt (h : IsUnderway scope t first s) (hq : s.queue = [])
    (ha : a ∈ s.nodes) (hb : b ∈ s.nodes) (hmeta : IsMetAt ⟨first.name, s.nodes⟩ a.name i p)
    (hmetb : IsMetAt ⟨first.name, s.nodes⟩ b.name i p) : a = b := by
  obtain ⟨m, hm, hmi, hma⟩ := hmeta.place
  obtain ⟨m', hm', hmi', hmb⟩ := hmetb.place
  obtain rfl := eq_of_index_eq h.placed hm hm' (hmi.trans hmi'.symm)
  have hname : a.name = b.name := Option.some.inj (hma.1.symm.trans hmb.1)
  exact List.inj_on_of_nodup_map (h.nodup_names hq) ha hb hname

end Places

/-- **A search that has ended** leaves its modules in breadth-first order. -/
lemma IsUnderway.isBreadthFirst (h : IsUnderway scope t first s) (hq : s.queue = [])
    (hfrom : ∀ n ∈ s.nodes, n.IsFrom t) : IsBreadthFirst ⟨first.name, s.nodes⟩ := by
  have hdiscovered : ∀ x, x ∈ s.discovered ↔ x ∈ s.nodes.map (·.name) := by
    intro x
    rw [h.isOrderly.discovered, hq]
    simp
  refine ⟨h.placed, h.nodup_names hq, ?_, h.exists_candidates, ?_,
    fun n hn hne => h.exists_isMetAt hfrom hn hne, ?_⟩
  · have hfirst : (s.nodes.map (·.name))[0]? = some first.name := by
      rw [h.names_eq hq, List.eraseDups_cons]
      rfl
    rw [List.getElem?_map] at hfirst
    exact Option.map_eq_some_iff.mp hfirst
  · intro n hn x hx hne
    have hmem := (hdiscovered x).mpr hx
    rw [h.mem_imports hfrom hn]
    simp [Scope.admits, h.holds.admitted x hmem hne, h.holds.isSome_module? hmem]
  · intro n₁ hn₁ n₂ hn₂ hne hne₁ hne₂ i₁ p₁ i₂ p₂ hmet₁ hmet₂
    refine ⟨fun hlt => ?_, h.index_lt hq hfrom hn₁ hn₂ hne₂ hmet₁ hmet₂⟩
    by_contra hnot
    have hplaces : ¬ (i₁ = i₂ ∧ p₁ = p₂) := by
      rintro ⟨rfl, rfl⟩
      exact hne (h.eq_of_isMetAt hq hn₁ hn₂ hmet₁ hmet₂)
    have := h.index_lt hq hfrom hn₂ hn₁ hne₁ hmet₂ hmet₁ (by omega)
    omega

end Ended

section Resolve

variable {t : Tree} {fuel : ℕ} {project : Path} {manifest : Manifest} {base : BaseLibrary}
  {res : Resolution}

lemma isBreadthFirst_of_resolveWithin
    (h : resolveWithin (Files.ofTree t) fuel project manifest base = Except.ok res) :
    IsBreadthFirst res.graph := by
  obtain ⟨scope, first, s, -, hs, hgraph⟩ := explore_of_resolveWithin h
  obtain ⟨hunderway, hq⟩ := IsUnderway.start.explore hs
  exact hgraph ▸ hunderway.isBreadthFirst hq (isFrom_of_explore hs)

/-- **Modules are discovered breadth-first.** The entry comes first, and of two other modules that
one comes first which is met by an earlier module, or at an earlier place in the same one. The
distance from the entry never decreases along the order; and any other resolution from an entry of
that name, whose modules say the same, lists them in the same order. -/
theorem resolve_breadth_first
    (h : resolveWithin (Files.ofTree t) fuel project manifest base = Except.ok res) :
    IsBreadthFirst res.graph ∧
      (∀ n ∈ res.graph.nodes, ∃ d, IsDistance res.graph n.name d) ∧
      (∀ n ∈ res.graph.nodes, ∀ m ∈ res.graph.nodes, n.index ≤ m.index → ∀ d e,
        IsDistance res.graph n.name d → IsDistance res.graph m.name e → d ≤ e) ∧
      ∀ t' fuel' project' manifest' base' res',
        resolveWithin (Files.ofTree t') fuel' project' manifest' base' = Except.ok res' →
          SaysTheSame res.graph res'.graph → res'.graph.names = res.graph.names := by
  have hfirst := isBreadthFirst_of_resolveWithin h
  refine ⟨hfirst, fun n hn => hfirst.exists_isDistance hn,
    fun n hn m hm hle d e hd he => hfirst.distance_le hn hm hle hd he, ?_⟩
  intro t' fuel' project' manifest' base' res' h' hsame
  exact (hsame.names_eq hfirst (isBreadthFirst_of_resolveWithin h')).symm

end Resolve

/-- The entry imports a package with a module and then another one; that module imports one more in
front of it, which comes last all the same. -/
def layeredModules : List (String × Bool × Bytes) :=
  [("main", false, Text.Utf8.encode "from pkg import b\nimport a\n"), ("pkg", true, []),
    ("pkg.b", false, Text.Utf8.encode "import c, a\n"), ("a", false, []), ("c", false, [])]

/-- A directory that holds them. -/
def layeredTree (directory : String) : Tree where
  nodes := [([directory], .directory),
    ([directory, "main.py"], .file (Text.Utf8.encode "from pkg import b\nimport a\n") false),
    ([directory, "a.py"], .file [] false), ([directory, "c.py"], .file [] false),
    ([directory, "pkg"], .directory),
    ([directory, "pkg", "__init__.py"], .file [] false),
    ([directory, "pkg", "b.py"], .file (Text.Utf8.encode "import c, a\n") false)]

theorem resolve_breadth_first_layeredTree : ∃ res res',
    resolve (Files.ofTree (layeredTree "p")) ⟨"/p"⟩ cyclicManifest ⟨"base", "1", []⟩ =
      Except.ok res ∧
    resolve (Files.ofTree (layeredTree "q")) ⟨"/q"⟩ cyclicManifest ⟨"other", "2", []⟩ =
      Except.ok res' ∧
    res.graph.nodes.map Node.content = layeredModules ∧ IsBreadthFirst res.graph ∧
    (∀ n ∈ res.graph.nodes, ∃ d, IsDistance res.graph n.name d) ∧
    SaysTheSame res.graph res'.graph ∧ res'.graph.names = res.graph.names := by
  have hp : ((resolve (Files.ofTree (layeredTree "p")) ⟨"/p"⟩ cyclicManifest
      ⟨"base", "1", []⟩).run : Except Fault Resolution).map
        (fun r => (r.graph.entry, r.graph.nodes.map Node.content)) =
      .ok ("main", layeredModules) := by decide +kernel
  have hq : ((resolve (Files.ofTree (layeredTree "q")) ⟨"/q"⟩ cyclicManifest
      ⟨"other", "2", []⟩).run : Except Fault Resolution).map
        (fun r => (r.graph.entry, r.graph.nodes.map Node.content)) =
      .ok ("main", layeredModules) := by decide +kernel
  obtain ⟨res, hres, hseen⟩ := except_map_eq_ok.mp hp
  obtain ⟨res', hres', hseen'⟩ := except_map_eq_ok.mp hq
  obtain ⟨hentry, hcontent⟩ := Prod.mk.inj hseen
  obtain ⟨hentry', hcontent'⟩ := Prod.mk.inj hseen'
  have hsame : SaysTheSame res.graph res'.graph :=
    ⟨hentry.trans hentry'.symm, fun c => by rw [hcontent, hcontent']⟩
  obtain ⟨hfirst, hdistance, -, honly⟩ := resolve_breadth_first hres
  exact ⟨res, res', hres, hres', hcontent, hfirst, hdistance, hsame,
    honly _ _ _ _ _ res' hres' hsame⟩

end ContractBuild.Graph

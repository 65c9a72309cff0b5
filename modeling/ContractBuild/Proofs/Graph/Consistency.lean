import Mathlib
import ContractBuild.Proofs.Graph.Closure
import ContractBuild.Proofs.Graph.Fault
import ContractBuild.Proofs.Graph.WellFormed

/-!
Every search makes a graph. What is looked at when its nodes are put together holds between any two
visits, up to the modules that wait in the queue.
-/

namespace ContractBuild.Graph

open ContractBuild.Disk ContractBuild.Text

/-! ### Between two visits -/

/-- What holds between two visits of a search: each discovered name is that of one module visited or
in the queue, the nodes are in their places, and exactly the names discovered are imported, the
entry apart. -/
structure Search.IsOrderly (entry : String) (s : Search) : Prop where
  nodup : (s.nodes.map (·.name) ++ s.queue.map (·.name)).Nodup
  discovered : ∀ x, x ∈ s.discovered ↔ x ∈ s.nodes.map (·.name) ++ s.queue.map (·.name)
  placed : ∀ (i : ℕ) (n : Node), s.nodes[i]? = some n → n.index = i
  known : ∀ n ∈ s.nodes, ∀ x ∈ n.imports, x ∈ s.discovered
  imported : ∀ x ∈ s.discovered, x ≠ entry → ∃ n ∈ s.nodes, x ∈ n.imports

section Search

variable (scope : Scope) (t : Tree) (first : Located)

/-- The searches that are between two visits, from the start on. -/
inductive IsUnderway : Search → Prop where
  | start : IsUnderway (.start first)
  | visit {s s' : Search} {module : Located} {rest : List Located} (h : IsUnderway s)
      (hq : s.queue = module :: rest)
      (hv : visit (Files.ofTree t) scope module { s with queue := rest } = Except.ok s') :
      IsUnderway s'

variable {scope t first} {module : Located} {s s' : Search}

/-- A search that ends was under way. -/
lemma IsUnderway.explore (h : IsUnderway scope t first s) {fuel : ℕ}
    (he : Graph.explore (Files.ofTree t) scope fuel s = Except.ok s') :
    IsUnderway scope t first s' ∧ s'.queue = [] :=
  explore_keeps (fun _ _ _ _ hq hv hs => hs.visit hq hv) h he

lemma IsUnderway.holds (h : IsUnderway scope t first s) : Holds scope t first [] s := by
  induction h with
  | start => exact holds_start scope t first
  | visit _ hq hv ih => exact ih.visit hq hv

/-- Nothing is discovered but what the module that is being visited imports. -/
lemma Followed.discovered_imported {c : Candidate} {found : Found} {st : Search × Found}
    {known : List String} (h : Followed scope t module c s found st)
    (hs : ∀ x ∈ s.discovered, x ∈ known ∨ x ∈ found.imports) :
    ∀ x ∈ st.1.discovered, x ∈ known ∨ x ∈ st.2.imports := by
  cases h with
  | excluded | itself | absent => exact hs
  | known =>
    exact fun x hx => (hs x hx).imp_right fun h => mem_insertSorted.mpr (.inr h)
  | discovered _ _ _ _ hp =>
    intro x hx
    rw [(checkLocated_frame hp).1] at hx
    rcases List.mem_append.mp hx with hx | hx
    · exact (hs x hx).imp_right fun h => mem_insertSorted.mpr (.inr h)
    · exact .inr (mem_insertSorted.mpr (.inl (List.mem_singleton.mp hx)))

/-- What is imported by nodes is so still when there are more of them. -/
lemma IsUnderway.imported (h : IsUnderway scope t first s) :
    ∀ x ∈ s.discovered, x ≠ first.name → ∃ n ∈ s.nodes, x ∈ n.imports := by
  induction h with
  | start => exact fun x hx hne => absurd (by simpa [Search.start] using hx) hne
  | @visit s s' module rest _ _ hv ih =>
    obtain ⟨bytes, s₁, found, -, ⟨hnodes, hdiscovered⟩, rfl⟩ :=
      visit_preserves (P := fun st => st.1.nodes = s.nodes ∧
        ∀ x ∈ st.1.discovered, x ∈ s.discovered ∨ x ∈ st.2.imports)
        (fun _ _ _ _ hf h => ⟨hf.nodes.trans h.1, hf.discovered_imported h.2⟩)
        hv ⟨rfl, fun x hx => .inl hx⟩
    intro x hx hne
    rcases hdiscovered x hx with hx | hx
    · obtain ⟨n, hn, hxn⟩ := ih x hx hne
      exact ⟨n, List.mem_append_left _ (hnodes ▸ hn), hxn⟩
    · exact ⟨_, List.mem_append_right _ (List.mem_singleton_self _), hx⟩

lemma IsUnderway.placed (h : IsUnderway scope t first s) :
    ∀ (i : ℕ) (n : Node), s.nodes[i]? = some n → n.index = i := by
  induction h with
  | start => exact fun i n hn => absurd hn (by simp [Search.start])
  | @visit s s' module rest _ _ hv ih =>
    obtain ⟨bytes, found, -, hnodes⟩ := nodes_of_visit hv
    dsimp only at hnodes
    intro i n hn
    rw [hnodes, List.getElem?_append] at hn
    split_ifs at hn with hi
    · exact ih i n hn
    · rw [List.getElem?_singleton, ite_eq_iff] at hn
      obtain ⟨hlast, hn⟩ := hn.resolve_right (by simp)
      obtain rfl := Option.some.inj hn
      change s.nodes.length = i
      omega

/-- Every search is orderly, as long as it lasts. -/
lemma IsUnderway.isOrderly (h : IsUnderway scope t first s) : s.IsOrderly first.name := by
  have hholds := h.holds
  have horder := hholds.order
  rw [List.nil_append] at horder
  refine ⟨horder ▸ hholds.nodup, fun x => by rw [horder], h.placed,
    fun n hn => (hholds.done n hn).kept, h.imported⟩

/-- When nothing is left in the queue, the nodes are consistent. -/
lemma IsUnderway.isConsistent (h : IsUnderway scope t first s) (hq : s.queue = []) :
    IsConsistent first.name s.nodes := by
  have hholds := h.holds
  have hnames : ∀ x, x ∈ s.discovered ↔ ∃ n ∈ s.nodes, n.name = x := by
    intro x
    rw [h.isOrderly.discovered, hq]
    simp
  have hnodup : (s.nodes.map (·.name)).Nodup := by
    have := h.isOrderly.nodup
    rwa [hq, List.map_nil, List.append_nil] at this
  have hreached : ∀ x, IsReached scope t first x →
      Relation.ReflTransGen (Imports s.nodes) first.name x := by
    intro x hx
    induction hx with
    | refl => exact .refl
    | @tail y z hy hdep ih =>
      obtain ⟨n, hn, rfl⟩ := (hnames y).mp (hholds.mem_of_isReached hq hy)
      exact ih.tail ⟨n, hn, rfl, ((hholds.done n hn).imports z).mpr hdep⟩
  refine (isConsistent_iff hnodup).mpr ⟨h.placed, (hnames _).mp hholds.entry, ?_, fun n hn => ?_⟩
  · exact fun n hn x hx => (hnames x).mp ((hholds.done n hn).kept x hx)
  · exact hreached n.name (hholds.reached n.name ((hnames n.name).mpr ⟨n, hn, rfl⟩))

end Search

section Resolve

variable {t : Tree} {project : Path} {manifest : Manifest} {base : BaseLibrary}

/-- However many visits a search is given, it makes a graph or does not end. -/
lemma resolveWithin_ne_inconsistent (fuel : ℕ) (reason : String) :
    resolveWithin (Files.ofTree t) fuel project manifest base ≠
      Except.error (.inconsistent reason) := by
  intro h
  rcases bind_eq_error.mp h with h | ⟨⟨scope, first⟩, hprep, h⟩
  · cases isMet_of_prepare h
  rcases bind_eq_error.mp h with h | ⟨s, hs, h⟩
  · cases isMet_of_explore h nofun
  obtain ⟨hs, hq⟩ := IsUnderway.start.explore hs
  have hg : ofNodes first.name (warnUnreachable scope s).nodes = .ok ⟨first.name, s.nodes⟩ :=
    ofNodes_eq_ok.mpr ⟨rfl, hs.isConsistent hq⟩
  dsimp only at h
  rw [hg] at h
  cases h

/-- **The traversal makes a well-formed graph.** However many visits it is given, no project is
refused for an inconsistent graph: between any two visits the search is orderly, and when the queue
is empty its nodes make a graph. -/
theorem resolve_never_inconsistent (t : Tree) (project : Path) (manifest : Manifest)
    (base : BaseLibrary) :
    (∀ fuel reason, resolveWithin (Files.ofTree t) fuel project manifest base ≠
      Except.error (.inconsistent reason)) ∧
    ∀ scope first, prepare (Files.ofTree t) project manifest base = Except.ok (scope, first) →
      ∀ s, IsUnderway scope t first s → s.IsOrderly first.name ∧
        (s.queue = [] → ofNodes first.name s.nodes = .ok ⟨first.name, s.nodes⟩) :=
  ⟨resolveWithin_ne_inconsistent, fun _ _ _ _ hs => ⟨hs.isOrderly, fun hq =>
    ofNodes_eq_ok.mpr ⟨rfl, hs.isConsistent hq⟩⟩⟩

theorem resolve_never_inconsistent_cyclicTree : ∃ scope first s,
    prepare (Files.ofTree cyclicTree) ⟨"/p"⟩ cyclicManifest ⟨"base", "1", []⟩ =
      Except.ok (scope, first) ∧
    IsUnderway scope cyclicTree first s ∧ s.nodes.map (·.name) = ["main", "lib"] ∧
    s.IsOrderly first.name ∧ ofNodes first.name s.nodes = .ok ⟨first.name, s.nodes⟩ := by
  have hrun : ((resolve (Files.ofTree cyclicTree) ⟨"/p"⟩ cyclicManifest ⟨"base", "1", []⟩).run
      : Except Fault Resolution).map (fun r => r.graph.names) =
      .ok ["main", "lib"] := by decide +kernel
  obtain ⟨res, hres, hnames⟩ := except_map_eq_ok.mp hrun
  obtain ⟨scope, first, s, hprep, hs, hgraph⟩ := explore_of_resolveWithin hres
  obtain ⟨hs, hq⟩ := IsUnderway.start.explore hs
  obtain ⟨horderly, hmake⟩ := (resolve_never_inconsistent cyclicTree ⟨"/p"⟩ cyclicManifest
    ⟨"base", "1", []⟩).2 scope first hprep s hs
  exact ⟨scope, first, s, hprep, hs, by rw [← hnames, hgraph, Graph.names], horderly, hmake hq⟩

end Resolve

end ContractBuild.Graph

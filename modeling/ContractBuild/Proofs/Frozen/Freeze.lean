import Mathlib
import ContractBuild.Frozen.Freeze
import ContractBuild.Proofs.Digest.Sha256
import ContractBuild.Proofs.Frozen.Canonical
import ContractBuild.Proofs.Graph.Search

/-!
The nodes of a resolved graph are made from their sources, and freezing gives these sources: it reads
every file again and reports the first that is not what it was. So the digests of a frozen project
never stand in the way of taking its canonical bytes apart.
-/

namespace ContractBuild

open ContractBuild.Digest ContractBuild.Disk

variable {σ : Type} {fs : Files (StateM σ)}

namespace Graph

/-- The names that import statements of a module may mean. -/
def Named (module : Located) (imports : List Python.Import) (x : String) : Prop :=
  ∃ i ∈ imports, ∃ c, Means module.name module.isPackage i c ∧ c.name = x

/-- The node was made from its source: it carries its digest, and the names that it imports and
leaves out are named by the import statements in it. -/
structure Node.IsRead (n : Node) : Prop where
  digest : n.digest = sha256Hex n.source
  parsed : ∃ imports, importsIn n.located n.source = .ok imports ∧
    ∀ x, x ∈ n.imports ∨ x ∈ n.excluded → Named n.located imports x

/-- Whatever names have been found since, they are among those that `P` holds of, and no module has
been visited since. -/
structure FoundOnly (nodes : List Node) (P : String → Prop) (state : Search × Found) : Prop where
  nodes : state.1.nodes = nodes
  names : ∀ x, x ∈ state.2.imports ∨ x ∈ state.2.excluded → P x

lemma gives_follow {scope : Scope} {module : Located} {nodes : List Node} {P : String → Prop}
    {state : Search × Found} {c : Candidate} (hstate : FoundOnly nodes P state) (hc : P c.name) :
    Gives (follow fs scope module state c) (FoundOnly nodes P) := by
  obtain ⟨s, found⟩ := state
  have himports : ∀ x, x ∈ Text.insertSorted c.name found.imports ∨ x ∈ found.excluded → P x := by
    rintro x (hx | hx)
    · rcases Text.mem_insertSorted.mp hx with rfl | hx
      · exact hc
      · exact hstate.names x (.inl hx)
    · exact hstate.names x (.inr hx)
  unfold follow
  dsimp only
  split
  · refine Gives.pure ⟨hstate.nodes, ?_⟩
    rintro x (hx | hx)
    · exact hstate.names x (.inl hx)
    · rcases Text.mem_insertSorted.mp hx with rfl | hx
      · exact hc
      · exact hstate.names x (.inr hx)
  split
  · exact Gives.pure hstate
  split
  · exact Gives.pure ⟨hstate.nodes, himports⟩
  refine Gives.bind_any fun located => ?_
  cases located with
  | some located =>
    refine (Gives.ofExcept (Q := fun s' => s'.nodes = s.nodes) fun s' hs' =>
      (checkLocated_frame hs').2.2).bind fun s' hs' => Gives.pure ⟨?_, himports⟩
    exact hs'.trans hstate.nodes
  | none =>
    dsimp only
    split
    · exact Gives.pure hstate
    refine Gives.bind_any fun b => ?_
    split
    · exact Gives.pure hstate
    · exact Gives.throw

lemma gives_followImport {scope : Scope} {module : Located} {nodes : List Node}
    {imports : List Python.Import} {state : Search × Found} {i : Python.Import} (hi : i ∈ imports)
    (hstate : FoundOnly nodes (Named module imports) state) :
    Gives (followImport fs scope module state i) (FoundOnly nodes (Named module imports)) := by
  refine (Gives.ofExcept (Q := fun cs => ∀ c ∈ cs, Means module.name module.isPackage i c)
    fun cs hcs c hc => (mem_ofImport hcs c).mp hc).bind fun cs hcs => ?_
  exact Gives.foldlM (fun st c hc hst => gives_follow hst ⟨i, hi, c, hcs c hc, rfl⟩) hstate

lemma gives_visit {scope : Scope} {module : Located} {s : Search} (hs : ∀ n ∈ s.nodes, n.IsRead) :
    Gives (visit fs scope module s) fun s' => ∀ n ∈ s'.nodes, n.IsRead := by
  refine Gives.bind_any fun r => ?_
  cases r with
  | error f => exact Gives.throw
  | ok bytes =>
    refine (Gives.ofExcept (Q := fun imports => importsIn module bytes = .ok imports)
      fun imports himports => himports).bind fun imports himports => ?_
    refine (Gives.foldlM (Q := FoundOnly s.nodes (Named module imports))
      (fun st i hi hst => gives_followImport hi hst) ⟨rfl, by simp⟩).bind
      fun state hstate => Gives.pure fun n hn => ?_
    rcases List.mem_append.mp hn with hn | hn
    · exact hs n (by rwa [hstate.nodes] at hn)
    · obtain rfl := List.mem_singleton.mp hn
      exact ⟨rfl, imports, himports, hstate.names⟩

lemma gives_explore {scope : Scope} (fuel : ℕ) {s : Search} (hs : ∀ n ∈ s.nodes, n.IsRead) :
    Gives (explore fs scope fuel s) fun s' => ∀ n ∈ s'.nodes, n.IsRead := by
  induction fuel generalizing s with
  | zero =>
    rw [explore.eq_def]
    dsimp only
    rcases s.queue with _ | ⟨module, rest⟩
    · exact Gives.pure hs
    · exact Gives.throw
  | succ fuel ih =>
    rw [explore.eq_def]
    dsimp only
    rcases s.queue with _ | ⟨module, rest⟩
    · exact Gives.pure hs
    · exact Gives.bind (gives_visit (s := { s with queue := rest }) hs) fun s' hs' => ih hs'

/-- The nodes of a graph were made from their sources, and the entry is one of them. -/
structure IsRead (g : Graph) : Prop where
  nodes : ∀ n ∈ g.nodes, n.IsRead
  entry : ∃ n, g.get? g.entry = some n

lemma exists_get?_ofNodes {entry : String} {nodes : List Node} {g : Graph}
    (h : Graph.ofNodes entry nodes = .ok g) : ∃ n, g.get? g.entry = some n := by
  obtain ⟨rfl, hconsistent⟩ := ofNodes_eq_ok.mp h
  have hany := List.any_eq_true.mp hconsistent.hasEntry
  exact Option.isSome_iff_exists.mp (List.find?_isSome.mpr hany)

lemma gives_resolve (project : Path) (manifest : Manifest) (base : BaseLibrary) :
    Gives (resolve fs project manifest base) fun res => res.graph.IsRead := by
  refine Gives.bind_any fun ⟨scope, first⟩ => ?_
  have hstart : ∀ n ∈ (Search.start first).nodes, n.IsRead := fun n hn => nomatch hn
  refine (gives_explore _ hstart).bind fun s hs => ?_
  dsimp only
  split
  · exact Gives.throw
  · next g hg =>
    refine Gives.pure ⟨?_, exists_get?_ofNodes hg⟩
    rw [(ofNodes_eq_ok.mp hg).1]
    exact hs

end Graph

namespace Frozen

/-! ### What freezing gives -/

/-- What a node is frozen to. -/
def ofNode (n : Graph.Node) : Module := ⟨n.name, n.digest, n.source, n.isPackage⟩

/-- A graph with the sources that its imports were read from. -/
def ofGraph (base : BaseLibrary) (g : Graph) : Frozen := ⟨g.entry, g.nodes.map ofNode, base⟩

/-- How a node is out of date, if its file now holds something else. -/
def staleness (n : Graph.Node) (read : Except Disk.Fault Bytes) : Stale :=
  ⟨n.name, n.path.text, n.digest, found read⟩

/-- Reads the files of nodes, one after the other. -/
def reread {m : Type → Type} [Monad m] (fs : Files m) (nodes : List Graph.Node) :
    m (List (Except Disk.Fault Bytes)) :=
  nodes.mapM fun n => fs.read n.path

/-- The first node whose file is not what it was. -/
def firstStale? (nodes : List Graph.Node) (reads : List (Except Disk.Fault Bytes)) :
    Option Stale :=
  ((nodes.zip reads).find? fun p => found p.2 ≠ p.1.digest).map fun p => staleness p.1 p.2

lemma firstStale?_cons (n : Graph.Node) (nodes : List Graph.Node) (read : Except Disk.Fault Bytes)
    (reads : List (Except Disk.Fault Bytes)) : firstStale? (n :: nodes) (read :: reads) =
      if found read ≠ n.digest then some (staleness n read) else firstStale? nodes reads := by
  unfold firstStale?
  rw [List.zip_cons_cons, List.find?_cons]
  by_cases h : found read = n.digest <;> simp [h]

variable (fs) in
lemma run_freezeNode (n : Graph.Node) (s : σ) : (freezeNode fs n).run s =
    (if found (fs.read n.path s : Except Disk.Fault Bytes × σ).1 ≠ n.digest then
      .error (staleness n (fs.read n.path s : Except Disk.Fault Bytes × σ).1)
    else .ok (ofNode n), (fs.read n.path s : Except Disk.Fault Bytes × σ).2) := by
  rcases hread : (fs.read n.path s : Except Disk.Fault Bytes × σ) with ⟨read, s'⟩
  have hbind : (freezeNode fs n).run s = ((if found read ≠ n.digest then
      throw (staleness n read) else pure (ofNode n)) : ExceptT Stale (StateM σ) Module).run s' := by
    refine (run_bind_lift (fs.read n.path) _ s).trans ?_
    rw [hread]
    dsimp only
    split_ifs <;> rfl
  rw [hbind]
  split_ifs <;> rfl

variable (fs) in
/-- Freezing nodes reads their files up to the first that is not what it was. -/
lemma run_mapM_freezeNode (nodes : List Graph.Node) (s : σ) :
    ((nodes.mapM (freezeNode fs)).run s : Except Stale (List Module) × σ).1 =
      match firstStale? nodes (reread fs nodes s : List (Except Disk.Fault Bytes) × σ).1 with
      | some stale => .error stale
      | none => .ok (nodes.map ofNode) := by
  induction nodes generalizing s with
  | nil => rfl
  | cons n nodes ih =>
    rcases hread : (fs.read n.path s : Except Disk.Fault Bytes × σ) with ⟨read, s'⟩
    have hreads : (reread fs (n :: nodes) s : List (Except Disk.Fault Bytes) × σ).1 =
        read :: (reread fs nodes s' : List (Except Disk.Fault Bytes) × σ).1 := by
      unfold reread
      rw [List.mapM_cons]
      change (fs.read n.path s : Except Disk.Fault Bytes × σ).1 :: (nodes.mapM (fun n => fs.read n.path)
        (fs.read n.path s : Except Disk.Fault Bytes × σ).2 : List (Except Disk.Fault Bytes) × σ).1 = _
      rw [hread]
    have hnode := run_freezeNode fs n s
    rw [hread] at hnode
    rw [hreads, firstStale?_cons, List.mapM_cons]
    split_ifs at hnode ⊢
    · rw [run_bind_of_error hnode]
    · rw [run_bind_of_ok hnode]
      have hrest := ih s'
      rcases hrun : ((nodes.mapM (freezeNode fs)).run s' : Except Stale (List Module) × σ) with
        ⟨res, s''⟩
      rw [hrun] at hrest
      cases hfirst : firstStale? nodes (reread fs nodes s' : List (Except Disk.Fault Bytes) × σ).1 with
      | some stale =>
        rw [hfirst] at hrest
        cases hrest
        rw [run_bind_of_error hrun]
      | none =>
        rw [hfirst] at hrest
        cases hrest
        rw [run_bind_of_ok hrun]
        rfl

variable (fs) in
/-- Freezing gives the graph as it was resolved, or the first module that has changed since. -/
lemma run_freeze (base : BaseLibrary) (g : Graph) (s : σ) :
    ((freeze fs base g).run s : Except Stale Frozen × σ).1 =
      match firstStale? g.nodes (reread fs g.nodes s : List (Except Disk.Fault Bytes) × σ).1 with
      | some stale => .error stale
      | none => .ok (ofGraph base g) := by
  have hnodes := run_mapM_freezeNode fs g.nodes s
  rcases hrun : ((g.nodes.mapM (freezeNode fs)).run s : Except Stale (List Module) × σ) with
    ⟨res, s'⟩
  rw [hrun] at hnodes
  unfold freeze
  cases hfirst : firstStale? g.nodes
    (reread fs g.nodes s : List (Except Disk.Fault Bytes) × σ).1 with
  | some stale =>
    rw [hfirst] at hnodes
    cases hnodes
    rw [run_bind_of_error hrun]
  | none =>
    rw [hfirst] at hnodes
    cases hnodes
    rw [run_bind_of_ok hrun]
    rfl

lemma gives_freeze (base : BaseLibrary) (g : Graph) :
    Gives (freeze fs base g) fun f => f = ofGraph base g := by
  intro s f s' hrun
  have hfreeze := run_freeze fs base g s
  rw [hrun] at hfreeze
  split at hfreeze
  · cases hfreeze
  · exact Except.ok.inj hfreeze

lemma mapM_freezeNode_eq_ok {fs : Files Id} {nodes : List Graph.Node} {ms : List Module}
    (h : nodes.mapM (freezeNode fs) = Except.ok ms) : ms = nodes.map ofNode := by
  induction nodes generalizing ms with
  | nil =>
    cases h
    rfl
  | cons n nodes ih =>
    rw [List.mapM_cons] at h
    obtain ⟨m, hm, h⟩ := bind_eq_ok.mp h
    obtain ⟨rest, hrest, h⟩ := bind_eq_ok.mp h
    cases h
    obtain ⟨read, -, hm⟩ := bind_eq_ok.mp hm
    dsimp only at hm
    split_ifs at hm
    · cases hm
    · cases hm
      rw [ih hrest]
      rfl

/-- Freezing gives the sources that the graph was made from. -/
lemma eq_ofGraph_of_freeze {fs : Files Id} {base : BaseLibrary} {g : Graph} {f : Frozen}
    (h : freeze fs base g = Except.ok f) : f = ofGraph base g := by
  obtain ⟨ms, hms, h⟩ := bind_eq_ok.mp h
  cases h
  rw [mapM_freezeNode_eq_ok hms]
  rfl

lemma length_reread (nodes : List Graph.Node) (s : σ) :
    (reread fs nodes s : List (Except Disk.Fault Bytes) × σ).1.length = nodes.length := by
  induction nodes generalizing s with
  | nil => rfl
  | cons n nodes ih =>
    unfold reread
    rw [List.mapM_cons]
    exact congrArg (· + 1) (ih _)

/-- The entry is frozen with the others. -/
lemma entryModule?_ofGraph (base : BaseLibrary) (g : Graph) :
    (ofGraph base g).entryModule? = (g.get? g.entry).map ofNode := by
  rw [entryModule?, ofGraph, List.find?_map]
  rfl

/-! ### Sources that have changed -/

/-- An unreadable file is never taken for a source, and without collisions no other file is. -/
lemma found_eq_iff {source : Bytes} {read : Except Disk.Fault Bytes}
    (h : ∀ bytes, read = .ok bytes → sha256Hex bytes = sha256Hex source → bytes = source) :
    found read = sha256Hex source ↔ read = .ok source := by
  constructor
  · intro hfound
    cases read with
    | error f =>
      have hmem : '<' ∈ (found (.error f)).toList := by
        rw [found, String.toList_append, String.toList_append, List.append_assoc]
        exact List.mem_append_left _ (by decide)
      rw [hfound] at hmem
      exact absurd hmem (not_mem_sha256Hex (by decide) source)
    | ok bytes => rw [h bytes rfl hfound]
  · rintro rfl
    rfl

/-- Without collisions, the first stale module is the first whose file has other content. -/
lemma firstStale?_eq {nodes : List Graph.Node} {reads : List (Except Disk.Fault Bytes)}
    {S : Bytes → Prop} (hnodes : ∀ n ∈ nodes, n.IsRead) (hsha : CollisionFree S)
    (hsources : ∀ n ∈ nodes, S n.source) (hreads : ∀ bytes, .ok bytes ∈ reads → S bytes) :
    firstStale? nodes reads = ((nodes.zip reads).find? fun p => p.2 ≠ .ok p.1.source).map
      fun p => staleness p.1 p.2 := by
  have hsame : ∀ p ∈ nodes.zip reads,
      decide (found p.2 ≠ p.1.digest) = decide (p.2 ≠ .ok p.1.source) := by
    rintro ⟨n, read⟩ hp
    obtain ⟨hn, hread⟩ := List.of_mem_zip hp
    rw [(hnodes n hn).digest]
    refine decide_eq_decide.mpr (not_congr (found_eq_iff fun bytes hbytes => ?_))
    exact hsha _ _ (hreads bytes (hbytes ▸ hread)) (hsources n hn)
  rw [firstStale?, List.find?_congr hsame]

/-- Names without line feeds are all that canonical bytes need. -/
lemma isPlain_of_digests {f : Frozen} (hentry : '\n' ∉ f.entry.toList)
    (hnames : ∀ m ∈ f.modules, '\n' ∉ m.name.toList)
    (hdigests : ∀ m ∈ f.modules, ∃ bytes, m.digest = sha256Hex bytes) : f.IsPlain := by
  refine ⟨hentry, fun m hm => ?_⟩
  obtain ⟨bytes, hdigest⟩ := hdigests m hm
  refine ⟨hnames m hm, ?_, ?_⟩
  · rw [hdigest]
    exact not_mem_sha256Hex (by decide) bytes
  · rw [hdigest]
    exact not_mem_sha256Hex (by decide) bytes

end Frozen

end ContractBuild

import Mathlib
import ContractBuild.Proofs.Graph.Fault
import ContractBuild.Proofs.Graph.Finite
import ContractBuild.Proofs.Text.Utf8

/-!
When a search ends. Each visit adds a module of the closure, so a finite closure is searched to its
end unless a fault comes first; and a search that ends without a fault has seen the whole closure.
-/

namespace ContractBuild.Graph

open ContractBuild.Disk ContractBuild.Text

/-! ### How many visits -/

section

variable {scope : Scope} {t : Tree} {first module : Located} {s : Search}

/-- A visit adds one node. -/
lemma length_nodes_visit {s' : Search}
    (h : visit (Files.ofTree t) scope module s = Except.ok s') :
    s'.nodes.length = s.nodes.length + 1 := by
  obtain ⟨bytes, found, -, hnodes⟩ := nodes_of_visit h
  simp [hnodes]

/-- A candidate is followed without a fault if there are no pins and it need not be there, or is. -/
lemma exists_follow (hpins : scope.pins = []) (st : Search × Found) (c : Candidate)
    (hc : c.isRequired = true → c.name = module.name) :
    ∃ st', follow (Files.ofTree t) scope module st c = Except.ok st' := by
  obtain ⟨s, found⟩ := st
  have hpin : ∀ l, ∃ s', checkLocated scope module.name l s = .ok s' := by
    intro l
    unfold checkLocated
    split
    · exact ⟨s, rfl⟩
    · exact ⟨s, by rw [hpins]; rfl⟩
  rw [follow_ofTree]
  by_cases h1 : scope.excludes c.name = true
  · exact ⟨_, if_pos h1⟩
  rw [if_neg h1]
  by_cases h2 : c.name = module.name
  · exact ⟨_, if_pos h2⟩
  rw [if_neg h2]
  by_cases h3 : s.discovered.contains c.name = true
  · exact ⟨_, if_pos h3⟩
  rw [if_neg h3]
  rcases scope.find? t c.name with _ | l
  · have hr : (!c.isRequired) = true := by simpa using fun hr => h2 (hc hr)
    exact ⟨_, if_pos hr⟩
  · obtain ⟨s', hs'⟩ := hpin l
    exact ⟨_, by simp only [hs']; rfl⟩

/-- So a module is visited without a fault if only itself is required. -/
lemma exists_visit {bytes : Bytes} {imports : List Python.Import} (hpins : scope.pins = [])
    (hread : t.read module.path = .ok bytes) (hparse : importsIn module bytes = .ok imports)
    (hi : ∀ i ∈ imports, ∃ cs, Candidate.ofImport module.name module.isPackage i = .ok cs ∧
      ∀ c ∈ cs, c.isRequired = true → c.name = module.name) (s : Search) :
    ∃ s', visit (Files.ofTree t) scope module s = Except.ok s' := by
  have hfold : ∀ st, ∃ st', imports.foldlM (followImport (Files.ofTree t) scope module) st =
      Except.ok st' := by
    refine exists_foldlM fun i hmem st => ?_
    obtain ⟨cs, hcs, hreq⟩ := hi i hmem
    obtain ⟨st', hst'⟩ := exists_foldlM
      (fun c hc st => exists_follow (t := t) hpins st c (hreq c hc)) st
    exact ⟨st', bind_eq_ok.mpr ⟨cs, by rw [hcs]; rfl, hst'⟩⟩
  obtain ⟨⟨s₁, found⟩, hst⟩ := hfold (s, {})
  refine ⟨_, bind_eq_ok.mpr ⟨.ok bytes, ?_, bind_eq_ok.mpr ⟨imports, ?_,
    bind_eq_ok.mpr ⟨_, hst, rfl⟩⟩⟩⟩
  · change (Except.ok (t.read module.path) : Except Fault _) = _
    rw [hread]
  · rw [hparse]
    rfl

/-- An infinite closure is never searched to its end. -/
lemma Holds.explore_unfinished (h : Holds scope t first [] s)
    (hinf : {m | IsReached scope t first m}.Infinite)
    (hvisit : ∀ module s, IsReached scope t first module.name →
      scope.module? t first module.name = some module →
      ∃ s', Graph.visit (Files.ofTree t) scope module s = Except.ok s') (fuel : ℕ) :
    Graph.explore (Files.ofTree t) scope fuel s = Except.error .unfinished := by
  induction fuel generalizing s with
  | zero =>
    rcases hq : s.queue with _ | ⟨module, rest⟩
    · exact absurd ((List.finite_toSet s.discovered).subset fun x hx =>
        h.mem_of_isReached hq hx) hinf
    · exact explore_zero hq
  | succ fuel ih =>
    rcases hq : s.queue with _ | ⟨module, rest⟩
    · exact absurd ((List.finite_toSet s.discovered).subset fun x hx =>
        h.mem_of_isReached hq hx) hinf
    · have hmem : module ∈ [] ++ s.queue := by simp [hq]
      have hreach : IsReached scope t first module.name := by
        refine h.reached _ ?_
        rw [h.order]
        exact List.mem_append_right _ (List.mem_map_of_mem hmem)
      obtain ⟨s', hv⟩ := hvisit module { s with queue := rest } hreach (h.waiting module hmem)
      rw [explore_cons hq, hv]
      exact ih (h.visit hq hv)

/-- With as many visits as the closure has modules, a search does not give up. -/
lemma Holds.explore_ne_unfinished (h : Holds scope t first [] s)
    (hfin : {m | IsReached scope t first m}.Finite) {fuel : ℕ}
    (hfuel : hfin.toFinset.card ≤ s.nodes.length + fuel) :
    Graph.explore (Files.ofTree t) scope fuel s ≠ Except.error .unfinished := by
  have hcard : s.discovered.length ≤ hfin.toFinset.card := by
    rw [← List.toFinset_card_of_nodup h.nodup]
    refine Finset.card_le_card fun x hx => ?_
    rw [Set.Finite.mem_toFinset]
    exact h.reached x (List.mem_toFinset.mp hx)
  induction fuel generalizing s with
  | zero =>
    rcases hq : s.queue with _ | ⟨module, rest⟩
    · rw [explore_nil 0 hq]; exact nofun
    · have horder := congrArg List.length h.order
      simp [hq] at horder
      omega
  | succ fuel ih =>
    rcases hq : s.queue with _ | ⟨module, rest⟩
    · rw [explore_nil (fuel + 1) hq]; exact nofun
    · rw [explore_cons hq]
      intro he
      rcases bind_eq_error.mp he with he | ⟨s₁, hv, he⟩
      · exact absurd (isMet_of_visit he) (by decide)
      · have hs₁ := h.visit hq hv
        have hlen := length_nodes_visit hv
        refine ih hs₁ (by rw [hlen]; simp; omega) ?_ he
        rw [← List.toFinset_card_of_nodup hs₁.nodup]
        refine Finset.card_le_card fun x hx => ?_
        rw [Set.Finite.mem_toFinset]
        exact hs₁.reached x (List.mem_toFinset.mp hx)

end

section Resolve

variable {t : Tree} {project : Path} {manifest : Manifest} {base : BaseLibrary}

/-- Resolving gives up only if the search does. -/
lemma resolveWithin_unfinished {fuel : ℕ} :
    resolveWithin (Files.ofTree t) fuel project manifest base = Except.error .unfinished ↔
      ∃ scope first, prepare (Files.ofTree t) project manifest base = Except.ok (scope, first) ∧
        explore (Files.ofTree t) scope fuel (.start first) = Except.error .unfinished := by
  constructor
  · intro h
    rcases bind_eq_error.mp h with h | ⟨⟨scope, first⟩, hprep, h⟩
    · exact absurd (isMet_of_prepare h) (by decide)
    rcases bind_eq_error.mp h with h | ⟨s, -, h⟩
    · exact ⟨scope, first, hprep, h⟩
    · dsimp only at h
      split at h <;> cases h
  · rintro ⟨scope, first, hprep, h⟩
    exact bind_eq_error.mpr (.inr ⟨_, hprep, bind_eq_error.mpr (.inl h)⟩)

/-- A search ends exactly if its closure is finite or a fault is met. -/
lemma ends_iff : (∃ fuel, resolveWithin (Files.ofTree t) fuel project manifest base ≠
      Except.error .unfinished) ↔
    ∀ scope first, prepare (Files.ofTree t) project manifest base = Except.ok (scope, first) →
      {m | IsReached scope t first m}.Finite ∨
        ∃ fuel f, f ≠ .unfinished ∧
          explore (Files.ofTree t) scope fuel (.start first) = Except.error f := by
  constructor
  · rintro ⟨fuel, hne⟩ scope first hprep
    rcases he : (explore (Files.ofTree t) scope fuel (.start first)).run with f | s
    · refine .inr ⟨fuel, f, ?_, he⟩
      rintro rfl
      exact hne (resolveWithin_unfinished.mpr ⟨scope, first, hprep, he⟩)
    · obtain ⟨hholds, hq⟩ := (holds_start scope t first).explore he
      exact .inl ((List.finite_toSet s.discovered).subset fun x hx =>
        hholds.mem_of_isReached hq hx)
  · intro h
    rcases hprep : (prepare (Files.ofTree t) project manifest base).run with f | ⟨scope, first⟩
    · refine ⟨0, fun hres => ?_⟩
      obtain ⟨scope, first, hprep', -⟩ := resolveWithin_unfinished.mp hres
      cases hprep.symm.trans hprep'
    · have hends : ∃ fuel, explore (Files.ofTree t) scope fuel (.start first) ≠
          Except.error .unfinished := by
        rcases h scope first hprep with hfin | ⟨fuel, f, hf, he⟩
        · exact ⟨hfin.toFinset.card,
            (holds_start scope t first).explore_ne_unfinished hfin (Nat.le_add_left _ _)⟩
        · refine ⟨fuel, fun he' => hf ?_⟩
          exact Except.error.inj (he.symm.trans he')
      obtain ⟨fuel, hfuel⟩ := hends
      refine ⟨fuel, fun hres => hfuel ?_⟩
      obtain ⟨scope', first', hprep', he⟩ := resolveWithin_unfinished.mp hres
      cases hprep.symm.trans hprep'
      exact he

/-- **When resolution ends.** With enough visits a search ends, in a graph or a fault, exactly if
the closure of the entry is finite or a fault is met; and this is so whenever every part of the
relative imports reached begins with a character other than a slash. -/
theorem resolution_ends (t : Tree) (project : Path) (manifest : Manifest) (base : BaseLibrary) :
    ((∃ fuel, resolveWithin (Files.ofTree t) fuel project manifest base ≠
        Except.error .unfinished) ↔
      ∀ scope first, prepare (Files.ofTree t) project manifest base = Except.ok (scope, first) →
        {m | IsReached scope t first m}.Finite ∨
          ∃ fuel f, f ≠ .unfinished ∧
            explore (Files.ofTree t) scope fuel (.start first) = Except.error f) ∧
    ((∀ scope first, prepare (Files.ofTree t) project manifest base = Except.ok (scope, first) →
        ∀ i ∈ statements scope t first, ∀ w ∈ relativeParts i, Path.IsSolid w) →
      ∃ fuel, resolveWithin (Files.ofTree t) fuel project manifest base ≠
        Except.error .unfinished) := by
  refine ⟨ends_iff, fun hsolid => ends_iff.mpr fun scope first hprep => .inl ?_⟩
  exact finite_isReached (hsolid scope first hprep)

end Resolve

/-- A package and a module in it that import each other, relative to where they are. -/
def siblingTree : Tree where
  nodes := [(["p"], .directory), (["p", "pkg"], .directory),
    (["p", "pkg", "__init__.py"], .file (Utf8.encode "from .sub import f\n") false),
    (["p", "pkg", "sub.py"], .file (Utf8.encode "from . import sub, g as h\n") false)]

def packageManifest : Manifest where
  entry := ⟨"pkg/__init__.py"⟩
  sourceRoots := [⟨"."⟩]
  packageRoots := []
  exclude := []
  optimize := .size
  output := ⟨"build/pkg.wasm"⟩
  abiOutput := ⟨"build/pkg.abi.json"⟩
  pins := []
  debugInfo := false

theorem resolution_of_siblingTree_ends :
    (∀ e ∈ siblingTree.nodes, ∀ i ∈ importsAt e.2, ∀ w ∈ relativeParts i, Path.IsSolid w) ∧
      ∃ fuel, resolveWithin (Files.ofTree siblingTree) fuel ⟨"/p"⟩ packageManifest
        ⟨"base", "1", []⟩ ≠ Except.error .unfinished := by
  have hsolid : ∀ e ∈ siblingTree.nodes, ∀ i ∈ importsAt e.2, ∀ w ∈ relativeParts i,
      Path.IsSolid w := by decide +kernel
  refine ⟨hsolid, (resolution_ends siblingTree _ _ _).2 ?_⟩
  intro scope first _ i hi
  obtain ⟨e, he, hmem⟩ := exists_importsAt hi
  exact hsolid e he i hmem

/-! ### A search without end -/

/-- A package that imports a dot from itself. A dot alone adds two empty components to the name of
the package, and these lead back to the same file. -/
def dotTree : Tree where
  nodes := [(["p"], .directory), (["p", "pkg"], .directory),
    (["p", "pkg", "__init__.py"], .file (Utf8.encode "from . import .\n") false)]

def dotScope : Scope where
  exclude := []
  base := ⟨"base", "1", []⟩
  pins := []
  roots := [{ path := ⟨"/p"⟩ }]

/-- The package under its name with dots after it. -/
def dotName (k : ℕ) : String := Candidate.dotted ("pkg" :: List.replicate k "")

def dotModule (k : ℕ) : Located := ⟨dotName k, ⟨"/p/pkg/__init__.py"⟩, true, .project⟩

lemma splitString_dotName (k : ℕ) : splitString '.' (dotName k) = "pkg" :: List.replicate k "" := by
  refine splitString_dotted (by simp) ?_
  intro w hw
  rcases List.mem_cons.mp hw with rfl | hw
  · decide
  · rw [List.eq_of_mem_replicate hw]
    decide

lemma dotName_injective : Function.Injective dotName := by
  intro j k h
  have hlen := congrArg (fun n => (splitString '.' n).length) h
  simpa [splitString_dotName] using hlen

lemma prepare_dotTree : prepare (Files.ofTree dotTree) ⟨"/p"⟩ packageManifest ⟨"base", "1", []⟩ =
    Except.ok (dotScope, dotModule 0) := rfl

/-- Empty components leave the path as it is, but for a slash. -/
lemma baseOf_dotName (k : ℕ) : (Root.mk ⟨"/p"⟩ none).baseOf (dotName k) = ⟨"/p/pkg"⟩ ∨
    (Root.mk ⟨"/p"⟩ none).baseOf (dotName k) = ⟨"/p/pkg/"⟩ := by
  have hstep : ∀ n, (List.replicate n "").foldl Path.joinName ⟨"/p/pkg/"⟩ = ⟨"/p/pkg/"⟩ := by
    intro n
    induction n with
    | zero => rfl
    | succ n ih =>
      rw [List.replicate_succ, List.foldl_cons,
        show (Path.mk "/p/pkg/").joinName "" = ⟨"/p/pkg/"⟩ from rfl, ih]
  rw [Root.baseOf, splitString_dotName, List.foldl_cons,
    show (Path.mk "/p").joinName "pkg" = ⟨"/p/pkg"⟩ from rfl]
  cases k with
  | zero => exact .inl rfl
  | succ k =>
    rw [List.replicate_succ, List.foldl_cons,
      show (Path.mk "/p/pkg").joinName "" = ⟨"/p/pkg/"⟩ from rfl]
    exact .inr (hstep k)

lemma find?_dotName (k : ℕ) : dotScope.find? dotTree (dotName k) = some (dotModule k) := by
  change locate (Files.ofTree dotTree) (dotName k) (⟨⟨"/p"⟩, none⟩ :: []) = _
  rw [locate_cons]
  rcases baseOf_dotName k with h | h
  · rw [h, if_neg (by decide), if_pos (by decide),
      show (Path.mk "/p/pkg").joinName "__init__.py" = ⟨"/p/pkg/__init__.py"⟩ from rfl]
    rfl
  · rw [h, if_neg (by decide), if_pos (by decide),
      show (Path.mk "/p/pkg/").joinName "__init__.py" = ⟨"/p/pkg/__init__.py"⟩ from rfl]
    rfl

lemma module?_dotName (k : ℕ) :
    dotScope.module? dotTree (dotModule 0) (dotName k) = some (dotModule k) := by
  unfold Scope.module?
  split_ifs with h
  · obtain rfl : k = 0 := dotName_injective h
    rfl
  · exact find?_dotName k

lemma importsIn_dotModule (k : ℕ) :
    importsIn (dotModule k) (Utf8.encode "from . import .\n") =
      .ok [.names 1 1 none ["."]] := by
  have hparse : Python.Module.parse "from . import .\n" =
      .ok { imports := [.names 1 1 none ["."]] } := by decide +kernel
  rw [importsIn, Utf8.decode_encode]
  dsimp only
  rw [hparse]

lemma read_dotModule (k : ℕ) :
    dotTree.read (dotModule k).path = .ok (Utf8.encode "from . import .\n") := by
  change dotTree.read ⟨"/p/pkg/__init__.py"⟩ = _
  rfl

lemma hasImport_dotModule {k : ℕ} {i : Python.Import} :
    HasImport dotTree (dotModule k) i ↔ i = .names 1 1 none ["."] := by
  constructor
  · rintro ⟨bytes, imports, hread, hparse, hi⟩
    obtain rfl := Except.ok.inj ((read_dotModule k).symm.trans hread)
    obtain rfl := Except.ok.inj ((importsIn_dotModule k).symm.trans hparse)
    exact List.mem_singleton.mp hi
  · rintro rfl
    exact ⟨_, _, read_dotModule k, importsIn_dotModule k, List.mem_singleton_self _⟩

lemma isBase_dotName {k : ℕ} {b : String} :
    IsBase (dotName k) true 1 none b ↔ b = dotName k := by
  have hbase : Candidate.baseOf (dotName k) true 1 none 1 = .ok (dotName k) := by
    simp only [Candidate.baseOf, Candidate.packageAt?, splitString_dotName]
    simp [dotName]
  rw [← baseOf_eq_ok, hbase]
  exact ⟨fun h => (Except.ok.inj h).symm, fun h => by rw [h]⟩

lemma dotName_append (k : ℕ) : dotName k ++ "." ++ "." = dotName (k + 2) := by
  rw [← dotted_splitString (dotName k ++ "." ++ "."), splitString_append, splitString_dotName,
    show splitString '.' "." = ["", ""] from rfl, dotName]
  congr 1
  rw [List.replicate_add]
  rfl

/-- The package means itself with fewer dots, and with two more. -/
lemma name_of_means {k : ℕ} {c : Candidate} (h : Means (dotName k) true (.names 1 1 none ["."]) c) :
    (∃ j, c.name = dotName j) ∧ (c.isRequired = true → c.name = dotName k) := by
  cases h with
  | @base _ _ _ _ _ p hb hne hp =>
    obtain rfl := isBase_dotName.mp hb
    rw [splitString_dotName] at hp ⊢
    refine ⟨?_, fun hr => ?_⟩
    · cases p with
      | nil => exact absurd rfl hne
      | cons w p =>
        obtain ⟨rfl, hrest⟩ := List.cons_prefix_cons.mp hp
        refine ⟨p.length, ?_⟩
        rw [dotName, ← (List.prefix_replicate_iff.mp hrest).2]
    · rw [of_decide_eq_true hr]
      rfl
  | name hb hn hs =>
    obtain rfl := isBase_dotName.mp hb
    obtain rfl := List.mem_singleton.mp hn
    exact ⟨⟨k + 2, dotName_append k⟩, nofun⟩

lemma means_dotName (k : ℕ) :
    Means (dotName k) true (.names 1 1 none ["."]) ⟨dotName (k + 2), false, 1⟩ := by
  rw [← dotName_append]
  exact .name (isBase_dotName.mpr rfl) (List.mem_singleton_self _) (by decide)

lemma dependsOn_dotName (k : ℕ) :
    DependsOn dotScope dotTree (dotModule 0) (dotName k) (dotName (k + 2)) := by
  refine ⟨⟨dotModule k, _, module?_dotName k,
    ⟨_, hasImport_dotModule.mpr rfl, means_dotName k⟩, rfl⟩, ?_, ?_, ?_⟩
  · simp [Scope.excludes, BaseLibrary.has, dotScope]
  · intro h
    have := dotName_injective h
    omega
  · rw [module?_dotName]
    rfl

lemma infinite_dotName : {m | IsReached dotScope dotTree (dotModule 0) m}.Infinite := by
  have hreach : ∀ k, IsReached dotScope dotTree (dotModule 0) (dotName (2 * k)) := by
    intro k
    induction k with
    | zero => exact .refl
    | succ k ih => exact ih.tail (dependsOn_dotName (2 * k))
  refine Set.infinite_of_injective_forall_mem (f := fun k => dotName (2 * k)) ?_ hreach
  intro j k h
  have := dotName_injective h
  omega

/-- Whatever is reached is the package with dots after it. -/
lemma dotName_of_isReached {m : String} (h : IsReached dotScope dotTree (dotModule 0) m) :
    ∃ k, m = dotName k := by
  induction h with
  | refl => exact ⟨0, rfl⟩
  | tail _ hdep ih =>
    obtain ⟨k, rfl⟩ := ih
    obtain ⟨⟨module, c, hmod, ⟨i, hi, hc⟩, rfl⟩, -⟩ := hdep
    obtain rfl := Option.some.inj ((module?_dotName k).symm.trans hmod)
    obtain rfl := hasImport_dotModule.mp hi
    exact (name_of_means hc).1

lemma exists_visit_dotModule (k : ℕ) (s : Search) :
    ∃ s', visit (Files.ofTree dotTree) dotScope (dotModule k) s = Except.ok s' := by
  refine exists_visit rfl (read_dotModule k) (importsIn_dotModule k) ?_ s
  intro i hi
  obtain rfl := List.mem_singleton.mp hi
  obtain ⟨cs, hcs, -⟩ := ofImport_of_means (means_dotName k)
  exact ⟨cs, hcs, fun c hc => (name_of_means ((mem_ofImport hcs c).mp hc)).2⟩

/-- A dot imported from the own package is never found the last time. -/
theorem resolution_of_dotTree_never_ends (fuel : ℕ) :
    resolveWithin (Files.ofTree dotTree) fuel ⟨"/p"⟩ packageManifest ⟨"base", "1", []⟩ =
      Except.error .unfinished := by
  refine resolveWithin_unfinished.mpr ⟨dotScope, dotModule 0, prepare_dotTree, ?_⟩
  refine (holds_start dotScope dotTree (dotModule 0)).explore_unfinished infinite_dotName ?_ fuel
  intro module s hreach hmod
  obtain ⟨k, hk⟩ := dotName_of_isReached hreach
  rw [hk] at hmod
  obtain rfl := Option.some.inj ((module?_dotName k).symm.trans hmod)
  exact exists_visit_dotModule k s

end ContractBuild.Graph

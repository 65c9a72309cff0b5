import Mathlib
import ContractBuild.Proofs.Disk.Tree
import ContractBuild.Proofs.Graph.Name
import ContractBuild.Proofs.Graph.Search

/-!
When the import closure is finite. Absolute imports name finitely many modules, because the tree
holds finitely many statements. A relative import puts parts after the name of a package; where each
part makes the path longer, the limit on paths bounds how often that can happen.
-/

namespace ContractBuild.Graph

open ContractBuild.Disk ContractBuild.Text

/-- The parts that a relative import puts after the name of a package. -/
def relativeParts : Python.Import → List String
  | .whole _ _ => []
  | .names _ 0 _ _ => []
  | .names _ (_ + 1) base names => (base.toList ++ names).flatMap (splitString '.')

section Names

variable (scope : Scope) (t : Tree) (first : Located)

/-- The import statements of the modules reached. -/
def statements : Set Python.Import :=
  {i | ∃ m module, IsReached scope t first m ∧ scope.module? t first m = some module ∧
    HasImport t module i}

/-- The names that absolute imports mean, and that of the entry. -/
def absoluteNames : Set String :=
  {first.name} ∪ {n | ∃ i ∈ statements scope t first, ∃ c, Means "" false i c ∧ c.name = n}

/-- The packages that these names lie in, as components. -/
def fronts : Set (List String) :=
  {u | ∃ n ∈ absoluteNames scope t first, u <+: splitString '.' n}

/-- The parts of all relative imports. -/
def parts : Set String := {w | ∃ i ∈ statements scope t first, w ∈ relativeParts i}

/-- Components that begin like an absolute name and go on with parts of relative imports. -/
def Composed (cs : List String) : Prop :=
  ∃ u ∈ fronts scope t first, ∃ ws, (∀ w ∈ ws, w ∈ parts scope t first) ∧ cs = u ++ ws

variable {scope t first} {m : String} {module : Located} {i : Python.Import} {c : Candidate}

lemma composed_of_absolute {n : String} (h : n ∈ absoluteNames scope t first) :
    Composed scope t first (splitString '.' n) :=
  ⟨_, ⟨n, h, List.prefix_rfl⟩, [], by simp, by simp⟩

lemma Composed.initial {cs p : List String} (h : Composed scope t first cs) (hp : p <+: cs) :
    Composed scope t first p := by
  obtain ⟨u, ⟨n, hn, hu⟩, ws, hws, rfl⟩ := h
  rw [List.prefix_iff_eq_take.mp hp, List.take_append]
  have htake : u.take p.length <+: u := List.take_prefix _ _
  exact ⟨_, ⟨n, hn, htake.trans hu⟩, _,
    fun w hw => hws w (List.mem_of_mem_take hw), rfl⟩

lemma Composed.append {cs vs : List String} (h : Composed scope t first cs)
    (hv : ∀ w ∈ vs, w ∈ parts scope t first) : Composed scope t first (cs ++ vs) := by
  obtain ⟨u, hu, ws, hws, rfl⟩ := h
  refine ⟨u, hu, ws ++ vs, fun w hw => ?_, List.append_assoc _ _ _⟩
  rcases List.mem_append.mp hw with hw | hw
  · exact hws w hw
  · exact hv w hw

lemma ownPackage_isPrefix (importer : String) (isPackage : Bool) :
    ownPackage importer isPackage <+: splitString '.' importer := by
  unfold ownPackage
  split_ifs
  · exact List.prefix_rfl
  · exact List.dropLast_prefix _

/-- A base is composed if its importer is, and so are its packages. -/
lemma composed_base {level : ℕ} {base : Option String} {names : List String} {line : ℕ} {b : String}
    {isPackage : Bool} (hm : Composed scope t first (splitString '.' m))
    (hi : .names line level base names ∈ statements scope t first) (h0 : level ≠ 0)
    (hb : IsBase m isPackage level base b) : Composed scope t first (splitString '.' b) := by
  have hown := fun package above (h : ownPackage m isPackage = package ++ above) =>
    (List.prefix_append package above).trans (h ▸ ownPackage_isPrefix m isPackage)
  have hdots := fun package above (h : ownPackage m isPackage = package ++ above) w hw =>
    not_mem_of_mem_splitString ((hown package above h).subset (a := w) hw)
  cases hb with
  | absolute => exact absurd rfl h0
  | @package above package hne h =>
    rw [splitString_dotted hne (hdots package above h)]
    exact hm.initial (hown package above h)
  | @below above package b' hne h =>
    rw [splitString_append, splitString_dotted hne (hdots package above h)]
    refine (hm.initial (hown package above h)).append fun w hw => ⟨_, hi, ?_⟩
    exact List.mem_flatMap.mpr ⟨b', by simp, hw⟩

/-- What a statement of a composed module means is composed. -/
lemma composed_of_means {isPackage : Bool} (hm : Composed scope t first (splitString '.' m))
    (hi : i ∈ statements scope t first) (hc : Means m isPackage i c) :
    Composed scope t first (splitString '.' c.name) := by
  have habs : Means "" false i c → Composed scope t first (splitString '.' c.name) :=
    fun h => composed_of_absolute (.inr ⟨i, hi, c, h, rfl⟩)
  cases hc with
  | whole hne hp => exact habs (.whole hne hp)
  | @base line level base names b p hb hne hp =>
    by_cases h0 : level = 0
    · subst h0
      cases hb
      exact habs (.base .absolute hne hp)
    · have hdots : ∀ w ∈ p, '.' ∉ w.toList := fun w hw => not_mem_of_mem_splitString (hp.subset hw)
      rw [splitString_dotted hne hdots]
      exact (composed_base hm hi h0 hb).initial hp
  | @name line level base names b n hb hn hs =>
    by_cases h0 : level = 0
    · subst h0
      cases hb
      exact habs (.name .absolute hn hs)
    · rw [splitString_append]
      refine (composed_base hm hi h0 hb).append fun w hw => ⟨_, hi, ?_⟩
      obtain ⟨k, rfl⟩ := Nat.exists_eq_succ_of_ne_zero h0
      exact List.mem_flatMap.mpr ⟨n, by simp [hn], hw⟩

/-- **Every name reached is composed.** -/
lemma composed_of_isReached (h : IsReached scope t first m) :
    Composed scope t first (splitString '.' m) := by
  induction h with
  | refl => exact composed_of_absolute (.inl rfl)
  | @tail x y hx hdep ih =>
    obtain ⟨⟨module, c, hmod, ⟨i, hi, hc⟩, rfl⟩, -⟩ := hdep
    have hmeans : Means x module.isPackage i c := module?_name hmod ▸ hc
    exact composed_of_means ih ⟨x, module, hx, hmod, hi⟩ hmeans

/-! ### Finitely many -/

/-- The imports in a file, if it can be read. -/
def importsWithin (bytes : Bytes) : List Python.Import :=
  match Utf8.decode bytes with
  | .error _ => []
  | .ok text =>
    match Python.Module.parse text with
    | .error _ => []
    | .ok parsed => parsed.imports

lemma importsIn_eq_ok {bytes : Bytes} {imports : List Python.Import}
    (h : importsIn module bytes = .ok imports) : imports = importsWithin bytes := by
  unfold importsIn at h
  unfold importsWithin
  revert h
  rcases Utf8.decode bytes with fault | text
  · exact nofun
  · dsimp only
    rcases Python.Module.parse text with fault | parsed
    · exact nofun
    · exact fun h => (Except.ok.inj h).symm

/-- The import statements in a node of the tree. -/
def importsAt : Disk.Node → List Python.Import
  | .file content _ => importsWithin content
  | _ => []

/-- A statement stands in some file of the tree. -/
lemma exists_importsAt (h : i ∈ statements scope t first) : ∃ e ∈ t.nodes, i ∈ importsAt e.2 := by
  obtain ⟨m, module, -, -, bytes, imports, hread, hparse, hi⟩ := h
  obtain ⟨place, x, -, hget⟩ := Tree.read_eq_ok hread
  rw [importsIn_eq_ok hparse] at hi
  exact ⟨_, Tree.mem_of_get? hget, hi⟩

lemma finite_statements (scope : Scope) (t : Tree) (first : Located) :
    (statements scope t first).Finite := by
  refine (List.finite_toSet (t.nodes.flatMap fun e => importsAt e.2)).subset fun i hi => ?_
  exact List.mem_flatMap.mpr (exists_importsAt hi)

lemma finite_absoluteNames (scope : Scope) (t : Tree) (first : Located) :
    (absoluteNames scope t first).Finite := by
  refine (Set.finite_singleton _).union ?_
  let names : Python.Import → List String := fun i =>
    match Candidate.ofImport "" false i with
    | .ok cs => cs.map (·.name)
    | .error _ => []
  refine ((finite_statements scope t first).biUnion fun i _ =>
    List.finite_toSet (names i)).subset ?_
  rintro n ⟨i, hi, c, hc, rfl⟩
  obtain ⟨cs, hcs, hmem⟩ := ofImport_of_means hc
  refine Set.mem_biUnion hi ?_
  change c.name ∈ names i
  simp only [names, hcs]
  exact List.mem_map_of_mem hmem

lemma finite_fronts (scope : Scope) (t : Tree) (first : Located) :
    (fronts scope t first).Finite := by
  refine ((finite_absoluteNames scope t first).biUnion fun n _ =>
    List.finite_toSet (splitString '.' n).inits).subset ?_
  rintro u ⟨n, hn, hu⟩
  exact Set.mem_biUnion hn ((List.mem_inits _ _).mpr hu)

lemma finite_parts (scope : Scope) (t : Tree) (first : Located) :
    (parts scope t first).Finite := by
  refine ((finite_statements scope t first).biUnion fun i _ =>
    List.finite_toSet (relativeParts i)).subset ?_
  rintro w ⟨i, hi, hw⟩
  exact Set.mem_biUnion hi hw

lemma finite_lists {s : Set String} (hs : s.Finite) (n : ℕ) :
    {ws : List String | (∀ w ∈ ws, w ∈ s) ∧ ws.length ≤ n}.Finite := by
  have : Finite s := hs.to_subtype
  refine ((List.finite_length_le s n).image (List.map Subtype.val)).subset ?_
  rintro ws ⟨hws, hn⟩
  lift ws to List s using hws
  exact ⟨ws, by simpa using hn, rfl⟩

lemma isSolid_init : Path.IsSolid "__init__.py" := ⟨'_', "_init__.py".toList, by decide, by decide⟩

/-- A name that is found has not more solid components than a path has characters. -/
lemma length_le_of_find? {l : Located} {u ws : List String} (h : scope.find? t m = some l)
    (hsplit : splitString '.' m = u ++ ws) (hsolid : ∀ w ∈ ws, Path.IsSolid w) :
    ws.length ≤ Tree.pathLimit := by
  obtain ⟨-, hfile, r, -, hpath⟩ := find?_cases h
  have hlimit := Tree.length_lt_of_isFile hfile
  have hbase : r.baseOf m = ws.foldl Path.joinName (u.foldl Path.joinName r.path) := by
    rw [Root.baseOf, hsplit, List.foldl_append]
  rcases hpath with hpath | hpath
  · -- the last part may lose slashes at its end, the ones before it stay
    rcases List.eq_nil_or_concat ws with rfl | ⟨vs, w, rfl⟩
    · simp
    · rw [List.concat_eq_append] at hsplit hsolid hbase ⊢
      have hw : Path.IsSolid w := hsolid w (by simp)
      have hdot : '.' ∉ w.toList := not_mem_of_mem_splitString (by rw [hsplit]; simp)
      rw [List.foldl_append, List.foldl_cons, List.foldl_nil] at hbase
      obtain ⟨front, htext, hle, hfront⟩ :=
        (vs.foldl Path.joinName (u.foldl Path.joinName r.path)).joinName_solid hw
      rw [← hbase] at htext
      have h1 := Path.length_withExtension "py" htext hw hdot hfront
      have h2 := Path.length_foldl_joinName vs (fun v hv => hsolid v (by simp [hv]))
        (u.foldl Path.joinName r.path)
      rw [← hpath] at h1
      rw [List.length_append, List.length_singleton]
      omega
  · have h1 := (r.baseOf m).length_joinName isSolid_init
    have h2 := Path.length_foldl_joinName ws hsolid (u.foldl Path.joinName r.path)
    rw [← hpath] at h1
    rw [← hbase] at h2
    omega

/-- **The closure is finite** if each part of a relative import makes a path longer. -/
lemma finite_isReached
    (h : ∀ i ∈ statements scope t first, ∀ w ∈ relativeParts i, Path.IsSolid w) :
    {m | IsReached scope t first m}.Finite := by
  have hlists := finite_lists (finite_parts scope t first) Tree.pathLimit
  refine ((Set.finite_singleton first.name).union
    (((finite_fronts scope t first).image2 (· ++ ·) hlists).image Candidate.dotted)).subset ?_
  intro m hm
  by_cases hfirst : m = first.name
  · exact .inl hfirst
  obtain ⟨u, hu, ws, hws, hsplit⟩ := composed_of_isReached hm
  -- a module other than the entry has been found below a root
  have hfound : ∃ l, scope.find? t m = some l := by
    rcases Relation.ReflTransGen.cases_tail hm with heq | ⟨x, -, hdep⟩
    · exact absurd heq hfirst
    · have hsome := hdep.2.2.2
      rw [Scope.module?, if_neg hfirst] at hsome
      exact Option.isSome_iff_exists.mp hsome
  obtain ⟨l, hl⟩ := hfound
  have hsolid : ∀ w ∈ ws, Path.IsSolid w := by
    intro w hw
    obtain ⟨i, hi, hpart⟩ := hws w hw
    exact h i hi w hpart
  refine .inr ⟨u ++ ws, ⟨u, hu, ws, ⟨hws, length_le_of_find? hl hsplit hsolid⟩, rfl⟩, ?_⟩
  rw [← hsplit, dotted_splitString]

end Names

end ContractBuild.Graph

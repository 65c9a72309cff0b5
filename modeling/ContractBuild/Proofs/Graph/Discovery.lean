import Mathlib
import ContractBuild.Proofs.Graph.Consistency

/-!
In which order a search discovers modules: write down what each module visited imports, in the order
of its statements and one module after the other, and keep of each name what is written first.
-/

namespace ContractBuild.Graph

open ContractBuild.Disk ContractBuild.Text

/-! ### Each name once -/

section Once

variable {α : Type} [DecidableEq α] {x : α} {xs ys : List α}

lemma eraseDups_snoc_of_mem (h : x ∈ xs) : (xs ++ [x]).eraseDups = xs.eraseDups := by
  rw [List.eraseDups_append]
  simp [List.removeAll, h]

lemma eraseDups_snoc_of_not_mem (h : x ∉ xs) :
    (xs ++ [x]).eraseDups = xs.eraseDups ++ [x] := by
  rw [List.eraseDups_append]
  simp [List.removeAll, h, List.eraseDups_cons]

lemma eraseDups_prefix (h : xs <+: ys) : xs.eraseDups <+: ys.eraseDups := by
  obtain ⟨zs, rfl⟩ := h
  rw [List.eraseDups_append]
  exact List.prefix_append _ _

end Once

/-! ### The candidates of a module -/

/-- What the import statements in a file may mean, in the order in which they are tried. -/
def candidatesIn (module : Located) (bytes : Bytes) : Except Fault (List Candidate) := do
  let imports ← importsIn module bytes
  return (← imports.mapM (Candidate.ofImport module.name module.isPackage)).flatten

/-- The names that the imports of a module may mean, in the order in which they are tried. -/
def Node.offers (n : Node) : List String :=
  match candidatesIn n.located n.source with
  | .ok cs => cs.map (·.name)
  | .error _ => []

/-- Whether a module imports what a name stands for, if that is among its candidates. -/
def Scope.admits (scope : Scope) (t : Tree) (first : Located) (module name : String) : Bool :=
  !scope.excludes name && name != module && (scope.module? t first name).isSome

section Discovery

variable {scope : Scope} {t : Tree} {first module : Located} {s s' : Search} {found : Found}
  {bytes : Bytes} {cs : List Candidate} {c : Candidate}

lemma candidatesIn_eq_ok : candidatesIn module bytes = .ok cs ↔
    ∃ imports css, importsIn module bytes = .ok imports ∧
      List.Forall₂ (fun i cs => Candidate.ofImport module.name module.isPackage i = .ok cs)
        imports css ∧ cs = css.flatten := by
  unfold candidatesIn
  simp only [except_bind_ok, except_mapM_eq_ok]
  constructor
  · rintro ⟨imports, himports, css, hcss, h⟩
    cases h
    exact ⟨imports, css, himports, hcss, rfl⟩
  · rintro ⟨imports, css, himports, hcss, rfl⟩
    exact ⟨imports, himports, css, hcss, rfl⟩

/-- Where a module lies does not matter for what its imports may mean. -/
lemma candidatesIn_congr {l l' : Located} (hname : l.name = l'.name)
    (hpackage : l.isPackage = l'.isPackage) (h : candidatesIn l bytes = .ok cs) :
    candidatesIn l' bytes = .ok cs := by
  obtain ⟨imports, css, himports, hcss, rfl⟩ := candidatesIn_eq_ok.mp h
  refine candidatesIn_eq_ok.mpr ⟨imports, css, ?_, hname ▸ hpackage ▸ hcss, rfl⟩
  unfold importsIn at himports ⊢
  revert himports
  rcases Utf8.decode bytes with _ | text
  · exact nofun
  · dsimp only
    rcases Python.Module.parse text with _ | parsed
    · exact nofun
    · exact id

lemma Node.offers_eq {n : Node} (h : candidatesIn n.located n.source = .ok cs) :
    n.offers = cs.map (·.name) := by
  rw [Node.offers, h]

/-- The candidates are what the statements in the file of a module mean. -/
lemma isCandidate_iff (hread : t.read module.path = .ok bytes)
    (hcs : candidatesIn module bytes = .ok cs) : IsCandidate t module c ↔ c ∈ cs := by
  obtain ⟨imports, css, himports, hcss, rfl⟩ := candidatesIn_eq_ok.mp hcs
  rw [List.mem_flatten]
  constructor
  · rintro ⟨i, ⟨bytes', imports', hread', himports', hi⟩, hc⟩
    obtain rfl := Except.ok.inj (hread.symm.trans hread')
    obtain rfl := Except.ok.inj (himports.symm.trans himports')
    obtain ⟨k, hk, rfl⟩ := List.getElem_of_mem hi
    have hk' : k < css.length := hcss.length_eq ▸ hk
    exact ⟨css[k], List.getElem_mem hk', (mem_ofImport (hcss.get hk hk') c).mpr hc⟩
  · rintro ⟨cs, hmem, hc⟩
    obtain ⟨k, hk, rfl⟩ := List.getElem_of_mem hmem
    have hk' : k < imports.length := hcss.length_eq ▸ hk
    exact ⟨imports[k], ⟨bytes, imports, hread, himports, List.getElem_mem hk'⟩,
      (mem_ofImport (hcss.get hk' hk) c).mp hc⟩

/-- Following statement by statement is following all their candidates. -/
lemma follow_of_followImport {imports : List Python.Import} {st st' : Search × Found}
    (h : imports.foldlM (followImport (Files.ofTree t) scope module) st = Except.ok st') :
    ∃ css, List.Forall₂ (fun i cs => Candidate.ofImport module.name module.isPackage i = .ok cs)
        imports css ∧
      css.flatten.foldlM (follow (Files.ofTree t) scope module) st = Except.ok st' := by
  induction imports generalizing st with
  | nil => exact ⟨[], .nil, h⟩
  | cons i imports ih =>
    obtain ⟨st₁, h1, h2⟩ := foldlM_cons_ok h
    obtain ⟨cs, hcs, h1⟩ := followImport_eq_ok.mp h1
    obtain ⟨css, hcss, h2⟩ := ih h2
    refine ⟨cs :: css, .cons hcs hcss, ?_⟩
    rw [List.flatten_cons, List.foldlM_append]
    exact bind_eq_ok.mpr ⟨st₁, h1, h2⟩

/-! ### What is discovered -/

/-- A candidate that is admitted is discovered, unless it has been before. -/
lemma Followed.discovered_eq {xs : List String} {st : Search × Found}
    (h : Followed scope t module c s found st)
    (hs : s.discovered = (first.name :: xs).eraseDups) :
    st.1.discovered =
      (first.name :: (xs ++ [c.name].filter (scope.admits t first module.name))).eraseDups := by
  have hmem : ∀ x, x ∈ s.discovered ↔ x ∈ first.name :: xs := by simp [hs]
  have hfirst : first.name ∈ s.discovered := by simp [hs]
  have hskip : scope.admits t first module.name c.name = false →
      (first.name :: (xs ++ [c.name].filter (scope.admits t first module.name))).eraseDups =
        s.discovered := by
    intro hno
    rw [List.filter_singleton, hno, hs]
    simp
  -- a name not discovered is not the entry, so its module is where it is found
  have hfind : c.name ∉ s.discovered → scope.module? t first c.name = scope.find? t c.name := by
    intro hnew
    rw [Scope.module?, if_neg]
    exact fun heq => hnew (heq ▸ hfirst)
  cases h with
  | excluded hex => exact (hskip (by simp [Scope.admits, hex])).symm
  | itself _ hself => exact (hskip (by simp [Scope.admits, hself])).symm
  | known _ _ hd =>
    by_cases hadmitted : scope.admits t first module.name c.name = true
    · rw [List.filter_singleton, hadmitted, cond_true, ← List.cons_append,
        eraseDups_snoc_of_mem ((hmem _).mp hd), ← hs]
    · exact (hskip (Bool.not_eq_true _ ▸ hadmitted)).symm
  | discovered hex hne hd hl hp =>
    have hadmitted : scope.admits t first module.name c.name = true := by
      simp [Scope.admits, hex, hne, hfind hd, hl]
    rw [List.filter_singleton, hadmitted, cond_true, ← List.cons_append,
      eraseDups_snoc_of_not_mem (mt (hmem _).mpr hd), ← hs, ← (checkLocated_frame hp).1]
  | absent _ _ hd hl => exact (hskip (by simp [Scope.admits, hfind hd, hl])).symm

lemma discovered_of_foldlM {xs : List String} {st st' : Search × Found}
    (h : cs.foldlM (follow (Files.ofTree t) scope module) st = Except.ok st')
    (hs : st.1.discovered = (first.name :: xs).eraseDups) :
    st'.1.discovered = (first.name ::
      (xs ++ (cs.map (·.name)).filter (scope.admits t first module.name))).eraseDups := by
  induction cs generalizing st xs with
  | nil =>
    cases h
    simpa using hs
  | cons c cs ih =>
    obtain ⟨st₁, h1, h2⟩ := foldlM_cons_ok h
    have h1 : Followed scope t module c st.1 st.2 st₁ := followed_of_follow h1
    rw [ih h2 (h1.discovered_eq hs), List.append_assoc, ← List.filter_append]
    rfl

/-- A visit reads the candidates of its module and follows all of them. -/
lemma candidates_of_visit (first : Located)
    (h : visit (Files.ofTree t) scope module s = Except.ok s') :
    ∃ n cs, s'.nodes = s.nodes ++ [n] ∧ n.located = module ∧ n.index = s.nodes.length ∧
      candidatesIn n.located n.source = .ok cs ∧ ∀ xs,
        s.discovered = (first.name :: xs).eraseDups → s'.discovered = (first.name ::
          (xs ++ (cs.map (·.name)).filter (scope.admits t first module.name))).eraseDups := by
  obtain ⟨bytes, imports, s₁, found, -, hparse, hf, rfl⟩ := visit_eq_ok.mp h
  obtain ⟨css, hcss, hf⟩ := follow_of_followImport hf
  have hnodes : s₁.nodes = s.nodes :=
    foldlM_preserves (P := fun st => st.1.nodes = s.nodes)
      (fun _ _ _ hc hst => (followed_of_follow hc).nodes.trans hst) hf rfl
  refine ⟨nodeOf module bytes found s₁.nodes.length, css.flatten, by rw [hnodes], rfl, ?_,
    candidatesIn_eq_ok.mpr ⟨imports, css, hparse, hcss, rfl⟩,
    fun xs hxs => discovered_of_foldlM hf hxs⟩
  exact congrArg List.length hnodes

/-- The candidates of every module visited can be read. -/
lemma IsUnderway.exists_candidates (h : IsUnderway scope t first s) :
    ∀ n ∈ s.nodes, ∃ cs, candidatesIn n.located n.source = .ok cs := by
  induction h with
  | start => simp [Search.start]
  | visit _ _ hv ih =>
    obtain ⟨n, cs, hnodes, -, -, hcs, -⟩ := candidates_of_visit first hv
    rw [hnodes]
    intro m hm
    rcases List.mem_append.mp hm with hm | hm
    · exact ih m hm
    · exact ⟨cs, List.mem_singleton.mp hm ▸ hcs⟩

/-- **What a search has discovered** is the entry and what the modules visited import, in the order
in which they are first met. -/
lemma IsUnderway.discovered_eq (h : IsUnderway scope t first s) :
    s.discovered = (first.name :: s.nodes.flatMap fun n =>
      n.offers.filter (scope.admits t first n.name)).eraseDups := by
  induction h with
  | start => simp [Search.start, List.eraseDups_cons]
  | visit _ _ hv ih =>
    obtain ⟨n, cs, hnodes, hlocated, -, hcs, hdiscovered⟩ := candidates_of_visit first hv
    rw [hdiscovered _ ih, hnodes, List.flatMap_append, List.flatMap_singleton,
      Node.offers_eq hcs, ← hlocated]
    rfl

/-- A module imports exactly its candidates that are admitted. -/
lemma IsUnderway.mem_imports (h : IsUnderway scope t first s) (hfrom : ∀ n ∈ s.nodes, n.IsFrom t)
    {n : Node} (hn : n ∈ s.nodes) {x : String} :
    x ∈ n.imports ↔ x ∈ n.offers ∧ scope.admits t first n.name x = true := by
  have hdone := h.holds.done n hn
  obtain ⟨cs, hcs⟩ := h.exists_candidates n hn
  have hcand : ∀ c, IsCandidate t n.located c ↔ c ∈ cs := fun c =>
    isCandidate_iff (hfrom n hn).source hcs
  rw [hdone.imports, Node.offers_eq hcs, List.mem_map]
  simp only [Scope.admits, Bool.and_eq_true, Bool.not_eq_true', bne_iff_ne, DependsOn, and_assoc]
  refine and_congr_left fun _ => ?_
  constructor
  · rintro ⟨module, c, hmod, hc, hx⟩
    obtain rfl : n.located = module := Option.some.inj (hdone.located.symm.trans hmod)
    exact ⟨c, (hcand c).mp hc, hx⟩
  · rintro ⟨c, hc, hx⟩
    exact ⟨n.located, c, hdone.located, (hcand c).mpr hc, hx⟩

/-- A module is visited after one that imports it. -/
lemma IsUnderway.imported_before (h : IsUnderway scope t first s) : ∀ n ∈ s.nodes,
    n.name ≠ first.name → ∃ m ∈ s.nodes, m.index < n.index ∧ n.name ∈ m.imports := by
  induction h with
  | start => simp [Search.start]
  | @visit s s' module rest h hq hv ih =>
    obtain ⟨k, cs, hnodes, hlocated, hindex, -⟩ := candidates_of_visit first hv
    dsimp only at hnodes hindex
    rw [hnodes]
    intro n hn hne
    rcases List.mem_append.mp hn with hn | hn
    · obtain ⟨m, hm, hlt, himports⟩ := ih n hn hne
      exact ⟨m, List.mem_append_left _ hm, hlt, himports⟩
    · obtain rfl := List.mem_singleton.mp hn
      have hname : n.name = module.name := congrArg Located.name hlocated
      have hdiscovered : n.name ∈ s.discovered := by
        rw [h.isOrderly.discovered, hq, hname]
        simp
      obtain ⟨m, hm, himports⟩ := h.imported n.name hdiscovered hne
      obtain ⟨i, hi⟩ := List.mem_iff_getElem?.mp hm
      refine ⟨m, List.mem_append_left _ hm, ?_, himports⟩
      rw [hindex, h.placed i m hi]
      exact (List.getElem?_eq_some_iff.mp hi).1

end Discovery

end ContractBuild.Graph

import Mathlib
import ContractBuild.Graph.Resolve
import ContractBuild.Proofs.Graph.Candidate
import ContractBuild.Proofs.Program
import ContractBuild.Proofs.Text.Sorted

/-!
The search over a tree that nobody changes: what one candidate, one statement, one module and one
whole search do, and what holds after each.

The names discovered are, in this order, those of the modules visited, of the one being visited and
of those in the queue.
-/

namespace ContractBuild.Graph

open ContractBuild.Disk ContractBuild.Text

/-! ### What is imported -/

/-- The file of a name below the roots. -/
def Scope.find? (scope : Scope) (t : Tree) (name : String) : Option Located :=
  locate (Files.ofTree t) name scope.roots

/-- Whether some root has a directory of the name. -/
def Scope.hasDirectory (scope : Scope) (t : Tree) (name : String) : Bool :=
  isNamespace (Files.ofTree t) name scope.roots

lemma locate_cons (t : Tree) (name : String) (r : Root) (rest : List Root) :
    locate (Files.ofTree t) name (r :: rest) =
      (if t.isFile ((r.baseOf name).withExtension "py") then
        some ⟨name, (r.baseOf name).withExtension "py", false, r.originOf name⟩
      else if t.isFile ((r.baseOf name).joinName "__init__.py") then
        some ⟨name, (r.baseOf name).joinName "__init__.py", true, r.originOf name⟩
      else locate (Files.ofTree t) name rest : Option Located) := by
  rw [locate]
  generalize (r.baseOf name).withExtension "py" = p
  generalize (r.baseOf name).joinName "__init__.py" = q
  rfl

/-- A file is found below one of the roots, as a module or as a package. -/
lemma find?_cases {scope : Scope} {t : Tree} {name : String} {l : Located}
    (h : scope.find? t name = some l) : l.name = name ∧ t.isFile l.path = true ∧
      ∃ r ∈ scope.roots, l.path = (r.baseOf name).withExtension "py" ∨
        l.path = (r.baseOf name).joinName "__init__.py" := by
  unfold Scope.find? at h
  generalize scope.roots = roots at h ⊢
  induction roots with
  | nil => cases h
  | cons r rest ih =>
    rw [locate_cons] at h
    by_cases h1 : t.isFile ((r.baseOf name).withExtension "py") = true
    · rw [if_pos h1] at h
      obtain rfl := Option.some.inj h
      dsimp only
      exact ⟨rfl, h1, r, List.mem_cons_self, .inl rfl⟩
    rw [if_neg h1] at h
    by_cases h2 : t.isFile ((r.baseOf name).joinName "__init__.py") = true
    · rw [if_pos h2] at h
      obtain rfl := Option.some.inj h
      dsimp only
      exact ⟨rfl, h2, r, List.mem_cons_self, .inr rfl⟩
    rw [if_neg h2] at h
    obtain ⟨hn, hf, r', hr, hp⟩ := ih h
    exact ⟨hn, hf, r', List.mem_cons_of_mem _ hr, hp⟩

/-- The module of a name: the entry module is where the search started. -/
def Scope.module? (scope : Scope) (t : Tree) (first : Located) (name : String) : Option Located :=
  if name = first.name then some first else scope.find? t name

lemma module?_name {scope : Scope} {t : Tree} {first l : Located} {name : String}
    (h : scope.module? t first name = some l) : l.name = name := by
  unfold Scope.module? at h
  split_ifs at h with hn
  · cases h; exact hn.symm
  · exact (find?_cases h).1

/-- An import statement in the file of a module. -/
def HasImport (t : Tree) (module : Located) (i : Python.Import) : Prop :=
  ∃ bytes imports, t.read module.path = .ok bytes ∧ importsIn module bytes = .ok imports ∧
    i ∈ imports

/-- What an import statement of a module may mean. -/
def IsCandidate (t : Tree) (module : Located) (c : Candidate) : Prop :=
  ∃ i, HasImport t module i ∧ Means module.name module.isPackage i c

/-- A module depends on the others that its import statements mean, unless these are left out. -/
def DependsOn (scope : Scope) (t : Tree) (first : Located) (m n : String) : Prop :=
  (∃ module c, scope.module? t first m = some module ∧ IsCandidate t module c ∧ c.name = n) ∧
    scope.excludes n = false ∧ n ≠ m ∧ (scope.module? t first n).isSome = true

/-- The modules that the entry module leads to, itself included. -/
def IsReached (scope : Scope) (t : Tree) (first : Located) : String → Prop :=
  Relation.ReflTransGen (DependsOn scope t first) first.name

/-! ### One candidate -/

/-- What following a candidate can do. -/
inductive Followed (scope : Scope) (t : Tree) (module : Located) (c : Candidate) (s : Search)
    (found : Found) : Search × Found → Prop where
  | excluded (h : scope.excludes c.name = true) : Followed scope t module c s found
      (s, { found with excluded := insertSorted c.name found.excluded })
  | itself (h : scope.excludes c.name = false) (hc : c.name = module.name) :
      Followed scope t module c s found (s, found)
  | known (h : scope.excludes c.name = false) (hc : c.name ≠ module.name)
      (hd : c.name ∈ s.discovered) : Followed scope t module c s found
      (s, { found with imports := insertSorted c.name found.imports })
  | discovered {l : Located} {s' : Search} (h : scope.excludes c.name = false)
      (hc : c.name ≠ module.name) (hd : c.name ∉ s.discovered)
      (hl : scope.find? t c.name = some l) (hp : checkLocated scope module.name l s = .ok s') :
      Followed scope t module c s found
        ({ s' with discovered := s'.discovered ++ [c.name], queue := s'.queue ++ [l] },
          { found with imports := insertSorted c.name found.imports })
  | absent (h : scope.excludes c.name = false) (hc : c.name ≠ module.name)
      (hd : c.name ∉ s.discovered) (hl : scope.find? t c.name = none)
      (hr : c.isRequired = true → scope.hasDirectory t c.name = true) :
      Followed scope t module c s found (s, found)

lemma follow_ofTree (t : Tree) (scope : Scope) (module : Located) (s : Search) (found : Found)
    (c : Candidate) : follow (Files.ofTree t) scope module (s, found) c =
      (if scope.excludes c.name then
        Except.ok (s, { found with excluded := insertSorted c.name found.excluded })
      else if c.name = module.name then Except.ok (s, found)
      else if s.discovered.contains c.name then
        Except.ok (s, { found with imports := insertSorted c.name found.imports })
      else match scope.find? t c.name with
        | some l => (checkLocated scope module.name l s).map fun s =>
          ({ s with discovered := s.discovered ++ [c.name], queue := s.queue ++ [l] },
            { found with imports := insertSorted c.name found.imports })
        | none =>
          if !c.isRequired then Except.ok (s, found)
          else if scope.hasDirectory t c.name then Except.ok (s, found)
          else Except.error (.unresolvedImport module.name c.name module.path.text c.line)) := by
  unfold follow Scope.find? Scope.hasDirectory
  generalize locate (Files.ofTree t) c.name scope.roots = l
  generalize isNamespace (Files.ofTree t) c.name scope.roots = d
  rcases l with _ | l
  · rfl
  · refine ite_congr rfl (fun _ => rfl) fun _ => ite_congr rfl (fun _ => rfl) fun _ =>
      ite_congr rfl (fun _ => rfl) fun _ => ?_
    change ((liftM (checkLocated scope module.name l s) : ExceptT Fault Id Search) >>= _) =
      (checkLocated scope module.name l s).map _
    cases checkLocated scope module.name l s <;> rfl

lemma followed_of_follow {t : Tree} {scope : Scope} {module : Located} {s : Search}
    {found : Found} {c : Candidate} {st : Search × Found}
    (h : follow (Files.ofTree t) scope module (s, found) c = Except.ok st) :
    Followed scope t module c s found st := by
  rw [follow_ofTree] at h
  by_cases h1 : scope.excludes c.name = true
  · rw [if_pos h1] at h
    cases h
    exact .excluded h1
  rw [if_neg h1] at h
  rw [Bool.not_eq_true] at h1
  by_cases h2 : c.name = module.name
  · rw [if_pos h2] at h
    cases h
    exact .itself h1 h2
  rw [if_neg h2] at h
  by_cases h3 : s.discovered.contains c.name = true
  · rw [if_pos h3] at h
    cases h
    exact .known h1 h2 (List.contains_iff_mem.mp h3)
  rw [if_neg h3] at h
  rw [List.contains_iff_mem] at h3
  rcases hl : scope.find? t c.name with _ | l
  · simp only [hl] at h
    split_ifs at h with h4 h5
    · cases h
      exact .absent h1 h2 h3 hl (by simp_all)
    · cases h
      exact .absent h1 h2 h3 hl fun _ => h5
  · simp only [hl] at h
    rcases hp : checkLocated scope module.name l s with f | s'
    · rw [hp] at h; cases h
    · rw [hp] at h
      cases h
      exact .discovered h1 h2 h3 hl hp

lemma follow_of_followed {t : Tree} {scope : Scope} {module : Located} {s : Search}
    {found : Found} {c : Candidate} {st : Search × Found}
    (h : Followed scope t module c s found st) :
    follow (Files.ofTree t) scope module (s, found) c = Except.ok st := by
  rw [follow_ofTree]
  cases h with
  | excluded h => rw [if_pos h]
  | itself h hc => rw [h, if_neg Bool.false_ne_true, if_pos hc]
  | known h hc hd =>
    rw [h, if_neg Bool.false_ne_true, if_neg hc, if_pos (List.contains_iff_mem.mpr hd)]
  | discovered h hc hd hl hp =>
    rw [h, if_neg Bool.false_ne_true, if_neg hc, if_neg (mt List.contains_iff_mem.mp hd), hl]
    dsimp only
    rw [hp]
    rfl
  | absent h hc hd hl hr =>
    rw [h, if_neg Bool.false_ne_true, if_neg hc, if_neg (mt List.contains_iff_mem.mp hd), hl]
    dsimp only
    cases hreq : c.isRequired with
    | false => rfl
    | true => rw [hr hreq]; rfl

lemma checkPins_frame {importer : String} {l : Located} {d : Option Distribution}
    {pins : List (Version.Pin × ℕ)} {s s' : Search} (h : checkPins importer l d s pins = .ok s') :
    s'.discovered = s.discovered ∧ s'.queue = s.queue ∧ s'.nodes = s.nodes := by
  induction pins generalizing s with
  | nil => cases h; exact ⟨rfl, rfl, rfl⟩
  | cons p pins ih =>
    obtain ⟨pin, i⟩ := p
    rw [checkPins] at h
    split_ifs at h with hp
    · rcases hw : checkPin importer l.name d pin with f | ws
      · rw [hw] at h; cases h
      · rw [hw] at h
        have hrest : checkPins importer l d { s with
            checked := s.checked ++ [i], warnings := s.warnings ++ ws } pins = .ok s' := h
        have hframe := ih hrest
        exact hframe
    · exact ih h

/-- Checking pins changes neither the modules nor the queue. -/
lemma checkLocated_frame {scope : Scope} {importer : String} {l : Located} {s s' : Search}
    (h : checkLocated scope importer l s = .ok s') :
    s'.discovered = s.discovered ∧ s'.queue = s.queue ∧ s'.nodes = s.nodes := by
  unfold checkLocated at h
  split at h
  · cases h; exact ⟨rfl, rfl, rfl⟩
  · exact checkPins_frame h

/-! ### What holds of a search -/

/-- Where the module of a node lies. -/
def Node.located (n : Node) : Located := ⟨n.name, n.path, n.isPackage, n.origin⟩

section Invariant

variable (scope : Scope) (t : Tree) (first : Located)

/-- A node tells exactly what its module imports. -/
structure Done (discovered : List String) (n : Node) : Prop where
  located : scope.module? t first n.name = some n.located
  imports : ∀ x, x ∈ n.imports ↔ DependsOn scope t first n.name x
  excluded : ∀ x, x ∈ n.excluded ↔
    (∃ c, IsCandidate t n.located c ∧ c.name = x) ∧ scope.excludes x = true
  kept : ∀ x ∈ n.imports, x ∈ discovered
  required : ∀ c, IsCandidate t n.located c → c.isRequired = true → c.name ∈ discovered ∨
    scope.excludes c.name = true ∨ c.name = n.name ∨ scope.hasDirectory t c.name = true

/-- What holds while the modules `active` are being visited. -/
structure Holds (active : List Located) (s : Search) : Prop where
  order : s.discovered = s.nodes.map (·.name) ++ (active ++ s.queue).map (·.name)
  nodup : s.discovered.Nodup
  entry : first.name ∈ s.discovered
  waiting : ∀ l ∈ active ++ s.queue, scope.module? t first l.name = some l
  reached : ∀ x ∈ s.discovered, IsReached scope t first x
  admitted : ∀ x ∈ s.discovered, x ≠ first.name → scope.excludes x = false
  done : ∀ n ∈ s.nodes, Done scope t first s.discovered n

/-- The names are those of the candidates that have a property. -/
def Lists (P : String → Prop) (seen : List Candidate) (names : List String) : Prop :=
  ∀ x, x ∈ names ↔ (∃ c ∈ seen, c.name = x) ∧ P x

/-- What holds of a module once the candidates `seen` have been followed. -/
structure Following (module : Located) (seen : List Candidate) (s : Search) (found : Found) :
    Prop where
  holds : Holds scope t first [module] s
  imports : Lists (fun x => scope.excludes x = false ∧ x ≠ module.name ∧
    (scope.module? t first x).isSome = true) seen found.imports
  excluded : Lists (fun x => scope.excludes x = true) seen found.excluded
  kept : ∀ x ∈ found.imports, x ∈ s.discovered
  required : ∀ c ∈ seen, c.isRequired = true → c.name ∈ s.discovered ∨
    scope.excludes c.name = true ∨ c.name = module.name ∨ scope.hasDirectory t c.name = true

variable {scope t first} {s : Search} {active : List Located} {module : Located}
  {seen : List Candidate} {found : Found} {c : Candidate}

lemma Done.mono {discovered more : List String} {n : Node} (h : Done scope t first discovered n)
    (hsub : discovered ⊆ more) : Done scope t first more n :=
  ⟨h.located, h.imports, h.excluded, fun x hx => hsub (h.kept x hx),
    fun c hc hr => (h.required c hc hr).imp_left (@hsub _)⟩

/-- Every name discovered has a module. -/
lemma Holds.isSome_module? (h : Holds scope t first active s) {x : String}
    (hx : x ∈ s.discovered) : (scope.module? t first x).isSome = true := by
  rw [h.order, List.mem_append] at hx
  rcases hx with hx | hx
  · obtain ⟨n, hn, rfl⟩ := List.mem_map.mp hx
    rw [(h.done n hn).located]; rfl
  · obtain ⟨l, hl, rfl⟩ := List.mem_map.mp hx
    rw [h.waiting l hl]; rfl

/-- A name not discovered is not the entry, so its module is where it is found. -/
lemma Holds.module?_eq (h : Holds scope t first active s) {x : String}
    (hx : x ∉ s.discovered) : scope.module? t first x = scope.find? t x := by
  rw [Scope.module?, if_neg]
  rintro rfl
  exact hx h.entry

lemma Holds.discover (h : Holds scope t first [module] s) {l : Located} {s' : Search}
    (hc : IsCandidate t module c) (hex : scope.excludes c.name = false)
    (hne : c.name ≠ module.name) (hnew : c.name ∉ s.discovered)
    (hl : scope.find? t c.name = some l) (hp : checkLocated scope module.name l s = .ok s') :
    Holds scope t first [module]
      { s' with discovered := s'.discovered ++ [c.name], queue := s'.queue ++ [l] } := by
  obtain ⟨hd, hq, hn⟩ := checkLocated_frame hp
  have hmod : scope.module? t first c.name = some l := by rw [h.module?_eq hnew, hl]
  have hname : l.name = c.name := module?_name hmod
  have hself : scope.module? t first module.name = some module :=
    h.waiting module (by simp)
  have hdep : DependsOn scope t first module.name c.name :=
    ⟨⟨module, c, hself, hc, rfl⟩, hex, hne, by rw [hmod]; rfl⟩
  have hmodule : module.name ∈ s.discovered := by rw [h.order]; simp
  refine ⟨?_, ?_, ?_, ?_, ?_, ?_, ?_⟩
  · simp [hd, hq, hn, h.order, hname]
  · simp only [hd]
    exact List.nodup_append.mpr ⟨h.nodup, by simp, by rintro a ha b hb rfl; simp_all⟩
  · simp [hd, h.entry]
  · intro k hk
    rw [hq, ← List.append_assoc, List.mem_append, List.mem_singleton] at hk
    rcases hk with hk | rfl
    · exact h.waiting k hk
    · rw [hname, hmod]
  · intro x hx
    simp only [hd, List.mem_append, List.mem_singleton] at hx
    rcases hx with hx | rfl
    · exact h.reached x hx
    · exact (h.reached _ hmodule).tail hdep
  · intro x hx hxe
    simp only [hd, List.mem_append, List.mem_singleton] at hx
    rcases hx with hx | rfl
    · exact h.admitted x hx hxe
    · exact hex
  · intro n hmem
    simp only [hn] at hmem
    exact (h.done n hmem).mono (by simp [hd])

lemma exists_name_append {x : String} :
    (∃ d ∈ seen ++ [c], d.name = x) ↔ (∃ d ∈ seen, d.name = x) ∨ x = c.name := by
  simp only [List.mem_append, List.mem_singleton]
  constructor
  · rintro ⟨d, hd | rfl, rfl⟩
    · exact .inl ⟨d, hd, rfl⟩
    · exact .inr rfl
  · rintro (⟨d, hd, rfl⟩ | rfl)
    · exact ⟨d, .inl hd, rfl⟩
    · exact ⟨c, .inr rfl, rfl⟩

lemma Lists.add {P : String → Prop} {names : List String} (h : Lists P seen names)
    (hc : P c.name) : Lists P (seen ++ [c]) (insertSorted c.name names) := by
  intro x
  rw [mem_insertSorted, exists_name_append, h x]
  constructor
  · rintro (rfl | ⟨hx, hP⟩)
    · exact ⟨.inr rfl, hc⟩
    · exact ⟨.inl hx, hP⟩
  · rintro ⟨hx | rfl, hP⟩
    · exact .inr ⟨hx, hP⟩
    · exact .inl rfl

lemma Lists.skip {P : String → Prop} {names : List String} (h : Lists P seen names)
    (hc : ¬ P c.name) : Lists P (seen ++ [c]) names := by
  intro x
  rw [exists_name_append, h x]
  constructor
  · rintro ⟨hx, hP⟩
    exact ⟨.inl hx, hP⟩
  · rintro ⟨hx | rfl, hP⟩
    · exact ⟨hx, hP⟩
    · exact absurd hP hc

lemma forall_mem_snoc {P : Candidate → Prop} (h : ∀ d ∈ seen, P d) (hc : P c) :
    ∀ d ∈ seen ++ [c], P d := by
  intro d hd
  rcases List.mem_append.mp hd with hd | hd
  · exact h d hd
  · rw [List.mem_singleton.mp hd]
    exact hc

/-- Following one more candidate. -/
lemma Following.follow (h : Following scope t first module seen s found)
    (hc : IsCandidate t module c) {st : Search × Found}
    (hf : Followed scope t module c s found st) :
    Following scope t first module (seen ++ [c]) st.1 st.2 := by
  cases hf with
  | excluded hex =>
    exact ⟨h.holds, h.imports.skip (by simp [hex]), h.excluded.add hex, h.kept,
      forall_mem_snoc h.required fun _ => .inr (.inl hex)⟩
  | itself hex hself =>
    exact ⟨h.holds, h.imports.skip (by simp [hself]), h.excluded.skip (by simp [hex]), h.kept,
      forall_mem_snoc h.required fun _ => .inr (.inr (.inl hself))⟩
  | known hex hne hd =>
    refine ⟨h.holds, h.imports.add ⟨hex, hne, h.holds.isSome_module? hd⟩,
      h.excluded.skip (by simp [hex]), ?_, forall_mem_snoc h.required fun _ => .inl hd⟩
    intro x hx
    rcases mem_insertSorted.mp hx with rfl | hx
    · exact hd
    · exact h.kept x hx
  | @discovered l s' hex hne hd hl hp =>
    have hsome : (scope.module? t first c.name).isSome = true := by
      rw [h.holds.module?_eq hd, hl]; rfl
    have hsub : ∀ x ∈ s.discovered, x ∈ s'.discovered ++ [c.name] := by
      intro x hx
      rw [(checkLocated_frame hp).1]
      exact List.mem_append_left _ hx
    refine ⟨h.holds.discover hc hex hne hd hl hp, h.imports.add ⟨hex, hne, hsome⟩,
      h.excluded.skip (by simp [hex]), ?_, forall_mem_snoc ?_ fun _ => .inl (by simp)⟩
    · intro x hx
      rcases mem_insertSorted.mp hx with rfl | hx
      · simp
      · exact hsub x (h.kept x hx)
    · exact fun d hd hr => (h.required d hd hr).imp_left (hsub _)
  | absent hex hne hd hl hr =>
    have hnone : scope.module? t first c.name = none := by rw [h.holds.module?_eq hd, hl]
    exact ⟨h.holds, h.imports.skip (by simp [hnone]), h.excluded.skip (by simp [hex]), h.kept,
      forall_mem_snoc h.required fun hreq => .inr (.inr (.inr (hr hreq)))⟩

/-- Following the candidates of a statement. -/
lemma Following.foldlM {cs : List Candidate} (h : Following scope t first module seen s found)
    (hcs : ∀ c ∈ cs, IsCandidate t module c) {st : Search × Found}
    (hf : cs.foldlM (Graph.follow (Files.ofTree t) scope module) (s, found) = Except.ok st) :
    Following scope t first module (seen ++ cs) st.1 st.2 := by
  induction cs generalizing seen s found with
  | nil =>
    cases hf
    rw [List.append_nil]
    exact h
  | cons c cs ih =>
    obtain ⟨⟨s₁, found₁⟩, h1, h2⟩ := foldlM_cons_ok hf
    have hstep := h.follow (hcs c List.mem_cons_self) (followed_of_follow h1)
    have hrest := ih hstep (fun d hd => hcs d (List.mem_cons_of_mem _ hd)) h2
    rwa [List.append_assoc, List.singleton_append] at hrest

lemma followImport_eq_ok {st st' : Search × Found} {i : Python.Import} :
    followImport (Files.ofTree t) scope module st i = Except.ok st' ↔
      ∃ cs, Candidate.ofImport module.name module.isPackage i = .ok cs ∧
        cs.foldlM (Graph.follow (Files.ofTree t) scope module) st = Except.ok st' :=
  bind_eq_ok.trans (exists_congr fun _ => and_congr_left fun _ => lift_eq_ok)

/-- Following the statements of a module, which are among `all`. -/
lemma Following.imports_foldlM {bytes : Bytes} {all imports : List Python.Import}
    (hread : t.read module.path = .ok bytes) (hparse : importsIn module bytes = .ok all)
    (hsub : ∀ i ∈ imports, i ∈ all) (h : Following scope t first module seen s found)
    {st : Search × Found}
    (hf : imports.foldlM (followImport (Files.ofTree t) scope module) (s, found) = Except.ok st) :
    ∃ more, Following scope t first module (seen ++ more) st.1 st.2 ∧
      (∀ c ∈ more, IsCandidate t module c) ∧
      ∀ i ∈ imports, ∀ c, Means module.name module.isPackage i c → c ∈ more := by
  induction imports generalizing seen s found with
  | nil =>
    cases hf
    exact ⟨[], by simpa using h, by simp, by simp⟩
  | cons i imports ih =>
    obtain ⟨⟨s₁, found₁⟩, h1, h2⟩ := foldlM_cons_ok hf
    obtain ⟨cs, hcs, h1⟩ := followImport_eq_ok.mp h1
    have hcand : ∀ c ∈ cs, IsCandidate t module c := fun c hc =>
      ⟨i, ⟨bytes, all, hread, hparse, hsub i List.mem_cons_self⟩, (mem_ofImport hcs c).mp hc⟩
    obtain ⟨more, hmore, hall, hin⟩ :=
      ih (fun j hj => hsub j (List.mem_cons_of_mem _ hj)) (h.foldlM hcand h1) h2
    refine ⟨cs ++ more, by rwa [← List.append_assoc], ?_, ?_⟩
    · intro c hc
      rcases List.mem_append.mp hc with hc | hc
      · exact hcand c hc
      · exact hall c hc
    · intro j hj c hc
      rcases List.mem_cons.mp hj with rfl | hj
      · exact List.mem_append_left _ ((mem_ofImport hcs c).mpr hc)
      · exact List.mem_append_right _ (hin j hj c hc)

/-! ### Modules and searches -/

/-- The node of a module whose imports have been followed. -/
def nodeOf (module : Located) (bytes : Bytes) (found : Found) (index : ℕ) : Node where
  name := module.name
  path := module.path
  digest := Digest.sha256Hex bytes
  source := bytes
  isPackage := module.isPackage
  origin := module.origin
  imports := found.imports
  excluded := found.excluded
  index := index

lemma visit_eq_ok {s' : Search} : visit (Files.ofTree t) scope module s = Except.ok s' ↔
    ∃ bytes imports s₁ found, t.read module.path = .ok bytes ∧
      importsIn module bytes = .ok imports ∧
      imports.foldlM (followImport (Files.ofTree t) scope module) (s, {}) =
        Except.ok (s₁, found) ∧
      s' = { s₁ with nodes := s₁.nodes ++ [nodeOf module bytes found s₁.nodes.length] } := by
  constructor
  · intro h
    obtain ⟨r, hr, h⟩ := bind_eq_ok.mp h
    obtain rfl : t.read module.path = r := by cases hr; rfl
    rcases hread : t.read module.path with f | bytes
    · rw [hread] at h; cases h
    · rw [hread] at h
      obtain ⟨imports, hi, h⟩ := bind_eq_ok.mp h
      obtain ⟨⟨s₁, found⟩, hf, h⟩ := bind_eq_ok.mp h
      cases h
      exact ⟨bytes, imports, s₁, found, rfl, lift_eq_ok.mp hi, hf, rfl⟩
  · rintro ⟨bytes, imports, s₁, found, hread, hi, hf, rfl⟩
    refine bind_eq_ok.mpr ⟨.ok bytes, lift_id_eq_ok.mpr hread, ?_⟩
    exact bind_eq_ok.mpr ⟨imports, lift_eq_ok.mpr hi, bind_eq_ok.mpr ⟨(s₁, found), hf, rfl⟩⟩

/-- What every candidate preserves holds when the node of a module is added. -/
lemma visit_preserves {P : Search × Found → Prop} {s' : Search}
    (hstep : ∀ s found c st, Followed scope t module c s found st → P (s, found) → P st)
    (h : visit (Files.ofTree t) scope module s = Except.ok s') (hs : P (s, {})) :
    ∃ bytes s₁ found, t.read module.path = .ok bytes ∧ P (s₁, found) ∧
      s' = { s₁ with nodes := s₁.nodes ++ [nodeOf module bytes found s₁.nodes.length] } := by
  obtain ⟨bytes, imports, s₁, found, hread, -, hf, rfl⟩ := visit_eq_ok.mp h
  refine ⟨bytes, s₁, found, hread, foldlM_preserves (fun st i st' hi hst => ?_) hf hs, rfl⟩
  obtain ⟨cs, -, hcs⟩ := followImport_eq_ok.mp hi
  exact foldlM_preserves (fun st c st' hc => hstep st.1 st.2 c st' (followed_of_follow hc)) hcs hst

lemma Followed.nodes {st : Search × Found} (h : Followed scope t module c s found st) :
    st.1.nodes = s.nodes := by
  cases h with
  | discovered _ _ _ _ hp => exact (checkLocated_frame hp).2.2
  | _ => rfl

/-- A visit adds the node of its module. -/
lemma nodes_of_visit {s' : Search} (h : visit (Files.ofTree t) scope module s = Except.ok s') :
    ∃ bytes found, t.read module.path = .ok bytes ∧
      s'.nodes = s.nodes ++ [nodeOf module bytes found s.nodes.length] := by
  obtain ⟨bytes, s₁, found, hread, hnodes, rfl⟩ :=
    visit_preserves (P := fun st => st.1.nodes = s.nodes) (fun _ _ _ _ hf h => hf.nodes.trans h)
      h rfl
  exact ⟨bytes, found, hread, by rw [← hnodes]⟩

/-- Visiting the module in front of the queue. -/
lemma Holds.visit {rest : List Located} {s' : Search}
    (h : Holds scope t first [] s) (hq : s.queue = module :: rest)
    (hv : Graph.visit (Files.ofTree t) scope module { s with queue := rest } = Except.ok s') :
    Holds scope t first [] s' := by
  obtain ⟨bytes, imports, s₁, found, hread, hparse, hf, rfl⟩ := visit_eq_ok.mp hv
  have hstart : Holds scope t first [module] { s with queue := rest } := by
    refine ⟨?_, h.nodup, h.entry, ?_, h.reached, h.admitted, h.done⟩
    · rw [h.order, hq]; rfl
    · intro l hl
      exact h.waiting l (by rw [hq]; exact hl)
  have hnone : Following scope t first module [] { s with queue := rest } {} :=
    ⟨hstart, fun x => by simp, fun x => by simp, by simp, by simp⟩
  obtain ⟨more, hmore, hcand, hall⟩ :=
    hnone.imports_foldlM hread hparse (fun i hi => hi) hf
  rw [List.nil_append] at hmore
  have hself : scope.module? t first module.name = some module :=
    hmore.holds.waiting module (by simp)
  -- the candidates followed are those of the module
  have hiff : ∀ c, IsCandidate t module c ↔ c ∈ more := by
    intro c
    constructor
    · rintro ⟨i, ⟨bytes', imports', hread', hparse', hi⟩, hc⟩
      obtain rfl := Except.ok.inj (hread.symm.trans hread')
      obtain rfl := Except.ok.inj (hparse.symm.trans hparse')
      exact hall i hi c hc
    · exact hcand c
  have hnames : ∀ x, (∃ c ∈ more, c.name = x) ↔ ∃ c, IsCandidate t module c ∧ c.name = x := by
    intro x
    exact exists_congr fun c => and_congr_left fun _ => (hiff c).symm
  have hdone : Done scope t first s₁.discovered
      (nodeOf module bytes found s₁.nodes.length) := by
    refine ⟨hself, fun x => ?_, fun x => ?_, hmore.kept, fun c hc => ?_⟩
    · rw [show (nodeOf module bytes found s₁.nodes.length).imports = found.imports from rfl,
        hmore.imports x, hnames x]
      refine and_congr_left fun _ => ⟨fun ⟨c, hc, hx⟩ => ⟨module, c, hself, hc, hx⟩, ?_⟩
      rintro ⟨module', c, hm, hc, hx⟩
      obtain rfl : module = module' := Option.some.inj (hself.symm.trans hm)
      exact ⟨c, hc, hx⟩
    · rw [show (nodeOf module bytes found s₁.nodes.length).excluded = found.excluded from rfl,
        hmore.excluded x, hnames x]
      rfl
    · exact hmore.required c ((hiff c).mp hc)
  have hholds := hmore.holds
  refine ⟨?_, hholds.nodup, hholds.entry, ?_, hholds.reached, hholds.admitted, ?_⟩
  · rw [hholds.order]
    simp [nodeOf]
  · exact fun l hl => hholds.waiting l (List.mem_append_right _ hl)
  · intro n hn
    rcases List.mem_append.mp hn with hn | hn
    · exact hholds.done n hn
    · rw [List.mem_singleton.mp hn]
      exact hdone

lemma explore_nil (fuel : ℕ) (hq : s.queue = []) :
    explore (Files.ofTree t) scope fuel s = Except.ok s := by
  rw [explore.eq_def]
  dsimp only
  rw [hq]
  rfl

lemma explore_zero {rest : List Located} (hq : s.queue = module :: rest) :
    explore (Files.ofTree t) scope 0 s = Except.error .unfinished := by
  rw [explore.eq_def]
  dsimp only
  rw [hq]
  rfl

lemma explore_cons {fuel : ℕ} {rest : List Located} (hq : s.queue = module :: rest) :
    explore (Files.ofTree t) scope (fuel + 1) s =
      Graph.visit (Files.ofTree t) scope module { s with queue := rest } >>=
        explore (Files.ofTree t) scope fuel := by
  rw [explore.eq_def]
  dsimp only
  rw [hq]

/-- What every visit preserves holds at the end of a search, and nothing is left in the queue. -/
lemma explore_keeps {P : Search → Prop}
    (hvisit : ∀ s module rest s', s.queue = module :: rest →
      Graph.visit (Files.ofTree t) scope module { s with queue := rest } = Except.ok s' →
        P s → P s')
    {fuel : ℕ} {s' : Search} (hs : P s)
    (he : explore (Files.ofTree t) scope fuel s = Except.ok s') : P s' ∧ s'.queue = [] := by
  induction fuel generalizing s with
  | zero =>
    rcases hq : s.queue with _ | ⟨module, rest⟩
    · rw [explore_nil 0 hq] at he
      cases he
      exact ⟨hs, hq⟩
    · rw [explore_zero hq] at he
      cases he
  | succ fuel ih =>
    rcases hq : s.queue with _ | ⟨module, rest⟩
    · rw [explore_nil (fuel + 1) hq] at he
      cases he
      exact ⟨hs, hq⟩
    · rw [explore_cons hq] at he
      obtain ⟨s₁, hv, he⟩ := bind_eq_ok.mp he
      exact ih (hvisit s module rest s₁ hq hv hs) he

/-- The node has what was read from its file. -/
structure Node.IsFrom (t : Tree) (n : Node) : Prop where
  source : t.read n.path = .ok n.source
  digest : n.digest = Digest.sha256Hex n.source

lemma isFrom_of_explore {fuel : ℕ}
    (h : explore (Files.ofTree t) scope fuel (.start first) = Except.ok s) :
    ∀ n ∈ s.nodes, n.IsFrom t := by
  refine (explore_keeps (P := fun s => ∀ n ∈ s.nodes, n.IsFrom t) ?_ (by simp [Search.start]) h).1
  intro s module rest s' hq hv hs n hn
  obtain ⟨bytes, found, hread, hnodes⟩ := nodes_of_visit hv
  rw [hnodes] at hn
  rcases List.mem_append.mp hn with hn | hn
  · exact hs n hn
  · rw [List.mem_singleton.mp hn]
    exact ⟨hread, rfl⟩

/-- A search that ends leaves nothing in the queue. -/
lemma Holds.explore {fuel : ℕ} {s' : Search} (h : Holds scope t first [] s)
    (he : Graph.explore (Files.ofTree t) scope fuel s = Except.ok s') :
    Holds scope t first [] s' ∧ s'.queue = [] :=
  explore_keeps (fun _ _ _ _ hq hv hs => hs.visit hq hv) h he

/-- At the end, the names discovered hold the entry and are closed under imports. -/
lemma Holds.mem_of_isReached (h : Holds scope t first [] s) (hq : s.queue = []) {x : String}
    (hx : IsReached scope t first x) : x ∈ s.discovered := by
  induction hx with
  | refl => exact h.entry
  | @tail y z _ hdep ih =>
    rw [h.order, hq] at ih
    obtain ⟨n, hn, rfl⟩ := List.mem_map.mp (by simpa using ih)
    have hdone := h.done n hn
    exact hdone.kept z ((hdone.imports z).mpr hdep)

lemma holds_start (scope : Scope) (t : Tree) (first : Located) :
    Holds scope t first [] (.start first) := by
  refine ⟨rfl, by simp [Search.start], by simp [Search.start], ?_, ?_, ?_, by simp [Search.start]⟩
  · intro l hl
    obtain rfl : l = first := by simpa [Search.start] using hl
    rw [Scope.module?, if_pos rfl]
  · intro x hx
    obtain rfl : x = first.name := by simpa [Search.start] using hx
    exact .refl
  · intro x hx hne
    exact absurd (by simpa [Search.start] using hx) hne

end Invariant

/-! ### The graph of a search -/

/-- The nodes are in order, hold the entry and all that is imported, and are all reached. -/
structure IsConsistent (entry : String) (nodes : List Node) : Prop where
  ordered : misplaced? nodes = none
  hasEntry : nodes.any (·.name == entry) = true
  known : unknown? nodes = none
  allReached : ∀ n ∈ nodes, n.name ∈ reached entry nodes

/-- Consistent nodes make up a graph, and no others do. -/
lemma ofNodes_eq_ok {entry : String} {nodes : List Node} {g : Graph} :
    ofNodes entry nodes = .ok g ↔ g = ⟨entry, nodes⟩ ∧ IsConsistent entry nodes := by
  have hall : (∀ n ∈ nodes, n.name ∈ reached entry nodes) ↔
      nodes.find? (fun n => !(reached entry nodes).contains n.name) = none := by
    simp [List.find?_eq_none]
  have hiff : IsConsistent entry nodes ↔ misplaced? nodes = none ∧
      nodes.any (·.name == entry) = true ∧ unknown? nodes = none ∧
      nodes.find? (fun n => !(reached entry nodes).contains n.name) = none :=
    ⟨fun h => ⟨h.ordered, h.hasEntry, h.known, hall.mp h.allReached⟩,
      fun h => ⟨h.1, h.2.1, h.2.2.1, hall.mpr h.2.2.2⟩⟩
  rw [hiff]
  unfold ofNodes
  dsimp only
  generalize misplaced? nodes = m, nodes.any (·.name == entry) = a, unknown? nodes = u,
    nodes.find? (fun n => !(reached entry nodes).contains n.name) = o
  rcases m with _ | m
  · rcases a with _ | _
    · exact ⟨nofun, nofun⟩
    · rcases u with _ | u
      · rcases o with _ | o
        · exact ⟨fun h => ⟨(Except.ok.inj h).symm, rfl, rfl, rfl, rfl⟩, fun h => h.1 ▸ rfl⟩
        · exact ⟨nofun, nofun⟩
      · exact ⟨nofun, nofun⟩
  · exact ⟨nofun, nofun⟩

end ContractBuild.Graph

import Mathlib
import ContractBuild.Cache.Key
import ContractBuild.Proofs.Frozen.Freeze
import ContractBuild.Proofs.Graph.Mirror
import ContractBuild.Proofs.Python.Import

/-!
A project that is moved: where the same stands below two project directories, one search mirrors the
other step by step, and the two graphs differ in nothing but the paths of their nodes.
-/

namespace ContractBuild.Graph

open ContractBuild.Disk ContractBuild.Text

/-! ### Plain names -/

/-- The modules that a statement names are dotted identifiers, and what it imports from them are
identifiers or a star. -/
def IsPlainImport : Python.Import → Prop
  | .whole _ name => Python.Import.isDottedName name.toList = true
  | .names _ _ base names =>
    (∀ b ∈ base, Python.Import.isDottedName b.toList = true) ∧
      ∀ n ∈ names, n = "*" ∨ isIdentifier n.toList = true

instance (i : Python.Import) : Decidable (IsPlainImport i) :=
  match i with
  | .whole _ _ => inferInstanceAs (Decidable (_ = _))
  | .names _ _ _ _ => inferInstanceAs (Decidable (_ ∧ _))

section Names

variable {P : Prop} {name importer : String} {isPackage : Bool}

lemma not_mem_of_isIdentifier {cs : List Char} (h : isIdentifier cs = true) : '/' ∉ cs := by
  intro hmem
  have hslash : isLetterOrNumber '/' = false := by decide +kernel
  have hletter : isLetter '/' = false := by decide +kernel
  cases cs with
  | nil => cases h
  | cons c r =>
    simp only [isIdentifier, Bool.and_eq_true, Bool.or_eq_true, beq_iff_eq, List.all_eq_true] at h
    rcases List.mem_cons.mp hmem with rfl | hmem
    · simp [hletter] at h
    · simpa [hslash] using h.2 '/' hmem

lemma isTame_of_isDottedName (h : Python.Import.isDottedName name.toList = true) :
    IsTame P name := by
  have hparts : ∀ w ∈ splitString '.' name, isIdentifier w.toList = true := by
    intro w hw
    rw [splitString_eq] at hw
    obtain ⟨l, hl, rfl⟩ := List.mem_map.mp hw
    rw [String.toList_ofList]
    exact List.all_eq_true.mp h l hl
  refine ⟨fun w hw => not_mem_of_isIdentifier (hparts w hw), fun hfirst => ?_⟩
  exact absurd (hparts "" (List.mem_of_mem_head? hfirst)) (by decide)

lemma IsTame.initial (h : IsTame P name) {p : List String} (hne : p ≠ [])
    (hp : p <+: splitString '.' name) : IsTame P (Candidate.dotted p) := by
  have hsplit := splitString_dotted hne fun w hw => not_mem_of_mem_splitString (hp.subset hw)
  refine ⟨fun w hw => h.slash w (hp.subset (hsplit ▸ hw)), fun hfirst => h.first ?_⟩
  obtain ⟨rest, hrest⟩ := hp
  rwa [← hrest, List.head?_append_of_ne_nil _ hne, ← hsplit]

lemma IsTame.append (h : IsTame P name) {more : String} (hmore : '/' ∉ more.toList) :
    IsTame P (name ++ "." ++ more) := by
  refine ⟨fun w hw => ?_, fun hfirst => h.first ?_⟩
  · rw [splitString_append] at hw
    rcases List.mem_append.mp hw with hw | hw
    · exact h.slash w hw
    · exact fun hmem => hmore (mem_of_mem_splitString hw hmem)
  · rwa [splitString_append, List.head?_append_of_ne_nil _ (splitString_ne_nil '.' name)] at hfirst

lemma not_mem_of_isDottedName (h : Python.Import.isDottedName name.toList = true) :
    '/' ∉ name.toList := by
  intro hmem
  have hjoin : ['.'].intercalate (name.toList.splitOn '.') = name.toList :=
    List.intercalate_splitOn '.'
  rw [← hjoin] at hmem
  obtain ⟨l, hl, hslash⟩ := (mem_intercalate (by decide) _).mp hmem
  exact not_mem_of_isIdentifier (List.all_eq_true.mp h l hl) hslash

lemma IsTame.isBase (h : IsTame P importer) {level : ℕ} {base : Option String}
    (horigin : level = 0 → base.isSome = true)
    (hbase : ∀ b ∈ base, Python.Import.isDottedName b.toList = true) {b : String}
    (hb : IsBase importer isPackage level base b) : IsTame P b := by
  have hown {package above : List String} (hne : package ≠ [])
      (heq : ownPackage importer isPackage = package ++ above) :
      IsTame P (Candidate.dotted package) :=
    h.initial hne ((List.prefix_append package above).trans
      (heq ▸ ownPackage_isPrefix importer isPackage))
  cases hb with
  | absolute =>
    obtain ⟨b, rfl⟩ := Option.isSome_iff_exists.mp (horigin rfl)
    exact isTame_of_isDottedName (hbase b rfl)
  | package hne heq => exact hown hne heq
  | below hne heq => exact (hown hne heq).append (not_mem_of_isDottedName (hbase _ rfl))

/-- What a plain statement means in a module with a tame name has a tame name. -/
lemma IsTame.means (h : IsTame P importer) {i : Python.Import} (hplain : IsPlainImport i)
    (horigin : i.HasOrigin) {c : Candidate} (hc : Means importer isPackage i c) :
    IsTame P c.name := by
  cases hc with
  | whole hne hp => exact (isTame_of_isDottedName hplain).initial hne hp
  | base hb hne hp => exact (h.isBase horigin hplain.1 hb).initial hne hp
  | name hb hn hs =>
    refine (h.isBase horigin hplain.1 hb).append (not_mem_of_isIdentifier ?_)
    exact (hplain.2 _ hn).resolve_left hs

lemma hasOrigin_of_mem {bytes : Bytes} : ∀ i ∈ importsWithin bytes, i.HasOrigin := by
  unfold importsWithin
  split
  · exact nofun
  · split
    · exact nofun
    · next parsed hparse => exact Python.hasOrigin_of_parse hparse

/-- If all statements are plain, all names reached are tame. -/
lemma isTame_of_isReached {scope : Scope} {t : Tree} {first : Located}
    (hfirst : IsTame P first.name)
    (hplain : ∀ i ∈ statements scope t first, IsPlainImport i ∧ i.HasOrigin) {x : String}
    (h : IsReached scope t first x) : IsTame P x := by
  induction h with
  | refl => exact hfirst
  | @tail x y hx hdep ih =>
    obtain ⟨⟨module, c, hmod, ⟨i, hi, hc⟩, rfl⟩, -⟩ := hdep
    obtain ⟨hi', horigin⟩ := hplain i ⟨x, module, hx, hmod, hi⟩
    exact IsTame.means (module?_name hmod ▸ ih) hi' horigin hc

end Names

/-! ### Where a search starts -/

lemma isPrefixOf?_append {α : Type} [BEq α] [LawfulBEq α] (c a b : List α) :
    (c ++ a).isPrefixOf? (c ++ b) = a.isPrefixOf? b := by
  induction c with
  | nil => rfl
  | cons x c ih => simpa [List.isPrefixOf?] using ih

lemma below?_pathTo {r s e : Place} (hs : Place.IsProper (r ++ s)) (he : Place.IsProper (r ++ e)) :
    (Tree.pathTo (r ++ s)).below? (Tree.pathTo (r ++ e)) =
      (s.map Path.Component.name).isPrefixOf? (e.map Path.Component.name) := by
  rw [Path.below?, Path.components_pathTo hs, Path.components_pathTo he, List.map_append,
    List.map_append, ← List.cons_append, ← List.cons_append, isPrefixOf?_append]

/-- The name of the module at a place, on the first of some places that it lies below. -/
def nameBelow (entry : Place) (sources : List Place) : Option (String × Bool) :=
  sources.findSome? fun s =>
    ((s.map Path.Component.name).isPrefixOf? (entry.map Path.Component.name)).bind fun cs =>
      moduleName? (cs.map Path.Component.text)

/-- The name of the entry does not depend on where the project stands. -/
lemma entryName_eq_ok {r entry : Place} {sources : List Place} (hr : r.IsProper)
    (hentry : entry.IsProper) (hsources : ∀ s ∈ sources, s.IsProper) {named : String × Bool} :
    entryName (Tree.pathTo (r ++ entry)) (sources.map fun s => Tree.pathTo (r ++ s)) = .ok named ↔
      nameBelow entry sources = some named := by
  have hnamed : (sources.map fun s => Tree.pathTo (r ++ s)).findSome? (fun s =>
        (s.below? (Tree.pathTo (r ++ entry))).bind fun cs =>
          moduleName? (cs.map Path.Component.text)) = nameBelow entry sources := by
    induction sources with
    | nil => rfl
    | cons s sources ih =>
      obtain ⟨hs, hsources⟩ := List.forall_mem_cons.mp hsources
      rw [nameBelow, List.map_cons, List.findSome?_cons, List.findSome?_cons,
        below?_pathTo (isProper_append.mpr ⟨hr, hs⟩) (isProper_append.mpr ⟨hr, hentry⟩),
        ih hsources]
      rfl
  rw [entryName]
  simp only [hnamed]
  rcases nameBelow entry sources with _ | named'
  · simp
  · simp

lemma not_mem_dotted {parts : List String} (h : ∀ w ∈ parts, '/' ∉ w.toList) :
    '/' ∉ (Candidate.dotted parts).toList := by
  rw [Candidate.dotted, String.toList_intercalate]
  intro hmem
  obtain ⟨l, hl, hslash⟩ := (mem_intercalate (by decide) _).mp hmem
  obtain ⟨w, hw, rfl⟩ := List.mem_map.mp hl
  exact h w hw hslash

lemma not_mem_of_moduleName? {parts : List String} (h : ∀ w ∈ parts, '/' ∉ w.toList)
    {name : String} {isPackage : Bool} (hname : moduleName? parts = some (name, isPackage)) :
    '/' ∉ name.toList := by
  rw [moduleName?] at hname
  split at hname
  · cases hname
  next file hfile =>
  dsimp only at hname
  have hfront : ∀ w ∈ parts.dropLast, '/' ∉ w.toList := fun w hw => h w (List.dropLast_subset _ hw)
  have hlast := h file (List.mem_of_getLast? hfile)
  have hstem :
      '/' ∉ (((stripSuffix? ".py".toList file.toList).map String.ofList).getD file).toList := by
    rcases hstrip : stripSuffix? ".py".toList file.toList with _ | x
    · exact hlast
    · rw [stripSuffix?_eq_some.mp hstrip, List.mem_append, not_or] at hlast
      simpa using hlast.1
  generalize ((stripSuffix? ".py".toList file.toList).map String.ofList).getD file = stem
    at hname hstem
  split_ifs at hname
  · obtain ⟨rfl, -⟩ := Prod.mk.inj (Option.some.inj hname)
    exact not_mem_dotted hfront
  · obtain ⟨rfl, -⟩ := Prod.mk.inj (Option.some.inj hname)
    refine not_mem_dotted (List.forall_mem_append.mpr ⟨hfront, ?_⟩)
    exact List.forall_mem_singleton.mpr hstem

lemma not_mem_of_nameBelow {entry : Place} (hentry : entry.IsProper) {sources : List Place}
    {name : String} {isPackage : Bool} (h : nameBelow entry sources = some (name, isPackage)) :
    '/' ∉ name.toList := by
  obtain ⟨s, -, hs⟩ := List.exists_of_findSome?_eq_some h
  obtain ⟨cs, hcs, hname⟩ := Option.bind_eq_some_iff.mp hs
  refine not_mem_of_moduleName? (fun w hw => ?_) hname
  obtain ⟨c, hc, rfl⟩ := List.mem_map.mp hw
  rw [List.isPrefixOf?_eq_some_iff_append_eq] at hcs
  obtain ⟨n, hn, rfl⟩ := List.mem_map.mp (hcs ▸ List.mem_append_right _ hc)
  exact (hentry n hn).slash

/-! ### One search and its mirror -/

section Mirror

variable {t t' : Tree} {r r' : Place}

/-- Two nodes differ in nothing but their paths. -/
def SameNode (n n' : Node) : Prop := n' = { n with path := n'.path }

/-- Two searches have come equally far: they differ in nothing but the paths of modules. -/
structure SameSearch (t t' : Tree) (s s' : Search) : Prop where
  discovered : s'.discovered = s.discovered
  queue : List.Forall₂ (SameModule t t') s.queue s'.queue
  nodes : List.Forall₂ SameNode s.nodes s'.nodes
  warnings : s'.warnings = s.warnings
  checked : s'.checked = s.checked

/-- Two searches go by the same, with roots at the same places below two directories. -/
structure SameScope (r r' : Place) (scope scope' : Scope) : Prop where
  exclude : scope'.exclude = scope.exclude
  base : scope'.base = scope.base
  pins : scope'.pins = scope.pins
  roots : List.Forall₂ (SameRoot r r') scope.roots scope'.roots

lemma SameScope.excludes_eq {scope scope' : Scope} (h : SameScope r r' scope scope')
    (name : String) : scope'.excludes name = scope.excludes name := by
  rw [Scope.excludes, Scope.excludes, h.exclude, h.base]

section Step

variable {scope scope' : Scope} {s s' : Search} {module module' : Located}

lemma SameSearch.checkPins (hs : SameSearch t t' s s') {importer : String} {l l' : Located}
    (hname : l'.name = l.name) {d : Option Distribution} {pins : List (Version.Pin × ℕ)}
    {s₁ : Search} (h : Graph.checkPins importer l d s pins = .ok s₁) :
    ∃ s₁', Graph.checkPins importer l' d s' pins = .ok s₁' ∧ SameSearch t t' s₁ s₁' := by
  induction pins generalizing s s' with
  | nil =>
    cases h
    exact ⟨s', rfl, hs⟩
  | cons p pins ih =>
    obtain ⟨pin, i⟩ := p
    rw [Graph.checkPins] at h ⊢
    rw [hname, hs.checked]
    split_ifs at h ⊢ with hpin
    · obtain ⟨warnings, hwarnings, hrest⟩ := except_bind_ok.mp h
      have hnext : SameSearch t t'
          { s with checked := s.checked ++ [i], warnings := s.warnings ++ warnings }
          { s' with checked := s.checked ++ [i], warnings := s'.warnings ++ warnings } :=
        ⟨hs.discovered, hs.queue, hs.nodes, by rw [hs.warnings], rfl⟩
      obtain ⟨s₁', hs₁', hsame⟩ := ih hnext hrest
      exact ⟨s₁', except_bind_ok.mpr ⟨warnings, hwarnings, hs₁'⟩, hsame⟩
    · exact ih hs h

lemma SameSearch.checkLocated (hs : SameSearch t t' s s') (hscope : SameScope r r' scope scope')
    {importer : String} {l l' : Located} (hl : SameModule t t' l l') {s₁ : Search}
    (h : Graph.checkLocated scope importer l s = .ok s₁) :
    ∃ s₁', Graph.checkLocated scope' importer l' s' = .ok s₁' ∧ SameSearch t t' s₁ s₁' := by
  rw [Graph.checkLocated] at h ⊢
  rw [hl.origin, hscope.pins]
  rcases horigin : l.origin with _ | d
  · rw [horigin] at h
    cases h
    exact ⟨s', rfl, hs⟩
  · rw [horigin] at h
    exact hs.checkPins hl.name h

/-- Following a candidate on one side is following it on the other. -/
lemma SameSearch.followed (h : SameBelow t r t' r') (hscope : SameScope r r' scope scope')
    (hs : SameSearch t t' s s') (hmodule : SameModule t t' module module') {c : Candidate}
    (hc : IsTame (SameBeside t r t' r') c.name) {found : Found} {st : Search × Found}
    (hf : Followed scope t module c s found st) :
    ∃ s₁', Followed scope' t' module' c s' found (s₁', st.2) ∧ SameSearch t t' st.1 s₁' := by
  have hname := hmodule.name
  have hexcludes := hscope.excludes_eq c.name
  have hfind : Option.Rel (SameModule t t') (scope.find? t c.name) (scope'.find? t' c.name) :=
    sameModule_locate h hscope.roots hc
  cases hf with
  | excluded hex => exact ⟨s', .excluded (hexcludes.trans hex), hs⟩
  | itself hex hself => exact ⟨s', .itself (hexcludes.trans hex) (hself.trans hname.symm), hs⟩
  | known hex hne hd =>
    exact ⟨s', .known (hexcludes.trans hex) (hname ▸ hne) (hs.discovered ▸ hd), hs⟩
  | @discovered l s₁ hex hne hd hl hp =>
    rw [hl] at hfind
    rcases hl' : scope'.find? t' c.name with _ | l'
    · rw [hl'] at hfind
      cases hfind
    rw [hl'] at hfind
    cases hfind with
    | some hsame =>
      obtain ⟨s₁', hp', hs₁⟩ := hs.checkLocated hscope hsame hp
      refine ⟨_, .discovered (hexcludes.trans hex) (hname ▸ hne) (hs.discovered ▸ hd) hl'
        (hname ▸ hp'), ?_⟩
      exact ⟨by rw [hs₁.discovered], List.rel_append hs₁.queue (.cons hsame .nil), hs₁.nodes,
        hs₁.warnings, hs₁.checked⟩
  | absent hex hne hd hl hr =>
    have hl' : scope'.find? t' c.name = none := by
      rw [hl] at hfind
      generalize scope'.find? t' c.name = found' at hfind ⊢
      cases hfind
      rfl
    have hdirectory : scope'.hasDirectory t' c.name = scope.hasDirectory t c.name :=
      (isNamespace_eq h hscope.roots hc).symm
    exact ⟨s', .absent (hexcludes.trans hex) (hname ▸ hne) (hs.discovered ▸ hd) hl'
      (hdirectory ▸ hr), hs⟩

/-- Two searches within modules have come equally far. -/
def SameState (t t' : Tree) (st st' : Search × Found) : Prop :=
  SameSearch t t' st.1 st'.1 ∧ st'.2 = st.2

lemma SameState.followImport (h : SameBelow t r t' r') (hscope : SameScope r r' scope scope')
    (hmodule : SameModule t t' module module') {i : Python.Import}
    (htame : ∀ c, Means module.name module.isPackage i c → IsTame (SameBeside t r t' r') c.name)
    {st st' st₁ : Search × Found} (hst : SameState t t' st st')
    (hf : Graph.followImport (Files.ofTree t) scope module st i = Except.ok st₁) :
    ∃ st₁', Graph.followImport (Files.ofTree t') scope' module' st' i = Except.ok st₁' ∧
      SameState t t' st₁ st₁' := by
  obtain ⟨cs, hcs, hf⟩ := followImport_eq_ok.mp hf
  have hstep : ∀ c ∈ cs, ∀ st st' st₁, SameState t t' st st' →
      follow (Files.ofTree t) scope module st c = Except.ok st₁ →
        ∃ st₁', follow (Files.ofTree t') scope' module' st' c = Except.ok st₁' ∧
          SameState t t' st₁ st₁' := by
    rintro c hc ⟨s, found⟩ ⟨s', found'⟩ st₁ ⟨hs, rfl⟩ hone
    obtain ⟨s₁', hone', hs₁⟩ := hs.followed h hscope hmodule
      (htame c ((mem_ofImport hcs c).mp hc)) (followed_of_follow hone)
    exact ⟨(s₁', st₁.2), follow_of_followed hone', hs₁, rfl⟩
  obtain ⟨st₁', hf', hst₁⟩ := foldlM_mirrors hstep hst hf
  refine ⟨st₁', followImport_eq_ok.mpr ⟨cs, ?_, hf'⟩, hst₁⟩
  rwa [hmodule.name, hmodule.isPackage]

/-- The imports in a file do not depend on where it lies. -/
lemma importsIn_congr {bytes : Bytes} {imports : List Python.Import}
    (h : importsIn module bytes = .ok imports) : importsIn module' bytes = .ok imports := by
  unfold importsIn at h ⊢
  revert h
  rcases Utf8.decode bytes with fault | text
  · exact nofun
  · dsimp only
    rcases Python.Module.parse text with fault | parsed
    · exact nofun
    · exact id

/-- Visiting a module on one side is visiting its mirror on the other. -/
lemma SameSearch.visit (h : SameBelow t r t' r') (hscope : SameScope r r' scope scope')
    (hs : SameSearch t t' s s') (hmodule : SameModule t t' module module')
    (htame : ∀ c, IsCandidate t module c → IsTame (SameBeside t r t' r') c.name) {s₁ : Search}
    (hv : Graph.visit (Files.ofTree t) scope module s = Except.ok s₁) :
    ∃ s₁', Graph.visit (Files.ofTree t') scope' module' s' = Except.ok s₁' ∧
      SameSearch t t' s₁ s₁' := by
  obtain ⟨bytes, imports, s₂, found, hread, hparse, hfold, rfl⟩ := visit_eq_ok.mp hv
  have hstep : ∀ i ∈ imports, ∀ st st' st₁, SameState t t' st st' →
      followImport (Files.ofTree t) scope module st i = Except.ok st₁ →
        ∃ st₁', followImport (Files.ofTree t') scope' module' st' i = Except.ok st₁' ∧
          SameState t t' st₁ st₁' := fun i hi st st' st₁ hst hone =>
    hst.followImport h hscope hmodule
      (fun c hc => htame c ⟨i, ⟨bytes, imports, hread, hparse, hi⟩, hc⟩) hone
  have hstart : SameState t t' (s, {}) (s', {}) := ⟨hs, rfl⟩
  obtain ⟨⟨s₂', found'⟩, hfold', hsame, rfl⟩ := foldlM_mirrors hstep hstart hfold
  refine ⟨_, visit_eq_ok.mpr ⟨bytes, imports, s₂', found', (hmodule.file bytes).mp hread,
    importsIn_congr hparse, hfold', rfl⟩, ?_⟩
  refine ⟨hsame.discovered, hsame.queue, List.rel_append hsame.nodes (.cons ?_ .nil),
    hsame.warnings, hsame.checked⟩
  rw [SameNode, nodeOf, nodeOf, hmodule.name, hmodule.isPackage, hmodule.origin,
    hsame.nodes.length_eq]

/-- **A search mirrors another** step by step, as long as the names reached are tame. -/
lemma SameSearch.explore (h : SameBelow t r t' r') (hscope : SameScope r r' scope scope')
    {first : Located} (hfirst : IsTame (SameBeside t r t' r') first.name)
    (hplain : ∀ i ∈ statements scope t first, IsPlainImport i ∧ i.HasOrigin) {fuel : ℕ}
    (hs : SameSearch t t' s s') (hholds : Holds scope t first [] s) {s₁ : Search}
    (he : Graph.explore (Files.ofTree t) scope fuel s = Except.ok s₁) :
    ∃ s₁', Graph.explore (Files.ofTree t') scope' fuel s' = Except.ok s₁' ∧
      SameSearch t t' s₁ s₁' := by
  induction fuel generalizing s s' with
  | zero =>
    rcases hq : s.queue with _ | ⟨module, rest⟩
    · have hq' : s'.queue = [] := by simpa [hq] using hs.queue
      rw [explore_nil 0 hq] at he
      cases he
      exact ⟨s', explore_nil 0 hq', hs⟩
    · rw [explore_zero hq] at he
      cases he
  | succ fuel ih =>
    rcases hq : s.queue with _ | ⟨module, rest⟩
    · have hq' : s'.queue = [] := by simpa [hq] using hs.queue
      rw [explore_nil (fuel + 1) hq] at he
      cases he
      exact ⟨s', explore_nil (fuel + 1) hq', hs⟩
    · obtain ⟨module', rest', hmodule, hrest, hq'⟩ :
          ∃ module' rest', SameModule t t' module module' ∧
            List.Forall₂ (SameModule t t') rest rest' ∧ s'.queue = module' :: rest' := by
        have hqueue := hs.queue
        rw [hq] at hqueue
        exact List.forall₂_cons_left_iff.mp hqueue
      rw [explore_cons hq] at he
      obtain ⟨s₂, hv, he⟩ := bind_eq_ok.mp he
      have hmod := hholds.waiting module (by simp [hq])
      have hreached : IsReached scope t first module.name :=
        hholds.reached _ (by rw [hholds.order, hq]; simp)
      have htame (c : Candidate) (hc : IsCandidate t module c) :
          IsTame (SameBeside t r t' r') c.name := by
        obtain ⟨i, hi, hc⟩ := hc
        obtain ⟨hi', horigin⟩ := hplain i ⟨module.name, module, hreached, hmod, hi⟩
        exact (isTame_of_isReached hfirst hplain hreached).means hi' horigin hc
      have hstart : SameSearch t t' { s with queue := rest } { s' with queue := rest' } :=
        ⟨hs.discovered, hrest, hs.nodes, hs.warnings, hs.checked⟩
      obtain ⟨s₂', hv', hs₂⟩ := hstart.visit h hscope hmodule htame hv
      obtain ⟨s₁', he', hs₁⟩ := ih hs₂ (hholds.visit hq hv) he
      rw [explore_cons hq']
      exact ⟨s₁', bind_eq_ok.mpr ⟨s₂', hv', he'⟩, hs₁⟩

end Step

/-- What a project is searched by, and where its search starts, is the same wherever it stands. -/
lemma prepare_mirrors (h : SameBelow t r t' r') {project project' : Path}
    (hroot : t.canonical project = .ok (Tree.pathTo r))
    (hroot' : t'.canonical project' = .ok (Tree.pathTo r')) {manifest : Manifest}
    (hentry : manifest.entry.NeverClimbs)
    (hroots : ∀ q ∈ manifest.sourceRoots ++ manifest.packageRoots, q.NeverClimbs)
    {base : BaseLibrary} {scope : Scope} {first : Located}
    (hprep : prepare (Files.ofTree t) project manifest base = Except.ok (scope, first)) :
    ∃ scope' first', prepare (Files.ofTree t') project' manifest base =
        Except.ok (scope', first') ∧ SameScope r r' scope scope' ∧
      SameModule t t' first first' ∧ '/' ∉ first.name.toList := by
  obtain ⟨pins, root, name, isPackage, hpins, hcanonical, hfile, hname, rfl, rfl⟩ :=
    prepare_eq_ok.mp hprep
  obtain rfl : Tree.pathTo r = root := Except.ok.inj (hroot.symm.trans hcanonical)
  have hproper := manifest.entry.isProper_normalPlace
  have hsame := h.sameFile hproper
  have hsources {r : Place} (hr : r.IsProper) :
      (manifest.sourceRoots.map fun q => ((Tree.pathTo r).join q).normalize) =
        (manifest.sourceRoots.map Path.normalPlace).map fun s => Tree.pathTo (r ++ s) := by
    rw [List.map_map]
    exact List.map_congr_left fun q hq =>
      Path.normalize_join hr (hroots q (List.mem_append_left _ hq))
  have hplaces : ∀ s ∈ manifest.sourceRoots.map Path.normalPlace, s.IsProper := by
    intro s hs
    obtain ⟨q, -, rfl⟩ := List.mem_map.mp hs
    exact q.isProper_normalPlace
  rw [Path.normalize_join h.isProper hentry] at hfile hname ⊢
  rw [hsources h.isProper, entryName_eq_ok h.isProper hproper hplaces] at hname
  refine ⟨_, _, prepare_eq_ok.mpr ⟨pins, _, name, isPackage, hpins, hroot', ?_, ?_, rfl, rfl⟩,
    ⟨rfl, rfl, rfl, sameRoot_rootsIn h hroots⟩, ⟨rfl, rfl, rfl, ?_⟩,
    not_mem_of_nameBelow hproper hname⟩
  · rw [Path.normalize_join h.symm.isProper hentry, ← hsame.isFile_eq]
    exact hfile
  · rw [Path.normalize_join h.symm.isProper hentry, hsources h.symm.isProper,
      entryName_eq_ok h.symm.isProper hproper hplaces]
    exact hname
  · rw [Path.normalize_join h.symm.isProper hentry]
    exact hsame

end Mirror

/-! ### The graph -/

/-- A node without its path. -/
def Node.bare (n : Node) : Node := { n with path := ⟨""⟩ }

lemma misplaced?_bare (nodes : List Node) :
    misplaced? (nodes.map Node.bare) = misplaced? nodes := by
  rw [misplaced?, misplaced?, List.zipIdx_map, List.find?_map, Option.map_map]
  rfl

lemma any_bare (nodes : List Node) (name : String) :
    (nodes.map Node.bare).any (·.name == name) = nodes.any (·.name == name) := by
  rw [List.any_map]
  rfl

lemma unknown?_bare (nodes : List Node) : unknown? (nodes.map Node.bare) = unknown? nodes := by
  rw [unknown?, unknown?, List.findSome?_map]
  simp only [any_bare]
  rfl

lemma importsOf_bare (nodes : List Node) (name : String) :
    importsOf (nodes.map Node.bare) name = importsOf nodes name := by
  have hfind : (nodes.map Node.bare).find? (·.name == name) =
      (nodes.find? (·.name == name)).map Node.bare := by
    rw [List.find?_map]
    rfl
  rw [importsOf, importsOf, hfind]
  generalize nodes.find? (·.name == name) = found
  cases found <;> rfl

lemma reach_bare (nodes : List Node) (fuel : ℕ) (todo seen : List String) :
    reach (nodes.map Node.bare) fuel todo seen = reach nodes fuel todo seen := by
  induction fuel generalizing todo seen with
  | zero => rfl
  | succ fuel ih =>
    cases todo with
    | nil => rfl
    | cons name rest => rw [reach, reach, importsOf_bare, ih, ih]

lemma reached_bare (entry : String) (nodes : List Node) :
    reached entry (nodes.map Node.bare) = reached entry nodes := by
  rw [reached, reached, reach_bare, total_map]
  rfl

lemma isConsistent_bare {entry : String} {nodes : List Node} :
    IsConsistent entry (nodes.map Node.bare) ↔ IsConsistent entry nodes := by
  constructor
  · rintro ⟨hordered, hentry, hknown, hreached⟩
    rw [misplaced?_bare] at hordered
    rw [any_bare] at hentry
    rw [unknown?_bare] at hknown
    rw [reached_bare, List.forall_mem_map] at hreached
    exact ⟨hordered, hentry, hknown, hreached⟩
  · rintro ⟨hordered, hentry, hknown, hreached⟩
    refine ⟨by rwa [misplaced?_bare], by rwa [any_bare], by rwa [unknown?_bare], ?_⟩
    rw [reached_bare, List.forall_mem_map]
    exact hreached

lemma map_bare_eq {nodes nodes' : List Node} (h : List.Forall₂ SameNode nodes nodes') :
    nodes'.map Node.bare = nodes.map Node.bare := by
  induction h with
  | nil => rfl
  | cons hn hrest ih =>
    rw [List.map_cons, List.map_cons, ih, hn]
    rfl

/-! ### Freezing -/

lemma freezeNode_ofTree {t : Tree} {n : Node} (h : n.IsFrom t) :
    Frozen.freezeNode (Files.ofTree t) n = Except.ok (Frozen.ofNode n) := by
  refine bind_eq_ok.mpr ⟨.ok n.source, lift_id_eq_ok.mpr h.source, ?_⟩
  have hfound : Frozen.found (.ok n.source) = n.digest := h.digest.symm
  rw [hfound, if_neg (not_not.mpr rfl)]
  rfl

/-- On a tree that nobody changes, every graph is frozen as it was resolved. -/
lemma freeze_ofTree {t : Tree} {g : Graph} (h : ∀ n ∈ g.nodes, n.IsFrom t) (base : BaseLibrary) :
    Frozen.freeze (Files.ofTree t) base g = Except.ok (Frozen.ofGraph base g) := by
  have hmodules : g.nodes.mapM (Frozen.freezeNode (Files.ofTree t)) =
      Except.ok (g.nodes.map Frozen.ofNode) := by
    generalize g.nodes = nodes at h ⊢
    induction nodes with
    | nil => rfl
    | cons n nodes ih =>
      obtain ⟨hn, hnodes⟩ := List.forall_mem_cons.mp h
      rw [List.mapM_cons]
      exact bind_eq_ok.mpr ⟨_, freezeNode_ofTree hn, bind_eq_ok.mpr ⟨_, ih hnodes, rfl⟩⟩
  exact bind_eq_ok.mpr ⟨_, hmodules, rfl⟩

/-- What is frozen does not depend on the paths of nodes. -/
lemma ofGraph_eq {g g' : Graph} (hentry : g'.entry = g.entry)
    (hnodes : List.Forall₂ SameNode g.nodes g'.nodes) (base : BaseLibrary) :
    Frozen.ofGraph base g' = Frozen.ofGraph base g := by
  have hmodules (nodes : List Node) :
      (nodes.map Node.bare).map Frozen.ofNode = nodes.map Frozen.ofNode := by
    rw [List.map_map]
    rfl
  rw [Frozen.ofGraph, Frozen.ofGraph, hentry, ← hmodules g'.nodes, map_bare_eq hnodes, hmodules]

/-! ### Moving a project -/

/-- **A project that is moved is the same project.** If the same stands below two project
directories, the paths of the manifest never climb and the sources of the graph hold only plain
imports, then a resolution of one project is one of the other, but for the paths of its nodes, and
both are frozen to the same bytes, with the same keys. One thing must not be in the way: where the
name of the entry begins with a dot, a file beside the project directory can be imported. -/
theorem resolve_relocates {t t' : Tree} {r r' : Place} (h : SameBelow t r t' r')
    {project project' : Path} (hroot : t.canonical project = .ok (Tree.pathTo r))
    (hroot' : t'.canonical project' = .ok (Tree.pathTo r')) {manifest : Manifest}
    (hentry : manifest.entry.NeverClimbs)
    (hroots : ∀ q ∈ manifest.sourceRoots ++ manifest.packageRoots, q.NeverClimbs)
    {base : BaseLibrary} {fuel : ℕ} {res : Resolution}
    (hres : resolveWithin (Files.ofTree t) fuel project manifest base = Except.ok res)
    (hplain : ∀ n ∈ res.graph.nodes, ∀ i ∈ importsWithin n.source, IsPlainImport i)
    (hbeside : (splitString '.' res.graph.entry).head? = some "" → SameBeside t r t' r') :
    ∃ res', resolveWithin (Files.ofTree t') fuel project' manifest base = Except.ok res' ∧
      res'.warnings = res.warnings ∧ res'.graph.entry = res.graph.entry ∧
      List.Forall₂ SameNode res.graph.nodes res'.graph.nodes ∧
      ∃ frozen frozen', Frozen.freeze (Files.ofTree t) base res.graph = Except.ok frozen ∧
        Frozen.freeze (Files.ofTree t') base res'.graph = Except.ok frozen' ∧
        frozen'.canonical = frozen.canonical ∧ ∀ flags toolchain optimizer,
          Cache.keyOf frozen' flags toolchain optimizer =
            Cache.keyOf frozen flags toolchain optimizer := by
  obtain ⟨scope, first, s, hprep, hs, hgraph, hconsistent, hwarnings⟩ :=
    resolveWithin_eq_ok.mp hres
  rw [hgraph] at hplain hbeside ⊢
  obtain ⟨scope', first', hprep', hscope, hfirst, hslash⟩ :=
    prepare_mirrors h hroot hroot' hentry hroots hprep
  obtain ⟨hholds, hq⟩ := (holds_start scope t first).explore hs
  have hfrom := isFrom_of_explore hs
  have htame : IsTame (SameBeside t r t' r') first.name :=
    ⟨fun w hw hmem => hslash (mem_of_mem_splitString hw hmem), hbeside⟩
  have hstatements : ∀ i ∈ statements scope t first, IsPlainImport i ∧ i.HasOrigin := by
    intro i hi
    obtain ⟨n, hn, hi⟩ := hholds.exists_source hq hfrom hi
    exact ⟨hplain n hn i hi, hasOrigin_of_mem i hi⟩
  have hstart : SameSearch t t' (.start first) (.start first') :=
    ⟨by rw [Search.start, Search.start, hfirst.name], .cons hfirst .nil, .nil, rfl, rfl⟩
  obtain ⟨s', hs', hsame⟩ :=
    hstart.explore h hscope htame hstatements (holds_start scope t first) hs
  have hconsistent' : IsConsistent first'.name s'.nodes := by
    rw [hfirst.name, ← isConsistent_bare, map_bare_eq hsame.nodes, isConsistent_bare]
    exact hconsistent
  have hwarnings' : (warnUnreachable scope' s').warnings = res.warnings := by
    rw [hwarnings, warnUnreachable, warnUnreachable]
    simp only [hscope.pins, hsame.checked, hsame.warnings, installedIn_eq hscope.roots]
  have hfrozen : Frozen.ofGraph base ⟨first'.name, s'.nodes⟩ =
      Frozen.ofGraph base ⟨first.name, s.nodes⟩ := ofGraph_eq hfirst.name hsame.nodes base
  refine ⟨⟨⟨first'.name, s'.nodes⟩, (warnUnreachable scope' s').warnings⟩,
    resolveWithin_eq_ok.mpr ⟨scope', first', s', hprep', hs', rfl, hconsistent', rfl⟩,
    hwarnings', hfirst.name, hsame.nodes, _, _, freeze_ofTree hfrom base,
    freeze_ofTree (isFrom_of_explore hs') base, by rw [hfrozen], fun _ _ _ => by rw [hfrozen]⟩

/-- Copies of a project at `/a` and `/b`, with a file beside the first. -/
def twoCopies (files : List (Place × Disk.Node)) : Tree where
  nodes := (["a.py"], .file [] false) :: (["a"], .directory) :: (["b"], .directory) ::
    (files.map (fun e => ("a" :: e.1, e.2)) ++ files.map fun e => ("b" :: e.1, e.2))

/-- The graph of one of the copies. -/
def resolveCopy (files : List (Place × Disk.Node)) (manifest : Manifest) (project : String) :
    Except Fault Resolution :=
  resolve (Files.ofTree (twoCopies files)) ⟨project⟩ manifest ⟨"base", "1", []⟩

/-- A module that imports an installed package. -/
def packedFiles : List (Place × Disk.Node) :=
  [(["main.py"], .file (Utf8.encode "from lib import f\n") false), (["libs"], .directory),
    (["libs", "lib.py"], .file [] false), (["libs", "lib-1.2.0.dist-info"], .directory)]

def packedManifest : Manifest := { plainManifest "main.py" with packageRoots := [⟨"libs"⟩] }

/-- The copy at `/b` is that at `/a`. -/
theorem packedFiles_relocates : ∃ res res' frozen frozen',
    resolveCopy packedFiles packedManifest "/a" = .ok res ∧
      resolveCopy packedFiles packedManifest "/b" = .ok res' ∧
      res.graph.names = ["main", "lib"] ∧ List.Forall₂ SameNode res.graph.nodes res'.graph.nodes ∧
      Frozen.freeze (Files.ofTree (twoCopies packedFiles)) ⟨"base", "1", []⟩ res.graph =
        Except.ok frozen ∧
      Frozen.freeze (Files.ofTree (twoCopies packedFiles)) ⟨"base", "1", []⟩ res'.graph =
        Except.ok frozen' ∧ frozen'.canonical = frozen.canonical := by
  have hsame : SameBelow (twoCopies packedFiles) ["a"] (twoCopies packedFiles) ["b"] :=
    sameBelow_of_below (by decide) (by decide) (by decide) (by decide)
  have hrun : (resolveCopy packedFiles packedManifest "/a").map (fun r => (r.graph.entry,
      r.graph.nodes.map fun n => (n.name, n.source))) =
        .ok ("main", [("main", Utf8.encode "from lib import f\n"), ("lib", [])]) := by
    decide +kernel
  obtain ⟨res, hres, hseen⟩ := except_map_eq_ok.mp hrun
  obtain ⟨hentry, hnodes⟩ := Prod.mk.inj hseen
  have hplain : ∀ n ∈ res.graph.nodes, ∀ i ∈ importsWithin n.source, IsPlainImport i := by
    have hall : ∀ x ∈ [("main", Utf8.encode "from lib import f\n"), ("lib", [])],
        ∀ i ∈ importsWithin x.2, IsPlainImport i := by decide +kernel
    intro n hn
    refine hall (n.name, n.source) ?_
    rw [← hnodes]
    exact List.mem_map_of_mem (f := fun n : Node => (n.name, n.source)) hn
  have hroot : (twoCopies packedFiles).canonical ⟨"/a"⟩ = .ok (Tree.pathTo ["a"]) := rfl
  have hroot' : (twoCopies packedFiles).canonical ⟨"/b"⟩ = .ok (Tree.pathTo ["b"]) := rfl
  have hfirst : (splitString '.' res.graph.entry).head? ≠ some "" := by
    rw [hentry]
    decide
  obtain ⟨res', hres', -, -, hsameNodes, frozen, frozen', hfrozen, hfrozen', hcanonical, -⟩ :=
    resolve_relocates hsame hroot hroot' (by decide) (by decide) hres hplain
      fun hempty => absurd hempty hfirst
  have hnames := congrArg (List.map Prod.fst) hnodes
  rw [List.map_map] at hnames
  exact ⟨res, res', frozen, frozen', hres, hres', hnames, hsameNodes, hfrozen, hfrozen',
    hcanonical⟩

/-- A module in a directory whose name begins with a dot, which imports from its own package. -/
def hiddenFiles : List (Place × Disk.Node) :=
  [([".app"], .directory), ([".app", "main.py"], .file (Utf8.encode "from . import x\n") false),
    (["app.py"], .file [] false)]

/-- Such a module finds the empty name in the file beside the project directory, which stays behind
when the project is moved. -/
theorem hiddenFiles_differ :
    SameBelow (twoCopies hiddenFiles) ["a"] (twoCopies hiddenFiles) ["b"] ∧
      (∀ e ∈ (twoCopies hiddenFiles).nodes, ∀ i ∈ importsAt e.2, IsPlainImport i) ∧
      (plainManifest ".app/main.py").entry.NeverClimbs ∧
      (∀ q ∈ (plainManifest ".app/main.py").sourceRoots ++
        (plainManifest ".app/main.py").packageRoots, q.NeverClimbs) ∧
      (resolveCopy hiddenFiles (plainManifest ".app/main.py") "/a").map (·.graph.names) =
        .ok [".app.main", "", ".app"] ∧
      (resolveCopy hiddenFiles (plainManifest ".app/main.py") "/b").map (·.graph.names) =
        .ok [".app.main", ".app"] :=
  ⟨sameBelow_of_below (by decide) (by decide) (by decide) (by decide), by decide +kernel,
    by decide, by decide, by decide +kernel, by decide +kernel⟩

end ContractBuild.Graph

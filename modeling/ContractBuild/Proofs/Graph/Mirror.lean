import Mathlib
import ContractBuild.Proofs.Disk.Subtree
import ContractBuild.Proofs.Graph.Roots

/-!
Two trees with the same below two directories: what is installed there is the same, and a name is
found on roots below one directory where it is found on the same roots below the other.
-/

namespace ContractBuild.Graph

open ContractBuild.Disk ContractBuild.Text

/-! ### Installed distributions -/

/-- The text of a file, if it has one. -/
def textAt (t : Tree) (p : Path) : Option String :=
  (t.read p).toOption.bind fun bytes => (Utf8.decode bytes).toOption

/-- What one `.dist-info` directory adds, by the texts of its files. -/
def Distribution.told (index : Installed) (stem : String) (metadata topLevel : Option String) :
    Installed :=
  let (name, written) := splitStem stem
  let rawVersion := written.or (metadata.bind versionIn)
  let d : Distribution := { name, rawVersion, version := rawVersion.bind Version.ofRelease? }
  ((topLevel.map listedModules).getD [Version.normalizeName name]).foldl d.addModule index

lemma readText_ofTree (t : Tree) (p : Path) :
    (Id.run ((Files.ofTree t).readText p)).toOption = textAt t p := by
  rw [Files.readText, show (Files.ofTree t).read = t.read from rfl, textAt]
  rcases t.read p with f | bytes
  · rfl
  · dsimp only [Id.run, bind, Except.toOption, Option.bind_some]
    rcases Utf8.decode bytes with f | text <;> rfl

lemma readInto_eq_told (fs : Files Id) (root : Path) (index : Installed) (stem : String) :
    Id.run (Distribution.readInto fs root index stem) = Distribution.told index stem
      (Id.run (fs.readText
        ((root.joinName (stem ++ ".dist-info")).joinName "METADATA"))).toOption
      (Id.run (fs.readText
        ((root.joinName (stem ++ ".dist-info")).joinName "top_level.txt"))).toOption := by
  rw [Distribution.readInto, Distribution.told]
  generalize root.joinName (stem ++ ".dist-info") = dir
  generalize fs.readText (dir.joinName "METADATA") = metadata
  generalize fs.readText (dir.joinName "top_level.txt") = topLevel
  rcases Distribution.splitStem stem with ⟨name, _ | written⟩
  · rcases metadata with f | metadata <;> rcases topLevel with f | topLevel <;> rfl
  · rcases topLevel with f | topLevel <;> rfl

lemma readInto_ofTree (t : Tree) (root : Path) (index : Installed) (stem : String) :
    Id.run (Distribution.readInto (Files.ofTree t) root index stem) = Distribution.told index stem
      (textAt t ((root.joinName (stem ++ ".dist-info")).joinName "METADATA"))
      (textAt t ((root.joinName (stem ++ ".dist-info")).joinName "top_level.txt")) := by
  rw [readInto_eq_told, readText_ofTree, readText_ofTree]

lemma scan_eq_foldl (fs : Files Id) (root : Path) :
    Id.run (Distribution.scan fs root) = (match fs.list root with
      | .ok names => (Distribution.stems names).foldl (fun index stem =>
          Id.run (Distribution.readInto fs root index stem)) []
      | .error _ => []) := by
  rw [Distribution.scan]
  rcases fs.list root with f | names
  · rfl
  · exact List.idRun_foldlM

lemma mem_stems {stem : String} {names : List String} :
    stem ∈ Distribution.stems names ↔ stem ++ ".dist-info" ∈ names := by
  simp only [Distribution.stems, mem_sortedSet, List.mem_filterMap, Option.map_eq_some_iff,
    stripSuffix?_eq_some]
  constructor
  · rintro ⟨name, hname, x, htext, rfl⟩
    have heq : String.ofList x ++ ".dist-info" = name := by
      apply String.toList_inj.mp
      rw [htext, String.toList_append, String.toList_ofList]
    rwa [heq]
  · intro h
    exact ⟨_, h, stem.toList, String.toList_append, String.ofList_toList⟩

section Mirror

variable {t t' : Tree} {r r' : Place}

lemma textAt_eq {p p' : Path} (h : SameFile t p t' p') : textAt t p = textAt t' p' := by
  have hread : (t.read p).toOption = (t'.read p').toOption := by
    refine Option.ext fun bytes => ?_
    rw [toOption_eq_some, toOption_eq_some]
    exact h bytes
  rw [textAt, textAt, hread]

lemma readInto_eq (h : SameBelow t r t' r') {dir : Place} (hdir : dir.IsProper) {stem : String}
    (hstem : IsName (stem ++ ".dist-info")) (index : Installed) :
    Id.run (Distribution.readInto (Files.ofTree t) (Tree.pathTo (r ++ dir)) index stem) =
      Id.run (Distribution.readInto (Files.ofTree t') (Tree.pathTo (r' ++ dir)) index stem) := by
  have hfile (file : String) (hfile : IsName file) :
      textAt t (((Tree.pathTo (r ++ dir)).joinName (stem ++ ".dist-info")).joinName file) =
        textAt t' (((Tree.pathTo (r' ++ dir)).joinName (stem ++ ".dist-info")).joinName file) := by
    have hplace : Place.IsProper (dir ++ [stem ++ ".dist-info"]) := isProper_snoc.mpr ⟨hdir, hstem⟩
    have hproper {r : Place} (hr : r.IsProper) :
        ((Tree.pathTo (r ++ dir)).joinName (stem ++ ".dist-info")).joinName file =
          Tree.pathTo (r ++ (dir ++ [stem ++ ".dist-info"] ++ [file])) := by
      rw [Path.joinName_pathTo (isProper_append.mpr ⟨hr, hdir⟩) hstem, List.append_assoc,
        Path.joinName_pathTo (isProper_append.mpr ⟨hr, hplace⟩) hfile, List.append_assoc]
    rw [hproper h.isProper, hproper h.symm.isProper]
    exact textAt_eq (h.sameFile (isProper_snoc.mpr ⟨hplace, hfile⟩))
  rw [readInto_ofTree, readInto_ofTree, hfile "METADATA" (by decide),
    hfile "top_level.txt" (by decide)]

/-- The same is installed in a directory below either place. -/
lemma scan_eq (h : SameBelow t r t' r') {dir : Place} (hdir : dir.IsProper) :
    Id.run (Distribution.scan (Files.ofTree t) (Tree.pathTo (r ++ dir))) =
      Id.run (Distribution.scan (Files.ofTree t') (Tree.pathTo (r' ++ dir))) := by
  rw [scan_eq_foldl, scan_eq_foldl, show (Files.ofTree t).list = t.list from rfl,
    show (Files.ofTree t').list = t'.list from rfl]
  rcases hlist : t.list (Tree.pathTo (r ++ dir)) with f | names
  · rcases hlist' : t'.list (Tree.pathTo (r' ++ dir)) with f' | names'
    · rfl
    · obtain ⟨names, hnames, -⟩ := h.symm.list hdir hlist'
      rw [hlist] at hnames
      cases hnames
  · obtain ⟨names', hlist', hmem, hnames⟩ := h.list hdir hlist
    have hstems : Distribution.stems names = Distribution.stems names' := by
      refine sortedSet_congr fun stem => ?_
      simp only [List.mem_filterMap, hmem]
    simp only [hlist', ← hstems]
    exact List.foldl_ext _ _ _ fun index stem hstem =>
      readInto_eq h hdir (hnames _ (mem_stems.mp hstem)) index

/-! ### Roots -/

/-- Two roots lie at the same place below two directories, with the same installed. -/
def SameRoot (r r' : Place) (x x' : Root) : Prop :=
  ∃ s : Place, s.IsProper ∧ x.path = Tree.pathTo (r ++ s) ∧ x'.path = Tree.pathTo (r' ++ s) ∧
    x'.installed = x.installed

lemma ofPackages_eq (fs : Files Id) (p : Path) :
    Id.run (Root.ofPackages fs p) = ⟨p, some (Id.run (Distribution.scan fs p))⟩ := by
  rw [Root.ofPackages]
  generalize Distribution.scan fs p = index
  rfl

/-- The roots of a project that never climb lie at the same places wherever it stands. -/
lemma sameRoot_rootsIn (h : SameBelow t r t' r') {manifest : Manifest}
    (hroots : ∀ q ∈ manifest.sourceRoots ++ manifest.packageRoots, q.NeverClimbs) :
    List.Forall₂ (SameRoot r r') (rootsIn t (Tree.pathTo r) manifest)
      (rootsIn t' (Tree.pathTo r') manifest) := by
  have hpath {q : Path} (hq : q.NeverClimbs) := Path.normalize_join h.isProper hq
  have hpath' {q : Path} (hq : q.NeverClimbs) := Path.normalize_join h.symm.isProper hq
  refine List.rel_append ?_ ?_
  · rw [List.forall₂_map_left_iff, List.forall₂_map_right_iff, List.forall₂_same]
    intro q hq
    have hclimbs := hroots q (List.mem_append_left _ hq)
    exact ⟨q.normalPlace, q.isProper_normalPlace, hpath hclimbs, hpath' hclimbs, rfl⟩
  · rw [List.forall₂_map_left_iff, List.forall₂_map_right_iff, List.forall₂_same]
    intro q hq
    have hclimbs := hroots q (List.mem_append_right _ hq)
    rw [ofPackages_eq, ofPackages_eq, hpath hclimbs, hpath' hclimbs]
    exact ⟨q.normalPlace, q.isProper_normalPlace, rfl, rfl,
      congrArg some (scan_eq h q.isProper_normalPlace).symm⟩

/-! ### Names -/

/-- The components of a name are names of files or empty, and the first is not empty unless `P`. -/
structure IsTame (P : Prop) (name : String) : Prop where
  slash : ∀ w ∈ splitString '.' name, '/' ∉ w.toList
  first : (splitString '.' name).head? = some "" → P

/-- The components of a name that are not empty. -/
def solidParts (name : String) : Place := (splitString '.' name).filter (· ≠ "")

lemma IsTame.isName {P : Prop} {name : String} (h : IsTame P name) {w : String}
    (hw : w ∈ splitString '.' name) (hne : w ≠ "") : IsName w :=
  Path.isName_of_not_mem (by simpa using hne) (h.slash w hw) (not_mem_of_mem_splitString hw)

lemma IsTame.isProper {P : Prop} {name : String} (h : IsTame P name) :
    (solidParts name).IsProper := by
  intro w hw
  obtain ⟨hmem, hne⟩ := List.mem_filter.mp hw
  exact h.isName hmem (of_decide_eq_true hne)

lemma IsTame.leadsTo_baseOf {P : Prop} {name : String} (h : IsTame P name) {x : Root} {s : Place}
    (hproper : Place.IsProper (r ++ s)) (hx : x.path = Tree.pathTo (r ++ s)) :
    (x.baseOf name).LeadsTo (r ++ (s ++ solidParts name)) := by
  rw [← List.append_assoc, Root.baseOf, hx]
  exact Path.LeadsTo.foldl_joinName (.inl rfl) hproper fun w hw hne => h.isName hw hne

section Names

variable {x x' : Root} {name : String} (h : SameBelow t r t' r') (hx : SameRoot r r' x x')
  (hname : IsTame (SameBeside t r t' r') name)

include h hx hname

/-- A name leads to the same place below either root. -/
lemma SameRoot.leadsTo_baseOf : ∃ rest : Place, rest.IsProper ∧
    (rest = [] → solidParts name = []) ∧ (x.baseOf name).LeadsTo (r ++ rest) ∧
      (x'.baseOf name).LeadsTo (r' ++ rest) := by
  obtain ⟨s, hs, hpath, hpath', -⟩ := hx
  refine ⟨s ++ solidParts name, isProper_append.mpr ⟨hs, hname.isProper⟩, ?_, ?_, ?_⟩
  · exact fun hnil => (List.append_eq_nil_iff.mp hnil).2
  · exact hname.leadsTo_baseOf (isProper_append.mpr ⟨h.isProper, hs⟩) hpath
  · exact hname.leadsTo_baseOf (isProper_append.mpr ⟨h.symm.isProper, hs⟩) hpath'

lemma SameRoot.sameFile_module :
    SameFile t ((x.baseOf name).withExtension "py") t' ((x'.baseOf name).withExtension "py") := by
  obtain ⟨rest, hrest, hnil, hp, hp'⟩ := hx.leadsTo_baseOf h hname
  refine h.sameFile_module hrest hp hp' fun hempty => hname.first ?_
  -- a name without solid components has an empty one in front
  have hparts := hnil hempty
  obtain ⟨w, ws, hsplit⟩ := List.exists_cons_of_ne_nil (splitString_ne_nil '.' name)
  rw [solidParts, hsplit, List.filter_eq_nil_iff] at hparts
  simpa [hsplit] using hparts w List.mem_cons_self

lemma SameRoot.sameFile_package : SameFile t ((x.baseOf name).joinName "__init__.py") t'
    ((x'.baseOf name).joinName "__init__.py") := by
  obtain ⟨rest, hrest, -, hp, hp'⟩ := hx.leadsTo_baseOf h hname
  have hinit : IsName "__init__.py" := by decide
  rw [hp.joinName (isProper_append.mpr ⟨h.isProper, hrest⟩) hinit,
    hp'.joinName (isProper_append.mpr ⟨h.symm.isProper, hrest⟩) hinit, List.append_assoc,
    List.append_assoc]
  exact h.sameFile (isProper_snoc.mpr ⟨hrest, hinit⟩)

lemma SameRoot.isDirectory_eq :
    t.isDirectory (x.baseOf name) = t'.isDirectory (x'.baseOf name) := by
  obtain ⟨rest, hrest, -, hp, hp'⟩ := hx.leadsTo_baseOf h hname
  exact h.isDirectory_eq hrest hp hp'

end Names

/-! ### Modules -/

/-- Two modules differ in nothing but where they lie, and the same stands there. -/
structure SameModule (t t' : Tree) (l l' : Located) : Prop where
  name : l'.name = l.name
  isPackage : l'.isPackage = l.isPackage
  origin : l'.origin = l.origin
  file : SameFile t l.path t' l'.path

lemma SameRoot.originOf_eq {x x' : Root} (hx : SameRoot r r' x x') (name : String) :
    x'.originOf name = x.originOf name := by
  obtain ⟨s, -, -, -, hinstalled⟩ := hx
  rw [Root.originOf, Root.originOf, hinstalled]

/-- A module is found on roots below one place if it is found on those below the other. -/
lemma sameModule_locate (h : SameBelow t r t' r') {roots roots' : List Root}
    (hroots : List.Forall₂ (SameRoot r r') roots roots') {name : String}
    (hname : IsTame (SameBeside t r t' r') name) :
    Option.Rel (SameModule t t') (locate (Files.ofTree t) name roots)
      (locate (Files.ofTree t') name roots') := by
  induction hroots with
  | nil => exact .none
  | @cons x x' roots roots' hx hrest ih =>
    have hmodule := hx.sameFile_module h hname
    have hpackage := hx.sameFile_package h hname
    rw [locate_cons, locate_cons, ← hmodule.isFile_eq, ← hpackage.isFile_eq, hx.originOf_eq]
    generalize (x.baseOf name).withExtension "py" = p, (x'.baseOf name).withExtension "py" = p',
      (x.baseOf name).joinName "__init__.py" = q, (x'.baseOf name).joinName "__init__.py" = q'
      at hmodule hpackage ⊢
    split_ifs
    · exact .some ⟨rfl, rfl, rfl, hmodule⟩
    · exact .some ⟨rfl, rfl, rfl, hpackage⟩
    · exact ih

lemma isNamespace_eq (h : SameBelow t r t' r') {roots roots' : List Root}
    (hroots : List.Forall₂ (SameRoot r r') roots roots') {name : String}
    (hname : IsTame (SameBeside t r t' r') name) :
    isNamespace (Files.ofTree t) name roots = isNamespace (Files.ofTree t') name roots' := by
  induction hroots with
  | nil => rfl
  | @cons x x' roots roots' hx hrest ih =>
    rw [isNamespace, isNamespace, show (Files.ofTree t).isDirectory = t.isDirectory from rfl,
      show (Files.ofTree t').isDirectory = t'.isDirectory from rfl, hx.isDirectory_eq h hname, ih]

lemma installedIn_eq {roots roots' : List Root}
    (hroots : List.Forall₂ (SameRoot r r') roots roots') :
    installedIn roots' = installedIn roots := by
  induction hroots with
  | nil => rfl
  | @cons x x' roots roots' hx hrest ih =>
    obtain ⟨s, -, -, -, hinstalled⟩ := hx
    rw [installedIn, List.flatMap_cons, hinstalled]
    exact congrArg _ ih

end Mirror

end ContractBuild.Graph

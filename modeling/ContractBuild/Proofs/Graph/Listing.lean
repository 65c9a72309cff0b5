import Mathlib
import ContractBuild.Proofs.Graph.Mirror
import ContractBuild.Proofs.Graph.Pins

/-!
The order in which directories list their names, and in which hash maps give what they hold, does
not matter: names are sorted before the first to claim a module wins, and distributions are sorted
by module before the first that a pin applies to is taken.
-/

namespace ContractBuild.Graph

open ContractBuild.Disk ContractBuild.Text

/-! ### What is installed -/

namespace Distribution

lemma isSorted_addModule (d : Distribution) {index : Installed} (h : IsSorted index)
    (module : String) : IsSorted (d.addModule index module) := by
  unfold addModule
  split_ifs
  · exact h
  · exact h.putSorted module d

lemma isSorted_told {index : Installed} (h : IsSorted index) (stem : String)
    (metadata topLevel : Option String) : IsSorted (told index stem metadata topLevel) :=
  List.foldlRecOn _ _ h fun _ hindex module _ => isSorted_addModule _ hindex module

lemma isSorted_scan (fs : Files Id) (root : Path) : IsSorted (Id.run (scan fs root)) := by
  rw [scan_eq_foldl]
  rcases fs.list root with f | names
  · exact List.Pairwise.nil
  · refine List.foldlRecOn _ _ List.Pairwise.nil fun index hindex stem _ => ?_
    rw [readInto_eq_told]
    exact isSorted_told hindex stem _ _

end Distribution

/-! ### Listings in another order -/

section Relisted

variable {m : Type → Type} [Monad m] (fs : Files m)
  (list : Path → m (Except Disk.Fault (List String)))

lemma locate_relisted (name : String) (roots : List Root) :
    locate { fs with list } name roots = locate fs name roots := by
  induction roots with
  | nil => rfl
  | cons r rest ih => rw [locate, locate, ih]

lemma isNamespace_relisted (name : String) (roots : List Root) :
    isNamespace { fs with list } name roots = isNamespace fs name roots := by
  induction roots with
  | nil => rfl
  | cons r rest ih => rw [isNamespace, isNamespace, ih]

lemma visit_relisted (scope : Scope) (module : Located) (s : Search) :
    visit { fs with list } scope module s = visit fs scope module s := by
  unfold visit followImport follow
  simp only [locate_relisted, isNamespace_relisted]

/-- The search lists no directory. -/
lemma explore_relisted (scope : Scope) (fuel : ℕ) (s : Search) :
    explore { fs with list } scope fuel s = explore fs scope fuel s := by
  induction fuel generalizing s with
  | zero =>
    rw [explore.eq_def, explore.eq_def]
    dsimp only
    rcases s.queue with _ | ⟨module, rest⟩
    · rfl
    · rfl
  | succ fuel ih =>
    rw [explore.eq_def, explore.eq_def]
    dsimp only
    rcases s.queue with _ | ⟨module, rest⟩
    · rfl
    · simp only [visit_relisted, ih]

end Relisted

variable {fs : Files Id} {list : Path → Except Disk.Fault (List String)}

/-- The stems are sorted before they are read. -/
lemma scan_relisted (h : ∀ p, SameListing (fs.list p) (list p)) (root : Path) :
    Distribution.scan ({ fs with list } : Files Id) root = Distribution.scan fs root := by
  have hroot := h root
  change Id.run (Distribution.scan _ _) = Id.run (Distribution.scan _ _)
  rw [scan_eq_foldl, scan_eq_foldl]
  dsimp only
  generalize fs.list root = old, list root = new at hroot ⊢
  rcases old with f | names <;> rcases new with f' | names'
  · rfl
  · exact hroot.elim
  · exact hroot.elim
  · have hperm : names'.Perm names := hroot
    have hstems : Distribution.stems names' = Distribution.stems names := by
      refine sortedSet_congr fun stem => ?_
      simp only [List.mem_filterMap, hperm.mem_iff]
    dsimp only
    rw [hstems]
    rfl

lemma prepare_relisted (h : ∀ p, SameListing (fs.list p) (list p)) (project : Path)
    (manifest : Manifest) (base : BaseLibrary) :
    prepare ({ fs with list } : Files Id) project manifest base =
      prepare fs project manifest base := by
  unfold prepare Root.ofPackages
  simp only [scan_relisted h]

/-! ### Hash maps in another order -/

/-- Some order in which the hash map of each root gives what it holds. -/
def IsEnumeration (enumerate : Path → Installed → Installed) : Prop :=
  ∀ p index, (enumerate p index).Perm index

/-- All that is installed, root by root, as hash maps give it and sorted by module. -/
def installedBy (enumerate : Path → Installed → Installed) (roots : List Root) : Installed :=
  roots.flatMap fun r => sortByKey (enumerate r.path (r.installed.getD []))

/-- What is installed below a root is in order. -/
def Root.IsSorted (r : Root) : Prop := Text.IsSorted (r.installed.getD [])

lemma installedBy_eq {enumerate : Path → Installed → Installed} (h : IsEnumeration enumerate)
    {roots : List Root} (hroots : ∀ r ∈ roots, r.IsSorted) :
    installedBy enumerate roots = installedIn roots :=
  List.flatMap_congr fun r hr => (hroots r hr).sortByKey_eq (h r.path _)

/-- A package root is sorted when it is met, and a source root has nothing installed. -/
lemma isSorted_of_prepare {project : Path} {manifest : Manifest} {base : BaseLibrary}
    {scope : Scope} {first : Located}
    (h : prepare fs project manifest base = Except.ok (scope, first)) :
    ∀ r ∈ scope.roots, r.IsSorted := by
  obtain ⟨pins, root, name, isPackage, -, -, -, -, rfl, -⟩ := prepare_eq_ok_iff.mp h
  intro r hr
  rcases List.mem_append.mp hr with hr | hr
  · obtain ⟨q, -, rfl⟩ := List.mem_map.mp hr
    exact List.Pairwise.nil
  · obtain ⟨q, -, rfl⟩ := List.mem_map.mp hr
    rw [ofPackages_eq]
    exact Distribution.isSorted_scan fs _

/-- What hash maps give is sorted before the first distribution that a pin applies to is taken. -/
lemma resolveWithin_installedBy {enumerate : Path → Installed → Installed}
    (h : IsEnumeration enumerate) (fs : Files Id) (fuel : ℕ) (project : Path)
    (manifest : Manifest) (base : BaseLibrary) :
    resolveWithin fs fuel project manifest base (installedBy enumerate) =
      resolveWithin fs fuel project manifest base := by
  unfold resolveWithin
  rcases hprep : prepare fs project manifest base with f | ⟨scope, first⟩
  · rfl
  · change (explore fs scope fuel (.start first) >>= _) =
      (explore fs scope fuel (.start first) >>= _)
    dsimp only [warnUnreachable]
    rw [installedBy_eq h (isSorted_of_prepare hprep)]

lemma resolveWithin_relisted (h : ∀ p, SameListing (fs.list p) (list p)) (fuel : ℕ)
    (project : Path) (manifest : Manifest) (base : BaseLibrary) :
    resolveWithin ({ fs with list } : Files Id) fuel project manifest base =
      resolveWithin fs fuel project manifest base := by
  unfold resolveWithin
  simp only [prepare_relisted h, explore_relisted]

/-- **The order of listings is irrelevant.** Two runs on the same files, with the names in each
directory and all that is installed in a package root given in any order, end alike: with one graph
and the same warnings, or with the same fault, and it is what the project is resolved to. -/
theorem resolve_of_relisted {fs fs' : Files Id} (h : SameFiles fs fs')
    {enumerate enumerate' : Path → Installed → Installed} (henum : IsEnumeration enumerate)
    (henum' : IsEnumeration enumerate') (fuel : ℕ) (project : Path) (manifest : Manifest)
    (base : BaseLibrary) :
    resolveWithin fs' fuel project manifest base (installedBy enumerate') =
        resolveWithin fs fuel project manifest base (installedBy enumerate) ∧
      resolveWithin fs fuel project manifest base (installedBy enumerate) =
        resolveWithin fs fuel project manifest base := by
  have hfs' : fs' = { fs with list := fs'.list } := by
    obtain ⟨hfile, hdir, hread, hcanonical, -⟩ := h
    cases fs
    cases fs'
    congr
    · exact funext hfile
    · exact funext hdir
    · exact funext hread
    · exact funext hcanonical
  have hsorted := resolveWithin_installedBy henum fs fuel project manifest base
  refine ⟨?_, hsorted⟩
  calc resolveWithin fs' fuel project manifest base (installedBy enumerate')
      = resolveWithin fs' fuel project manifest base :=
        resolveWithin_installedBy henum' fs' fuel project manifest base
    _ = resolveWithin fs fuel project manifest base := by
        rw [hfs', resolveWithin_relisted h.list]
    _ = resolveWithin fs fuel project manifest base (installedBy enumerate) := hsorted.symm

/-! ### Rival distributions -/

/-- Two distributions claim the module `a`, and a pin applies to two others. -/
def rivals : Tree where
  nodes := [(["p"], .directory), (["p", "m.py"], .file (Utf8.encode "import a") false),
    (["p", "s"], .directory),
    (["p", "s", "a.py"], .file [] false),
    (["p", "s", "d-1.dist-info"], .directory),
    (["p", "s", "d-1.dist-info", "top_level.txt"], .file (Utf8.encode "a") false),
    (["p", "s", "d-2.dist-info"], .directory),
    (["p", "s", "d-2.dist-info", "top_level.txt"], .file (Utf8.encode "a") false),
    (["p", "s", "e-1.dist-info"], .directory),
    (["p", "s", "e-1.dist-info", "top_level.txt"], .file (Utf8.encode "b") false),
    (["p", "s", "e-2.dist-info"], .directory),
    (["p", "s", "e-2.dist-info", "top_level.txt"], .file (Utf8.encode "c") false)]

/-- The same files, told backwards. -/
def rivalsBack : Tree where
  nodes := rivals.nodes.reverse

/-- A project that demands releases of `d` and `e`. -/
def rivalManifest : Manifest :=
  { pinningManifest "=1" with pins := [("d", "=1"), ("e", "=2")] }

/-- What becomes of that project. -/
def resolveRivals : Except Fault Resolution :=
  resolve (Files.ofTree rivals) ⟨"/p"⟩ rivalManifest ⟨"", "", []⟩

/-- With everything given backwards, `a` still comes with the first release of `d`, and the warning
is still about the first release of `e`. -/
theorem resolve_of_relisted_rivals :
    SameFiles (Files.ofTree rivals) (Files.ofTree rivalsBack) ∧
    rivalsBack.list ⟨"/p/s"⟩ ≠ rivals.list ⟨"/p/s"⟩ ∧
    IsEnumeration (fun _ index => index) ∧ IsEnumeration (fun _ index => index.reverse) ∧
    ∃ res, resolveWithin (Files.ofTree rivalsBack) visitLimit ⟨"/p"⟩ rivalManifest ⟨"", "", []⟩
        (installedBy fun _ index => index.reverse) = Except.ok res ∧
      (imported res.graph).map (fun n => n.located.version?.map (·.text)) = [some "1.0.0"] ∧
      res.warnings.map (·.message) = ["pinned package e 1 does not satisfy `=2` " ++
        "but is not reachable from the entry module"] := by
  have hsame : SameFiles (Files.ofTree rivals) (Files.ofTree rivalsBack) :=
    sameFiles_of_perm rfl (List.reverse_perm _) (by decide +kernel)
  have hkept : IsEnumeration fun _ index => index := fun _ _ => .refl _
  have hback : IsEnumeration fun _ index => index.reverse := fun _ index => index.reverse_perm
  refine ⟨hsame, by decide +kernel, hkept, hback, ?_⟩
  obtain ⟨halike, hres⟩ :=
    resolve_of_relisted hsame hkept hback visitLimit ⟨"/p"⟩ rivalManifest ⟨"", "", []⟩
  rw [halike, hres]
  change ∃ res, resolveRivals = Except.ok res ∧ _
  have hfound : resolveRivals.map (fun res =>
        ((imported res.graph).map (fun n => n.located.version?.map (·.text)),
          res.warnings.map (·.message))) =
      .ok ([some "1.0.0"], ["pinned package e 1 does not satisfy `=2` " ++
        "but is not reachable from the entry module"]) := by decide +kernel
  obtain ⟨res, hr, hseen⟩ := except_map_eq_ok.mp hfound
  obtain ⟨hversions, hwarnings⟩ := Prod.mk.inj hseen
  exact ⟨res, hr, hversions, hwarnings⟩

end ContractBuild.Graph

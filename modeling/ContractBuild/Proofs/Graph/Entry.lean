import Mathlib
import ContractBuild.Proofs.Graph.Enclosing
import ContractBuild.Proofs.Graph.Fault
import ContractBuild.Proofs.Graph.Roots

/-!
The entry of a project that declares no source roots. Its only root is then the directory of the
entry, however the path of the entry is written, so the module is named after its file. Only a
package has no name on that root, which is its own directory.
-/

namespace ContractBuild.Graph

open ContractBuild.Disk ContractBuild.Text

/-! ### Manifests without source roots -/

/-- An accepted entry is a relative path to a Python file. -/
lemma checkEntry_eq_ok {entry : Path} (h : Manifest.checkEntry entry = .ok ()) :
    entry.isAbsolute = false ∧ ∃ stem : String, entry.fileName = some (stem ++ ".py") := by
  unfold Manifest.checkEntry at h
  split_ifs at h with hextension habsolute
  refine ⟨by simpa using habsolute, ?_⟩
  rw [ne_eq, not_not, Path.extension] at hextension
  split at hextension
  · next name hname =>
    obtain ⟨ext, hsplit, hext⟩ := Option.map_eq_some_iff.mp hextension
    have hpy : ext = ['p', 'y'] := by simpa using congrArg String.toList hext
    refine ⟨String.ofList (Path.splitName name.toList).1, hname.trans (congrArg some ?_)⟩
    apply String.toList_inj.mp
    rw [String.toList_append, String.toList_ofList]
    exact (Path.eq_of_splitName hsplit).trans (by rw [hpy]; rfl)
  · cases hextension

lemma ofDraft_eq_ok {d : Manifest.Draft} {m : Manifest} (h : Manifest.ofDraft d = .ok m) :
    Manifest.checkEntry d.entry = .ok () ∧ m.entry = d.entry ∧
      (d.sourceRoots = [] → m.sourceRoots = [d.entry.parent.getD ⟨""⟩]) ∧
      ∃ pins, m.versionPins = .ok pins := by
  obtain ⟨_, hentry, h⟩ := except_bind_ok.mp h
  obtain ⟨_, -, h⟩ := except_bind_ok.mp h
  obtain ⟨pins, hpins, h⟩ := except_bind_ok.mp h
  obtain ⟨output, -, h⟩ := except_bind_ok.mp h
  cases h
  exact ⟨hentry, rfl, fun hroots => by simp [hroots], pins, hpins⟩

/-! ### The name of the entry -/

/-- A file that lies directly on a root has the name of the module, unless it makes a package. -/
lemma moduleName?_file (stem : String) : moduleName? [stem ++ ".py"] =
    if stem = "__init__" then none else some (stem, false) := by
  have hstrip : stripSuffix? ".py".toList (stem ++ ".py").toList = some stem.toList :=
    stripSuffix?_eq_some.mpr String.toList_append
  have hdotted : Candidate.dotted [stem] = stem := String.intercalate_singleton
  rw [moduleName?, List.getLast?_singleton]
  simp only [hstrip, Option.map_some, Option.getD_some, String.ofList_toList]
  by_cases hinit : stem = "__init__"
  · simp [hinit]
  · simp [hinit, hdotted]

lemma entryName_file {dir : Place} {stem : String} (hdir : dir.IsProper)
    (hname : IsName (stem ++ ".py")) :
    entryName (Tree.pathTo (dir ++ [stem ++ ".py"])) [Tree.pathTo dir] =
      if stem = "__init__" then .error (.entryOutsideRoots
        (Tree.pathTo (dir ++ [stem ++ ".py"])).text (Tree.pathTo dir).text)
      else .ok (stem, false) := by
  have hbelow : (Tree.pathTo dir).below? (Tree.pathTo (dir ++ [stem ++ ".py"])) =
      some [.name (stem ++ ".py")] := by
    rw [Path.below?, List.isPrefixOf?_eq_some_iff_append_eq, Path.components_pathTo hdir,
      Path.components_pathTo (isProper_snoc.mpr ⟨hdir, hname⟩), List.map_append]
    rfl
  have hroots : String.intercalate ", " [(Tree.pathTo dir).text] = (Tree.pathTo dir).text :=
    String.intercalate_singleton
  rw [entryName]
  simp only [List.findSome?_cons, List.findSome?_nil, hbelow, Option.bind_some, List.map_cons,
    List.map_nil, Path.Component.text, moduleName?_file, hroots]
  split_ifs
  · rfl
  · rfl

/-- The entry lies on its own directory, whatever detours its path makes. -/
lemma normalize_entry {root entry : Path} {name : String} (hroot : root.isAbsolute = true)
    (hentry : entry.isAbsolute = false) (hname : entry.fileName = some name) : ∃ dir : Place,
    dir.IsProper ∧ (root.join entry).normalize = Tree.pathTo (dir ++ [name]) ∧
      (root.join (entry.parent.getD ⟨""⟩)).normalize = Tree.pathTo dir := by
  obtain ⟨parent, hparent, hdest⟩ := Path.destination_of_fileName root.normalPlace hname
  have hrelative := Path.isAbsolute_parent hparent hentry
  refine ⟨parent.destination root.normalPlace, ?_, ?_, ?_⟩
  · rw [← Path.normalPlace_join hroot hrelative]
    exact Path.isProper_normalPlace _
  · rw [Path.normalize_of_isAbsolute (Path.isAbsolute_join hroot entry),
      Path.normalPlace_join hroot hentry, hdest]
  · rw [hparent, Option.getD_some,
      Path.normalize_of_isAbsolute (Path.isAbsolute_join hroot parent),
      Path.normalPlace_join hroot hrelative]

/-! ### Resolving -/

section Resolve

variable {t : Tree} {project root : Path} {manifest : Manifest} {base : BaseLibrary}

lemma prepare_of_unnamed {pins : List Version.Pin} {f : Fault}
    (hpins : manifest.versionPins = .ok pins) (hroot : t.canonical project = .ok root)
    (hfile : t.isFile (root.join manifest.entry).normalize = true)
    (hname : entryName (root.join manifest.entry).normalize
      (manifest.sourceRoots.map fun r => (root.join r).normalize) = .error f) :
    prepare (Files.ofTree t) project manifest base = Except.error f := by
  have hfile' : (Files.ofTree t).isFile (root.join manifest.entry).normalize = true := by
    rw [show (Files.ofTree t).isFile = t.isFile from rfl]
    exact hfile
  refine bind_eq_error.mpr (.inr ⟨pins, by rw [hpins]; rfl, ?_⟩)
  refine bind_eq_error.mpr (.inr ⟨.ok root, lift_id_eq_ok.mpr hroot, ?_⟩)
  dsimp only
  refine bind_eq_error.mpr (.inr ⟨true, lift_id_eq_ok.mpr hfile', ?_⟩)
  rw [if_neg (by decide)]
  exact bind_eq_error.mpr (.inl (lift_eq_error.mpr hname))

/-- That the entry lies outside the roots is said only if it has no name on them. -/
lemma resolveWithin_ne_entryOutsideRoots {pins : List Version.Pin} {n : String × Bool}
    (hpins : manifest.versionPins = .ok pins) (hroot : t.canonical project = .ok root)
    (hfile : t.isFile (root.join manifest.entry).normalize = true)
    (hname : entryName (root.join manifest.entry).normalize
      (manifest.sourceRoots.map fun r => (root.join r).normalize) = .ok n)
    (fuel : ℕ) (entry roots : String) :
    resolveWithin (Files.ofTree t) fuel project manifest base ≠
      Except.error (.entryOutsideRoots entry roots) := by
  intro h
  rcases bind_eq_error.mp h with h | ⟨⟨scope, first⟩, -, h⟩
  · have hprep : ∃ p, prepare (Files.ofTree t) project manifest base = Except.ok p :=
      ⟨_, prepare_eq_ok.mpr ⟨pins, root, n.1, n.2, hpins, hroot, hfile, hname, rfl, rfl⟩⟩
    obtain ⟨p, hp⟩ := hprep
    cases h.symm.trans hp
  rcases bind_eq_error.mp h with h | ⟨s, -, h⟩
  · cases isOfModule_of_explore h nofun
  · dsimp only at h
    split at h
    · cases h
    · cases h

/-- **The default root holds the entry.** Without declared source roots the module of an entry file
is named after it, so a project is not refused because its entry lies outside the roots, unless the
file makes a package: then it always is, although the file is there. -/
theorem default_root_holds_entry {d : Manifest.Draft} (hd : d.sourceRoots = [])
    (hm : Manifest.ofDraft d = .ok manifest) (hroot : t.canonical project = .ok root)
    (hfile : t.isFile (root.join manifest.entry).normalize = true) :
    ∃ stem : String, manifest.entry.fileName = some (stem ++ ".py") ∧
      (stem ≠ "__init__" →
        entryName (root.join manifest.entry).normalize
          (manifest.sourceRoots.map fun r => (root.join r).normalize) = .ok (stem, false) ∧
        ∀ fuel entry roots, resolveWithin (Files.ofTree t) fuel project manifest base ≠
          Except.error (.entryOutsideRoots entry roots)) ∧
      (stem = "__init__" → ∃ dir : Place,
        (root.join manifest.entry).normalize = Tree.pathTo (dir ++ ["__init__.py"]) ∧
        ∀ fuel, resolveWithin (Files.ofTree t) fuel project manifest base =
          Except.error (.entryOutsideRoots (root.join manifest.entry).normalize.text
            (Tree.pathTo dir).text)) := by
  obtain ⟨hcheck, hentry, hroots, pins, hpins⟩ := ofDraft_eq_ok hm
  obtain ⟨hrelative, stem, hname⟩ := checkEntry_eq_ok hcheck
  obtain ⟨dir, hdir, hplace, hparent⟩ :=
    normalize_entry (isAbsolute_of_canonical hroot) hrelative hname
  rw [← hentry] at hname hplace
  have hfound : entryName (root.join manifest.entry).normalize
      (manifest.sourceRoots.map fun r => (root.join r).normalize) =
      if stem = "__init__" then .error (.entryOutsideRoots
        (Tree.pathTo (dir ++ [stem ++ ".py"])).text (Tree.pathTo dir).text)
      else .ok (stem, false) := by
    rw [hroots hd, List.map_singleton, hparent, hplace]
    exact entryName_file hdir (Path.isName_of_fileName hname)
  refine ⟨stem, hname, fun hstem => ?_, fun hstem => ⟨dir, ?_, fun fuel => ?_⟩⟩
  · rw [if_neg hstem] at hfound
    exact ⟨hfound, resolveWithin_ne_entryOutsideRoots hpins hroot hfile hfound⟩
  · rw [hplace, hstem]
    rfl
  · rw [if_pos hstem, ← hplace] at hfound
    exact bind_eq_error.mpr (.inl (prepare_of_unnamed hpins hroot hfile hfound))

end Resolve

/-- A directory with a module and the file of a package. -/
def windingTree : Tree where
  nodes := [(["p"], .directory), (["p", "a"], .directory), (["p", "a", "b"], .directory),
    (["p", "a", "x.py"], .file [] false), (["p", "a", "__init__.py"], .file [] false)]

/-- The entry of this draft is written with detours. -/
def windingDraft : Manifest.Draft := { entry := ⟨"./a//b/../x.py"⟩ }

theorem windingDraft_names_entry : ∃ m, Manifest.ofDraft windingDraft = .ok m ∧
    windingTree.canonical ⟨"/p"⟩ = .ok ⟨"/p"⟩ ∧
    windingTree.isFile ((Path.mk "/p").join m.entry).normalize = true ∧
    entryName ((Path.mk "/p").join m.entry).normalize
      (m.sourceRoots.map fun r => ((Path.mk "/p").join r).normalize) = .ok ("x", false) ∧
    ∀ entry roots, resolve (Files.ofTree windingTree) ⟨"/p"⟩ m ⟨"base", "1", []⟩ ≠
      Except.error (.entryOutsideRoots entry roots) := by
  have haccepted : (Manifest.ofDraft windingDraft).isOk = true := by decide +kernel
  have hroot : windingTree.canonical ⟨"/p"⟩ = .ok ⟨"/p"⟩ := by decide +kernel
  rcases hm : Manifest.ofDraft windingDraft with f | m
  · rw [hm] at haccepted
    cases haccepted
  have hentry : m.entry = windingDraft.entry := (ofDraft_eq_ok hm).2.1
  have hfile : windingTree.isFile ((Path.mk "/p").join m.entry).normalize = true := by
    rw [hentry]
    decide +kernel
  obtain ⟨stem, hname, hheld, -⟩ := @default_root_holds_entry windingTree ⟨"/p"⟩ ⟨"/p"⟩ m
    ⟨"base", "1", []⟩ windingDraft rfl hm hroot hfile
  have hx : windingDraft.entry.fileName = some "x.py" := by decide +kernel
  rw [hentry, hx] at hname
  obtain rfl : stem = "x" := by
    have htext := congrArg String.toList (Option.some.inj hname)
    rw [String.toList_append] at htext
    exact String.toList_inj.mp (List.append_cancel_right (show _ = ['x'] ++ _ from htext.symm))
  obtain ⟨hnamed, hresolves⟩ := hheld (by decide)
  exact ⟨m, rfl, hroot, hfile, hnamed, hresolves visitLimit⟩

/-- The file of a package is there, and its project is refused for an entry outside the roots. -/
theorem package_entry_is_refused :
    windingTree.isFile ⟨"/p/a/__init__.py"⟩ = true ∧
      (Manifest.ofDraft { entry := ⟨"a/__init__.py"⟩ }).toOption.map (fun m =>
        Except.map (·.graph.entry)
          (resolve (Files.ofTree windingTree) ⟨"/p"⟩ m ⟨"base", "1", []⟩).run) =
        some (.error (.entryOutsideRoots "/p/a/__init__.py" "/p/a")) := by
  decide +kernel

end ContractBuild.Graph

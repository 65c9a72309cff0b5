import Mathlib
import ContractBuild.Native.Workspace
import ContractBuild.Proofs.Disk.Whole
import ContractBuild.Proofs.Frozen.Place
import ContractBuild.Proofs.Host.Replace

/-!
What a build workspace holds. Modules are written one after the other into a new directory, so the
file at a place has the content of the latest module that lies there.
-/

namespace ContractBuild

open ContractBuild.Disk ContractBuild.Host ContractBuild.Text

/-! ### What is written -/

namespace Native.Workspace

variable {dir : Path} {m : Frozen.Module} {ms : List Frozen.Module} {t t' : Tree}

/-- The file of a module in a workspace. -/
def fileOf (dir : Path) (m : Frozen.Module) : Path :=
  ⟨(sources dir).text ++ "/" ++ m.relativePath⟩

/-- The workspace holds the modules: each file has the content of its module, and there are no other
files among them. -/
structure Holds (dir : Path) (ms : List Frozen.Module) (t : Tree) : Prop where
  held : ∀ m ∈ ms, t.read (fileOf dir m) = .ok m.content
  only : ∀ place content x, t.get? ((sources dir).destination t.start ++ place) =
    some (.file content x) → ∃ m ∈ ms, m.place = place

lemma isName_frozen : IsName Frozen.directory := by decide

lemma text_sources_ne_nil (dir : Path) : (sources dir).text.toList ≠ [] :=
  Tree.text_joinName_ne_nil dir isName_frozen

/-- A module is written to its file, unless its path replaces that of the sources. -/
lemma joinName_relativePath (hm : ¬ m.IsRooted) :
    (sources dir).joinName m.relativePath = fileOf dir m := by
  have hrelative : (Path.mk m.relativePath).isAbsolute = false := Bool.eq_false_iff.mpr hm
  have hempty : (sources dir).text.isEmpty = false := by simpa using text_sources_ne_nil dir
  rw [Path.joinName, Path.join, hrelative, hempty, Bool.false_or, if_neg Bool.false_ne_true]
  have hslash : ((Text.chars (sources dir).text).getLast? == some '/') = false :=
    Path.endsInSlash_joinName dir isName_frozen
  rw [hslash, if_neg Bool.false_ne_true]
  rfl

lemma destination_fileOf (dir : Path) (m : Frozen.Module) (start : Place) :
    (fileOf dir m).destination start = (sources dir).destination start ++ m.place := by
  have htext : (fileOf dir m).text.toList =
      (sources dir).text.toList ++ '/' :: m.relativePath.toList := by
    simp [fileOf]
  rw [Path.destination, htext, Path.lead_append start (text_sources_ne_nil dir)]
  exact Place.follow_of_isProper m.isProper_place

lemma destination_sources_ne_nil (dir : Path) (start place : Place) :
    (sources dir).destination start ++ place ≠ [] := by
  rw [sources, Path.destination_joinName start dir isName_frozen]
  simp

/-- The last of the modules that lie at a place. -/
def latest (ms : List Frozen.Module) (place : Place) : Option Frozen.Module :=
  ms.reverse.find? fun m => m.place = place

lemma latest_snoc (ms : List Frozen.Module) (m : Frozen.Module) (place : Place) :
    latest (ms ++ [m]) place = if m.place = place then some m else latest ms place := by
  rw [latest, List.reverse_concat, List.find?_cons]
  by_cases h : m.place = place <;> simp [h, latest]

lemma latest_eq_some {place : Place} (h : latest ms place = some m) : m ∈ ms ∧ m.place = place := by
  refine ⟨List.mem_reverse.mp (List.mem_of_find?_eq_some h), ?_⟩
  simpa using List.find?_some h

lemma exists_latest (hm : m ∈ ms) : ∃ n, latest ms m.place = some n := by
  refine Option.isSome_iff_exists.mp (List.find?_isSome.mpr ⟨m, List.mem_reverse.mpr hm, ?_⟩)
  simp

/-- Some modules have been written, and each file has the content of the latest one that lies at its
place. -/
structure Filled (dir : Path) (ms : List Frozen.Module) (t : Tree) : Prop where
  files : ∀ place, (t.file? ((sources dir).destination t.start ++ place)).map Prod.fst =
    (latest ms place).map (·.content)
  known : ∀ m ∈ ms, t.Knows (fileOf dir m)

namespace Filled

lemma keeps (h : Filled dir ms t) (hkeeps : t.KeepsDirectories t')
    (hfiles : ∀ place, t'.file? ((sources dir).destination t.start ++ place) =
      t.file? ((sources dir).destination t.start ++ place)) : Filled dir ms t' where
  files place := by rw [hkeeps.start, hfiles, h.files]
  known m hm := (h.known m hm).mono hkeeps

lemma makeDirectory (h : Filled dir ms t) {p : Path} (hok : t.makeDirectory p = .ok t') :
    Filled dir ms t' :=
  h.keeps (Tree.keepsDirectories_makeDirectory hok) fun _ => Tree.file?_makeDirectory hok _

/-- What is written elsewhere does not count. -/
lemma writeBeside (h : Filled dir ms t) {name : String} (hname : IsName name)
    (hne : name ≠ Frozen.directory) {content : Bytes}
    (hok : t.write (dir.joinName name) content = .ok t') : Filled dir ms t' := by
  obtain ⟨-, hdir, x, rfl⟩ := Tree.write_eq_ok hok
  refine h.keeps (Tree.keepsDirectories_put hdir) fun place =>
    Tree.file?_congr (Tree.get?_put_of_ne ?_)
  rw [sources, Path.destination_joinName _ dir isName_frozen, Path.destination_joinName _ dir hname,
    List.append_assoc]
  intro heq
  exact hne (List.cons.inj (List.append_cancel_left heq)).1.symm

lemma writeModule (h : Filled dir ms t)
    (hok : t.write (fileOf dir m) m.content = .ok t') : Filled dir (ms ++ [m]) t' := by
  obtain ⟨hknows, hdir, x, rfl⟩ := Tree.write_eq_ok hok
  have hkeeps := Tree.keepsDirectories_put hdir (n := .file m.content x)
  rw [destination_fileOf] at hdir ⊢ hkeeps
  refine ⟨fun place => ?_, fun n hn => ?_⟩
  · rw [Tree.start_put, latest_snoc]
    by_cases hplace : m.place = place
    · have hget := Tree.get?_put t ((sources dir).destination t.start ++ m.place)
        ((sources dir).destination t.start ++ place) (.file m.content x)
      rw [if_pos ⟨by rw [hplace], destination_sources_ne_nil dir t.start place⟩] at hget
      rw [if_pos hplace, Tree.file?_eq_some.mpr hget]
      rfl
    · have hne : (sources dir).destination t.start ++ place ≠
          (sources dir).destination t.start ++ m.place :=
        fun heq => hplace (List.append_cancel_left heq).symm
      rw [if_neg hplace, Tree.file?_congr (Tree.get?_put_of_ne hne), h.files]
  · rcases List.mem_append.mp hn with hn | hn
    · exact (h.known n hn).mono hkeeps
    · rw [List.mem_singleton.mp hn]
      exact hknows.mono hkeeps

lemma get?_iff (h : Filled dir ms t) {place : Place} {content : Bytes} :
    (∃ x, t.get? ((sources dir).destination t.start ++ place) = some (.file content x)) ↔
      ∃ n, latest ms place = some n ∧ n.content = content := by
  rw [← Option.map_eq_some_iff, ← h.files, Option.map_eq_some_iff]
  constructor
  · rintro ⟨x, hget⟩
    exact ⟨(content, x), Tree.file?_eq_some.mpr hget, rfl⟩
  · rintro ⟨⟨_, x⟩, hfile, rfl⟩
    exact ⟨x, Tree.file?_eq_some.mp hfile⟩

lemma read_iff (h : Filled dir ms t) (hm : m ∈ ms) {content : Bytes} :
    t.read (fileOf dir m) = .ok content ↔
      ∃ n, latest ms m.place = some n ∧ n.content = content := by
  rw [Tree.read_eq_ok_iff, and_iff_right (h.known m hm), destination_fileOf]
  exact h.get?_iff

/-- The modules are held just if those that lie at one place have one content. -/
lemma holds_iff (h : Filled dir ms t) : Holds dir ms t ↔
    ∀ m ∈ ms, ∀ n ∈ ms, m.place = n.place → m.content = n.content := by
  constructor
  · intro hholds m hm n hn hplace
    obtain ⟨k, hk, hmcontent⟩ := (h.read_iff hm).mp (hholds.held m hm)
    obtain ⟨k', hk', hncontent⟩ := (h.read_iff hn).mp (hholds.held n hn)
    rw [← hplace, hk] at hk'
    rw [← hmcontent, ← hncontent, Option.some.inj hk']
  · intro hsame
    refine ⟨fun m hm => (h.read_iff hm).mpr ?_, fun place content x hget => ?_⟩
    · obtain ⟨n, hlatest⟩ := exists_latest hm
      obtain ⟨hn, hplace⟩ := latest_eq_some hlatest
      exact ⟨n, hlatest, hsame n hn m hm hplace⟩
    · obtain ⟨n, hlatest, -⟩ := h.get?_iff.mp ⟨x, hget⟩
      exact ⟨n, latest_eq_some hlatest⟩

end Filled

/-! ### Preparing a workspace -/

/-- Only what is done without a fault counts. -/
lemma ensures_preparing {α : Type} {P E : Host → Prop} {Q : α → Host → Prop} (p : Path)
    {act : Attempt Disk.Fault α} (h : Ensures P act.run (Ends E Q)) :
    Ensures P (preparing p act).run (Ends (fun _ => True) Q) := by
  refine ensures_result h fun r => ?_
  cases r with
  | ok a => exact Ensures.pure_ok fun _ hh => hh
  | error f => exact fun _ _ => trivial

lemma ensures_preparing_directories {T : Tree → Prop}
    (hT : ∀ p t t', T t → t.makeDirectory p = .ok t' → T t') (p : Path) :
    Ensures (Unshared T) (preparing p (makeDirectories p)).run
      (Ends (fun _ => True) fun _ => Unshared T) :=
  ensures_preparing p (keeps_iff_ends.mp
    (keeps_makeAll quiet_unshared fun q _ => keeps_alter_unshared (hT q)))

lemma ensures_writeModule (hm : ¬ m.IsRooted) : Ensures (Unshared (Filled dir ms))
    (writeModule dir m).run (Ends (fun _ => True) fun _ => Unshared (Filled dir (ms ++ [m]))) := by
  have hwrite : Ensures (Unshared (Filled dir ms)) (preparing ((sources dir).joinName m.relativePath)
      (Host.write ((sources dir).joinName m.relativePath) m.content)).run
      (Ends (fun _ => True) fun _ => Unshared (Filled dir (ms ++ [m]))) := by
    rw [joinName_relativePath hm]
    exact ensures_preparing _ (ensures_writing_unshared fun _ _ hfilled => hfilled.writeModule)
  unfold writeModule
  dsimp only
  split
  · exact Ensures.bind_ok
      (ensures_preparing_directories (fun _ _ _ hfilled => hfilled.makeDirectory) _) fun _ => hwrite
  · exact hwrite

/-- Modules are written in order. -/
lemma ensures_forM {done rest : List Frozen.Module} (hrest : ∀ m ∈ rest, ¬ m.IsRooted) :
    Ensures (Unshared (Filled dir done)) (rest.forM (writeModule dir)).run
      (Ends (fun _ => True) fun _ => Unshared (Filled dir (done ++ rest))) := by
  induction rest generalizing done with
  | nil =>
    rw [List.append_nil]
    exact Ensures.pure_ok fun _ hh => hh
  | cons m rest ih =>
    obtain ⟨hm, hrest⟩ := List.forall_mem_cons.mp hrest
    change Ensures _ (writeModule dir m >>= fun _ => rest.forM (writeModule dir)).run _
    refine Ensures.bind_ok (ensures_writeModule hm) fun _ => ?_
    have hstep := @ih (done ++ [m]) hrest
    rwa [List.append_assoc] at hstep

lemma ensures_fill {frozen : Frozen} (hrooted : ∀ m ∈ frozen.modules, ¬ m.IsRooted) :
    Ensures (Unshared (Filled dir [])) (fill dir frozen).run
      (Ends (fun _ => True) fun _ => Unshared (Filled dir frozen.modules)) := by
  refine Ensures.bind_ok (ensures_forM hrooted) fun _ => ?_
  refine Ensures.bind_ok (Q := fun _ => Unshared (Filled dir frozen.modules))
    (ensures_preparing _ (ensures_writing_unshared fun _ _ hfilled hok => ?_)) fun _ => ?_
  · exact hfilled.writeBeside (by decide) (by decide) hok
  · exact ensures_preparing_directories (fun _ _ _ hfilled => hfilled.makeDirectory) _

/-- Looks at the files of a workspace. -/
def observed (dir : Path) : Attempt Fault (Path × Tree) := do return (dir, (← getThe Host).tree)

lemma filled_of_makeDirectory (h : t.IsWhole) (hok : t.makeDirectory dir = .ok t') :
    Filled dir [] t' := by
  refine ⟨fun place => ?_, fun m hm => nomatch hm⟩
  rw [(Tree.keepsDirectories_makeDirectory hok).start, sources,
    Path.destination_joinName _ dir isName_frozen, List.append_assoc, Tree.file?,
    h.get?_makeDirectory hok (by simp)]
  rfl

/-- Work in a new directory, where only its result counts. -/
lemma ensures_inScratch {ε α : Type} {wrap : Disk.Fault → ε} {root : Path} {lead : String}
    {act : Path → Attempt ε α} {T : Tree → Prop} {U : Path → Tree → Prop} {R : α → Prop}
    (hmake : ∀ dir t t', T t → t.makeDirectory dir = .ok t' → U dir t')
    (hact : ∀ dir, Ensures (Unshared (U dir)) (act dir).run (Ends (fun _ => True) fun a _ => R a)) :
    Ensures (Unshared T) (inScratch wrap root lead act).run
      (Ends (fun _ => True) fun a _ => R a) := by
  refine Ensures.bind_ok (Q := fun _ => Unshared T) (Ensures.lift fun h hh => ⟨hh.others, hh.tree⟩)
    fun n => ?_
  refine ensures_result (ensures_alter_unshared fun t t' => hmake _ t t') fun r => ?_
  cases r with
  | error f => exact fun _ _ => trivial
  | ok _ =>
    refine ensures_result (hact _) fun r => ?_
    cases r with
    | error e => exact fun _ _ => trivial
    | ok a =>
      refine Ensures.bind_ok (Q := fun _ _ => R a) (Ensures.lift fun h ha => ha) fun _ => ?_
      exact Ensures.pure_ok fun _ ha => ha

lemma ensures_within (root : Path) {frozen : Frozen}
    (hrooted : ∀ m ∈ frozen.modules, ¬ m.IsRooted) :
    Ensures (Unshared Tree.IsWhole) (within root frozen observed).run
      (Ends (fun _ => True) fun r _ => Filled r.1 frozen.modules r.2) := by
  refine Ensures.bind_ok
    (ensures_preparing_directories (fun _ _ _ hwhole => hwhole.makeDirectory) root) fun _ => ?_
  refine ensures_inScratch (U := fun dir => Filled dir [])
    (fun dir t t' hwhole hok => filled_of_makeDirectory hwhole hok) fun dir => ?_
  refine Ensures.bind_ok (ensures_fill hrooted) fun _ => ?_
  exact fun h hh => hh.tree

/-! ### Frozen projects -/

section Project

variable {project : Path} {manifest : Manifest} {base : BaseLibrary} {res : Graph.Resolution}
  {frozen : Frozen}

/-- Modules of a frozen project other than the entry have one content if they lie at one place, as
they come from one file. -/
lemma content_eq_of_place
    (hres : Graph.resolve (Files.ofTree t) project manifest base = Except.ok res)
    (hfrozen : frozen = Frozen.ofGraph base res.graph)
    (hnames : ∀ m ∈ frozen.modules, ∀ part ∈ splitString '.' m.name, IsName part)
    {m n : Frozen.Module} (hm : m ∈ frozen.modules) (hn : n ∈ frozen.modules)
    (hne : m.name ≠ frozen.entry ∧ n.name ≠ frozen.entry) (hplace : m.place = n.place) :
    m.content = n.content := by
  have hmname := hnames m hm
  have hnname := hnames n hn
  rw [Frozen.Module.place_eq hmname, Frozen.Module.place_eq hnname] at hplace
  subst hfrozen
  obtain ⟨k, hk, rfl⟩ := List.mem_map.mp hm
  obtain ⟨k', hk', rfl⟩ := List.mem_map.mp hn
  exact Graph.source_eq_of_pieces hres hk hk' hne hmname hnname hplace

/-- **What a workspace holds.** Where no relative path begins with a slash, the workspace of a frozen
project holds its modules just if those that lie at one place have one content. If besides all
components are names, only the entry can have another content than a module at its place. -/
theorem workspace_holds_modules {u : Tree} {root : Path} {h h' : Host} {found : Tree}
    (hres : Graph.resolve (Files.ofTree t) project manifest base = Except.ok res)
    (hfrozen : Frozen.freeze (Files.ofTree u) base res.graph = Except.ok frozen)
    (hothers : ∀ n t, h.change n t = t) (hwhole : h.tree.IsWhole)
    (hrun : (within root frozen observed).run h = (.ok (dir, found), h')) :
    ((∀ m ∈ frozen.modules, ¬ m.IsRooted) →
      (Holds dir frozen.modules found ↔
        ∀ m ∈ frozen.modules, ∀ n ∈ frozen.modules, m.place = n.place → m.content = n.content)) ∧
    ((∀ m ∈ frozen.modules, ∀ part ∈ splitString '.' m.name, IsName part) →
      (Holds dir frozen.modules found ↔
        ∀ e ∈ frozen.modules, e.name = frozen.entry →
          ∀ m ∈ frozen.modules, m.place = e.place → m.content = e.content)) := by
  have hexact (hrooted : ∀ m ∈ frozen.modules, ¬ m.IsRooted) : Holds dir frozen.modules found ↔
      ∀ m ∈ frozen.modules, ∀ n ∈ frozen.modules, m.place = n.place → m.content = n.content := by
    have hfilled := ensures_within root hrooted h ⟨hothers, hwhole⟩
    rw [hrun] at hfilled
    exact hfilled.holds_iff
  refine ⟨hexact, fun hnames => ?_⟩
  rw [hexact fun m hm => Frozen.Module.not_isRooted (hnames m hm)]
  constructor
  · intro hsame e he _ m hm hplace
    exact hsame m hm e he hplace
  · intro hentry m hm n hn hplace
    by_cases hmentry : m.name = frozen.entry
    · exact (hentry m hm hmentry n hn hplace.symm).symm
    by_cases hnentry : n.name = frozen.entry
    · exact hentry n hn hnentry m hm hplace
    -- all but the entry were looked for below the roots, and by their places
    · exact content_eq_of_place hres (Frozen.eq_ofGraph_of_freeze hfrozen) hnames hm hn
        ⟨hmentry, hnentry⟩ hplace

end Project

/-! ### Some workspaces -/

def resolutionOf (t : Tree) (manifest : Manifest) : Except Graph.Fault Graph.Resolution :=
  Graph.resolve (Files.ofTree t) ⟨"/p"⟩ manifest ⟨"base", "1", []⟩

def frozenOf (t : Tree) (g : Graph) : Except Frozen.Stale Frozen :=
  Frozen.freeze (Files.ofTree t) ⟨"base", "1", []⟩ g

/-- A workspace for a frozen project, and the files when it is ready. -/
def preparedOf (t : Tree) (frozen : Frozen) : Option (Path × Tree) :=
  ((within ⟨"/tmp"⟩ frozen observed).run { tree := t }).1.toOption

/-- Freezes the project of a tree and prepares a workspace for it. -/
def workspaceOf (t : Tree) (manifest : Manifest) : Option (Frozen × Path × Tree) := do
  let res ← (resolutionOf t manifest).toOption
  let frozen ← (frozenOf t res.graph).toOption
  return (frozen, ← preparedOf t frozen)

/-- Freezing a project that nobody changes need not be followed. -/
lemma workspaceOf_eq (t : Tree) (manifest : Manifest) : workspaceOf t manifest =
    (resolutionOf t manifest).toOption.bind fun res =>
      (preparedOf t (Frozen.ofGraph ⟨"base", "1", []⟩ res.graph)).map fun w =>
        (Frozen.ofGraph ⟨"base", "1", []⟩ res.graph, w) := by
  unfold workspaceOf
  rcases hres : resolutionOf t manifest with f | res
  · rfl
  · have hfrozen : frozenOf t res.graph = .ok (Frozen.ofGraph ⟨"base", "1", []⟩ res.graph) :=
      Frozen.freeze_of_resolve hres
    change (frozenOf t res.graph).toOption.bind _ = (preparedOf t _).map _
    rw [hfrozen]
    change (preparedOf t _).bind _ = _
    rw [Option.map_eq_bind]
    rfl

lemma workspaceOf_eq_some {t : Tree} {manifest : Manifest} {frozen : Frozen} {dir : Path}
    {found : Tree} (h : workspaceOf t manifest = some (frozen, dir, found)) :
    ∃ res h', resolutionOf t manifest = .ok res ∧ frozenOf t res.graph = .ok frozen ∧
      (within ⟨"/tmp"⟩ frozen observed).run { tree := t } = (.ok (dir, found), h') := by
  obtain ⟨res, hres, h⟩ := Option.bind_eq_some_iff.mp h
  obtain ⟨frozen', hfrozen, h⟩ := Option.bind_eq_some_iff.mp h
  obtain ⟨w, hrun, h⟩ := Option.bind_eq_some_iff.mp h
  cases h
  exact ⟨res, _, toOption_eq_some.mp hres, toOption_eq_some.mp hfrozen,
    Prod.ext (toOption_eq_some.mp hrun) rfl⟩

/-- A directory of sources with a module that imports a package. -/
def plainTree : Tree where
  nodes := [(["tmp"], .directory), (["p"], .directory), (["p", "src"], .directory),
    (["p", "src", "main.py"], .file (Utf8.encode "import a\n") false),
    (["p", "src", "a"], .directory),
    (["p", "src", "a", "__init__.py"], .file (Utf8.encode "x = 1\n") false)]

/-- Sources are looked for in two directories. -/
def twoRoots (entry : String) : Manifest :=
  { Graph.plainManifest entry with sourceRoots := [⟨"lib"⟩, ⟨"src"⟩] }

theorem plainTree_workspace_holds_modules : ∃ frozen dir found,
    workspaceOf plainTree (twoRoots "src/main.py") = some (frozen, dir, found) ∧
      frozen.modules.map (·.relativePath) = ["main.py", "a/__init__.py"] ∧
      Holds dir frozen.modules found := by
  have hchecked : (workspaceOf plainTree (twoRoots "src/main.py")).any (fun w => decide (
      w.1.modules.map (·.relativePath) = ["main.py", "a/__init__.py"] ∧
      (∀ m ∈ w.1.modules, ∀ part ∈ splitString '.' m.name, IsName part) ∧
      ∀ e ∈ w.1.modules, e.name = w.1.entry →
        ∀ m ∈ w.1.modules, m.place = e.place → m.content = e.content)) = true := by
    rw [workspaceOf_eq]
    decide +kernel
  obtain ⟨⟨frozen, dir, found⟩, hw, hchecked⟩ := (Option.any_eq_true _ _).mp hchecked
  obtain ⟨hpaths, hnames, hentry⟩ := of_decide_eq_true hchecked
  refine ⟨frozen, dir, found, hw, hpaths, ?_⟩
  obtain ⟨res, h', hres, hfrozen, hrun⟩ := workspaceOf_eq_some hw
  have hwhole : plainTree.IsWhole := Tree.isWhole_of_nodes (by decide +kernel)
  have hholds := workspace_holds_modules hres hfrozen (fun _ _ => rfl) hwhole hrun
  exact (hholds.2 hnames).mpr hentry

/-- The package is the entry and is found a second time, by the name of its file, in the directory
that comes first. -/
def rivalTree : Tree where
  nodes := [(["tmp"], .directory), (["p"], .directory), (["p", "lib"], .directory),
    (["p", "lib", "a"], .directory),
    (["p", "lib", "a", "__init__.py"], .file (Utf8.encode "x = 1\n") false),
    (["p", "src"], .directory), (["p", "src", "a"], .directory),
    (["p", "src", "a", "__init__.py"], .file (Utf8.encode "import a.__init__\n") false)]

lemma exists_workspace {t : Tree} {manifest : Manifest} {P : Frozen → Prop}
    [DecidablePred P]
    (h : (workspaceOf t manifest).any (fun w => decide (P w.1 ∧
      ¬ ∀ m ∈ w.1.modules, w.2.2.read (fileOf w.2.1 m) = .ok m.content)) = true) :
    ∃ frozen dir found, workspaceOf t manifest = some (frozen, dir, found) ∧ P frozen ∧
      ¬ Holds dir frozen.modules found := by
  obtain ⟨⟨frozen, dir, found⟩, hw, h⟩ := (Option.any_eq_true _ _).mp h
  obtain ⟨hP, hlost⟩ := of_decide_eq_true h
  exact ⟨frozen, dir, found, hw, hP, fun hholds => hlost hholds.held⟩

/-- Two modules are written to one file, and the entry is lost. -/
theorem rivalTree_loses_entry : ∃ frozen dir found,
    workspaceOf rivalTree (twoRoots "src/a/__init__.py") = some (frozen, dir, found) ∧
      frozen.modules.map (fun m => (m.name, m.relativePath, m.content)) =
        [("a", "a/__init__.py", Utf8.encode "import a.__init__\n"),
          ("a.__init__", "a/__init__.py", Utf8.encode "x = 1\n")] ∧
      ¬ Holds dir frozen.modules found :=
  exists_workspace (by rw [workspaceOf_eq]; decide +kernel)

/-- A module in a directory whose name begins with a dot. -/
def dottedTree : Tree where
  nodes := [(["tmp"], .directory), (["p"], .directory), (["p", ".tmp"], .directory),
    (["p", ".tmp", "main.py"], .file (Utf8.encode "x = 1\n") false)]

/-- Its relative path begins with a slash, so it is written outside of the workspace. -/
theorem dottedTree_leaves_workspace : ∃ frozen dir found,
    workspaceOf dottedTree (Graph.plainManifest ".tmp/main.py") = some (frozen, dir, found) ∧
      frozen.modules.map (fun m => (m.name, m.relativePath)) = [(".tmp.main", "/tmp/main.py")] ∧
      ¬ Holds dir frozen.modules found :=
  exists_workspace (by rw [workspaceOf_eq]; decide +kernel)

end Native.Workspace

end ContractBuild

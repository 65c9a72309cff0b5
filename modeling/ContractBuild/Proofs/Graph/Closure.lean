import Mathlib
import ContractBuild.Proofs.Graph.Search

/-!
A resolved graph is the import closure of its entry module: its nodes are the modules reached, and
each node tells exactly what its module imports and what was left out.
-/

namespace ContractBuild.Graph

open ContractBuild.Disk ContractBuild.Text

section Resolve

variable {t : Tree} {project : Path} {manifest : Manifest} {base : BaseLibrary} {scope : Scope}
  {first : Located}

/-- The directories in which the modules of a project are looked for. -/
def rootsIn (t : Tree) (root : Path) (manifest : Manifest) : List Root :=
  (manifest.sourceRoots.map fun r => { path := (root.join r).normalize }) ++
    manifest.packageRoots.map fun r =>
      Id.run (Root.ofPackages (Files.ofTree t) (root.join r).normalize)

/-- What the search goes by, and where it starts. -/
lemma prepare_eq_ok_iff {fs : Files Id} : prepare fs project manifest base =
    Except.ok (scope, first) ↔
    ∃ pins root name isPackage, manifest.versionPins = .ok pins ∧
      fs.canonical project = Except.ok root ∧
      fs.isFile (root.join manifest.entry).normalize = true ∧
      entryName (root.join manifest.entry).normalize
        (manifest.sourceRoots.map fun r => (root.join r).normalize) = .ok (name, isPackage) ∧
      scope = ⟨manifest.exclude, base, pins,
        (manifest.sourceRoots.map fun r => { path := (root.join r).normalize }) ++
          manifest.packageRoots.map fun r =>
            Id.run (Root.ofPackages fs (root.join r).normalize)⟩ ∧
      first = ⟨name, (root.join manifest.entry).normalize, isPackage, .project⟩ := by
  have hpackages (root : Path) : (manifest.packageRoots.mapM fun r =>
        Root.ofPackages fs (root.join r).normalize : Id (List Root)) =
      manifest.packageRoots.map fun r =>
        Id.run (Root.ofPackages fs (root.join r).normalize) := List.mapM_pure
  have hsources (root : Path) : (manifest.sourceRoots.map fun r => (root.join r).normalize).map
        (fun p => ({ path := p } : Root)) =
      manifest.sourceRoots.map fun r => { path := (root.join r).normalize } := List.map_map
  constructor
  · intro h
    obtain ⟨pins, hpins, h⟩ := bind_eq_ok.mp h
    obtain ⟨r, hr, h⟩ := bind_eq_ok.mp h
    obtain rfl : fs.canonical project = r := lift_id_eq_ok.mp hr
    rcases hroot : (fs.canonical project : Except Disk.Fault Path) with f | root
    · rw [hroot] at h; cases h
    rw [hroot] at h
    dsimp only at h
    obtain ⟨b, hb, h⟩ := bind_eq_ok.mp h
    obtain rfl : fs.isFile (root.join manifest.entry).normalize = b := lift_id_eq_ok.mp hb
    split_ifs at h with hfile
    · cases h
    obtain ⟨⟨name, isPackage⟩, hname, h⟩ := bind_eq_ok.mp h
    obtain ⟨packages, hp, h⟩ := bind_eq_ok.mp h
    obtain rfl := (lift_id_eq_ok.mp hp).symm.trans (hpackages root)
    cases h
    refine ⟨pins, root, name, isPackage, ?_, rfl, by simpa using hfile, lift_eq_ok.mp hname,
      by rw [hsources], rfl⟩
    rcases hv : manifest.versionPins with f | pins'
    · rw [hv] at hpins; cases hpins
    · rw [hv] at hpins; cases hpins; rfl
  · rintro ⟨pins, root, name, isPackage, hpins, hroot, hfile, hname, rfl, rfl⟩
    refine bind_eq_ok.mpr ⟨pins, by rw [hpins]; rfl, ?_⟩
    refine bind_eq_ok.mpr ⟨.ok root, lift_id_eq_ok.mpr hroot, ?_⟩
    dsimp only
    refine bind_eq_ok.mpr ⟨true, lift_id_eq_ok.mpr hfile, ?_⟩
    rw [if_neg (by decide)]
    refine bind_eq_ok.mpr ⟨_, lift_eq_ok.mpr hname, ?_⟩
    dsimp only
    refine bind_eq_ok.mpr ⟨_, lift_id_eq_ok.mpr (hpackages root), ?_⟩
    rw [← hsources]
    rfl

lemma prepare_eq_ok : prepare (Files.ofTree t) project manifest base = Except.ok (scope, first) ↔
    ∃ pins root name isPackage, manifest.versionPins = .ok pins ∧ t.canonical project = .ok root ∧
      t.isFile (root.join manifest.entry).normalize = true ∧
      entryName (root.join manifest.entry).normalize
        (manifest.sourceRoots.map fun r => (root.join r).normalize) = .ok (name, isPackage) ∧
      scope = ⟨manifest.exclude, base, pins, rootsIn t root manifest⟩ ∧
      first = ⟨name, (root.join manifest.entry).normalize, isPackage, .project⟩ := by
  rw [prepare_eq_ok_iff, show (Files.ofTree t).isFile = t.isFile from rfl,
    show (Files.ofTree t).canonical = t.canonical from rfl]
  rfl

/-- What is left out is what the manifest and the base library say. -/
lemma prepare_excludes
    (h : prepare (Files.ofTree t) project manifest base = Except.ok (scope, first)) :
    scope.exclude = manifest.exclude ∧ scope.base = base := by
  obtain ⟨pins, root, name, isPackage, -, -, -, -, rfl, -⟩ := prepare_eq_ok.mp h
  exact ⟨rfl, rfl⟩

/-- A resolution is the graph of a search that ended, with its warnings. -/
lemma resolveWithin_eq_ok {fuel : ℕ} {res : Resolution} :
    resolveWithin (Files.ofTree t) fuel project manifest base = Except.ok res ↔
      ∃ scope first s, prepare (Files.ofTree t) project manifest base = Except.ok (scope, first) ∧
        explore (Files.ofTree t) scope fuel (.start first) = Except.ok s ∧
        res.graph = ⟨first.name, s.nodes⟩ ∧ IsConsistent first.name s.nodes ∧
        res.warnings = (warnUnreachable scope s).warnings := by
  constructor
  · intro h
    obtain ⟨⟨scope, first⟩, hprep, h⟩ := bind_eq_ok.mp h
    obtain ⟨s, hs, h⟩ := bind_eq_ok.mp h
    dsimp only at h
    rcases hg : Graph.ofNodes first.name (warnUnreachable scope s).nodes with f | g
    · rw [hg] at h; cases h
    · rw [hg] at h
      cases h
      obtain ⟨hgraph, hconsistent⟩ := ofNodes_eq_ok.mp hg
      exact ⟨scope, first, s, hprep, hs, hgraph, hconsistent, rfl⟩
  · rintro ⟨scope, first, s, hprep, hs, hgraph, hconsistent, hwarnings⟩
    refine bind_eq_ok.mpr ⟨(scope, first), hprep, bind_eq_ok.mpr ⟨s, hs, ?_⟩⟩
    have hg : Graph.ofNodes first.name (warnUnreachable scope s).nodes = .ok res.graph :=
      ofNodes_eq_ok.mpr ⟨hgraph, hconsistent⟩
    dsimp only
    rw [hg, ← hwarnings]
    rfl

/-- A resolution comes from a search that ended. -/
lemma explore_of_resolveWithin {fuel : ℕ} {res : Resolution}
    (h : resolveWithin (Files.ofTree t) fuel project manifest base = Except.ok res) :
    ∃ scope first s, prepare (Files.ofTree t) project manifest base = Except.ok (scope, first) ∧
      explore (Files.ofTree t) scope fuel (.start first) = Except.ok s ∧
      res.graph = ⟨first.name, s.nodes⟩ := by
  obtain ⟨scope, first, s, hprep, hs, hgraph, -, -⟩ := resolveWithin_eq_ok.mp h
  exact ⟨scope, first, s, hprep, hs, hgraph⟩

/-- **The resolved graph is the import closure**, however many visits it takes. Its names are those reached from the entry, each
once; a node imports exactly what its module depends on and leaves out exactly the candidates that
are excluded; only the entry may itself be excluded; and a required candidate is in the graph,
left out, the module itself, or a directory. -/
theorem resolve_eq_closure {fuel : ℕ} {res : Resolution}
    (h : resolveWithin (Files.ofTree t) fuel project manifest base = Except.ok res) :
    ∃ scope first, prepare (Files.ofTree t) project manifest base = Except.ok (scope, first) ∧
      (∀ x, scope.excludes x =
        (manifest.exclude.contains (BaseLibrary.rootOf x) || base.has x)) ∧
      res.graph.entry = first.name ∧ res.graph.names.Nodup ∧
      (∀ x, x ∈ res.graph.names ↔ IsReached scope t first x) ∧
      ∀ n ∈ res.graph.nodes,
        scope.module? t first n.name = some n.located ∧
        (∀ x, x ∈ n.imports ↔ DependsOn scope t first n.name x) ∧
        (∀ x, x ∈ n.excluded ↔
          (∃ c, IsCandidate t n.located c ∧ c.name = x) ∧ scope.excludes x = true) ∧
        (scope.excludes n.name = true → n.name = first.name) ∧
        ∀ c, IsCandidate t n.located c → c.isRequired = true →
          c.name ∈ res.graph.names ∨ scope.excludes c.name = true ∨ c.name = n.name ∨
            scope.hasDirectory t c.name = true := by
  obtain ⟨scope, first, s, hprep, hs, hgraph⟩ := explore_of_resolveWithin h
  obtain ⟨hholds, hq⟩ := (holds_start scope t first).explore hs
  have hnames : s.discovered = res.graph.names := by
    rw [hholds.order, hq, hgraph]
    simp [Graph.names]
  have hnodes : res.graph.nodes = s.nodes := by rw [hgraph]
  obtain ⟨hexclude, hbase⟩ := prepare_excludes hprep
  refine ⟨scope, first, hprep, fun x => ?_, by rw [hgraph], hnames ▸ hholds.nodup, fun x => ?_,
    fun n hn => ?_⟩
  · rw [Scope.excludes, hexclude, hbase]
  · rw [← hnames]
    exact ⟨hholds.reached x, hholds.mem_of_isReached hq⟩
  · rw [hnodes] at hn
    have hdone := hholds.done n hn
    have hmem : n.name ∈ s.discovered := by
      rw [hholds.order]
      exact List.mem_append_left _ (List.mem_map_of_mem hn)
    refine ⟨hdone.located, hdone.imports, hdone.excluded, fun hex => ?_, ?_⟩
    · by_contra hne
      rw [hholds.admitted _ hmem hne] at hex
      cases hex
    · rw [← hnames]
      exact hdone.required

end Resolve

/-- Two modules that import each other. -/
def cyclicTree : Tree where
  nodes := [(["p"], .directory),
    (["p", "main.py"], .file (Utf8.encode "import lib, json\n") false),
    (["p", "lib.py"], .file (Utf8.encode "from main import f\n") false)]

def cyclicManifest : Manifest where
  entry := ⟨"main.py"⟩
  sourceRoots := [⟨"."⟩]
  packageRoots := []
  exclude := ["json"]
  optimize := .size
  output := ⟨"build/main.wasm"⟩
  abiOutput := ⟨"build/main.abi.json"⟩
  pins := []
  debugInfo := false

theorem resolve_cyclicTree : ∃ res scope first,
    resolve (Files.ofTree cyclicTree) ⟨"/p"⟩ cyclicManifest ⟨"base", "1", []⟩ = Except.ok res ∧
      prepare (Files.ofTree cyclicTree) ⟨"/p"⟩ cyclicManifest ⟨"base", "1", []⟩ =
        Except.ok (scope, first) ∧
      res.graph.names = ["main", "lib"] ∧ IsReached scope cyclicTree first "lib" := by
  have hrun : ((resolve (Files.ofTree cyclicTree) ⟨"/p"⟩ cyclicManifest ⟨"base", "1", []⟩).run
      : Except Fault Resolution).map (fun r => r.graph.names) =
      .ok ["main", "lib"] := by decide +kernel
  obtain ⟨res, hres, hnames⟩ := except_map_eq_ok.mp hrun
  obtain ⟨scope, first, hprep, -, -, -, hreach, -⟩ := resolve_eq_closure hres
  exact ⟨res, scope, first, hres, hprep, hnames, (hreach "lib").mp (by simp [hnames])⟩

end ContractBuild.Graph

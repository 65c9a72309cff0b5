import Mathlib
import ContractBuild.Proofs.Graph.Enclosing
import ContractBuild.Proofs.Path

/-!
Where the modules of a graph lie. A name is put after a root component by component, so what is
found lies below that root, unless a component begins with a slash and replaces it, or the last one
is not the name of a file.
-/

namespace ContractBuild

open ContractBuild.Disk ContractBuild.Text

/-! ### Paths of names -/

namespace Path

/-- A component that stands for one more step, or some, below a directory. -/
def IsPart (part : String) : Prop := IsSolid part ∧ part.toList.getLast? ≠ some '/'

instance (part : String) : Decidable (IsPart part) := inferInstanceAs (Decidable (_ ∧ _))

lemma IsSolid.isAbsolute_eq_false {part : String} (h : IsSolid part) :
    (Path.mk part).isAbsolute = false := by
  obtain ⟨c, r, hpart, hc⟩ := h
  simpa [isAbsolute, hpart] using hc

lemma IsSolid.append {part : String} (h : IsSolid part) (more : String) :
    IsSolid (part ++ more) := by
  obtain ⟨c, r, hpart, hc⟩ := h
  exact ⟨c, r ++ more.toList, by rw [String.toList_append, hpart, List.cons_append], hc⟩

lemma isName_of_not_mem {name : String} (hne : name.toList ≠ []) (hslash : '/' ∉ name.toList)
    (hdot : '.' ∉ name.toList) : IsName name := by
  refine ⟨hne, hslash, ?_, ?_⟩
  · rintro rfl
    exact hdot (by decide)
  · rintro rfl
    exact hdot (by decide)

lemma isPart_of_isName {name : String} (h : IsName name) : IsPart name := by
  refine ⟨⟨name.toList.head h.nonempty, name.toList.tail, (List.cons_head_tail _).symm, ?_⟩, ?_⟩
  · intro he
    exact h.slash (he ▸ List.head_mem h.nonempty)
  · intro he
    exact h.slash (List.mem_of_mem_getLast? he)

/-- The name at the end of a part. -/
lemma IsPart.exists_name {part : String} (h : IsPart part) (hdot : '.' ∉ part.toList) :
    ∃ front name, part.toList = front ++ name.toList ∧ IsName name ∧ '.' ∉ name.toList ∧
      (front = [] ∨ front.getLast? = some '/') := by
  obtain ⟨⟨c, r, hpart, -⟩, hlast⟩ := h
  obtain ⟨d, cs, hrev⟩ := List.exists_cons_of_ne_nil (l := part.toList.reverse) (by simp [hpart])
  have hd : d ≠ '/' := by
    rintro rfl
    rw [← List.head?_reverse, hrev] at hlast
    exact hlast rfl
  have hsplit := List.takeWhile_append_dropWhile (p := (· ≠ '/')) (l := part.toList.reverse)
  have hname : part.toList = ((part.toList.reverse.dropWhile (· ≠ '/')).reverse) ++
      (part.toList.reverse.takeWhile (· ≠ '/')).reverse := by
    rw [← List.reverse_append, hsplit, List.reverse_reverse]
  have hnodot : '.' ∉ (part.toList.reverse.takeWhile (· ≠ '/')).reverse := by
    intro hmem
    exact hdot (hname ▸ List.mem_append_right _ hmem)
  refine ⟨(part.toList.reverse.dropWhile (· ≠ '/')).reverse,
    String.ofList (part.toList.reverse.takeWhile (· ≠ '/')).reverse,
    by rwa [String.toList_ofList], isName_of_not_mem ?_ ?_ ?_, by rwa [String.toList_ofList], ?_⟩
  · rw [hrev, List.takeWhile_cons, if_pos (by simpa using hd)]
    simp
  · intro hmem
    rw [String.toList_ofList, List.mem_reverse] at hmem
    simpa using List.mem_takeWhile_imp hmem
  · rwa [String.toList_ofList]
  · rcases hdrop : part.toList.reverse.dropWhile (· ≠ '/') with _ | ⟨e, es⟩
    · exact .inl rfl
    · have he := List.head?_dropWhile_not (· ≠ '/') part.toList.reverse
      rw [hdrop] at he
      exact .inr (by simpa using he)

lemma text_joinName_append (p : Path) {part : String} (h : IsSolid part) (more : String) :
    (p.joinName part).text ++ more = (p.joinName (part ++ more)).text := by
  rw [joinName, join, joinName, join, h.isAbsolute_eq_false, (h.append more).isAbsolute_eq_false]
  split_ifs
  · rfl
  · exact String.append_assoc ..
  · exact String.append_assoc ..

/-- Another extension for a part without one. -/
lemma withExtension_joinName (p : Path) {part : String} (h : IsPart part)
    (hdot : '.' ∉ part.toList) (ext : String) :
    (p.joinName part).withExtension ext = p.joinName (part ++ "." ++ ext) := by
  obtain ⟨front, htext, -, hfront⟩ := p.joinName_solid h.1
  obtain ⟨u, name, hpart, hname, hnodot, hu⟩ := h.exists_name hdot
  have htail : (p.joinName part).tailFirst = name.toList.reverse ++ (front ++ u).reverse := by
    refine tailFirst_of_text hname (.inl ?_)
    rw [htext, hpart, List.append_assoc]
  have hslash : front ++ u = [] ∨ (front ++ u).getLast? = some '/' := by
    rcases hu with rfl | hu
    · simpa using hfront
    · exact .inr (by rw [List.getLast?_append, hu]; rfl)
  have hext := toList_withExtension hname htail hslash ext
  rw [splitName_of_not_mem hnodot] at hext
  have heq : ((p.joinName part).withExtension ext).text =
      (p.joinName (part ++ "." ++ ext)).text := by
    rw [← text_joinName_append p (h.1.append ".") ext, ← text_joinName_append p h.1 "."]
    apply String.toList_inj.mp
    simp [hext, htext, hpart]
  exact congrArg Path.mk heq

/-- The text of a directory, a slash, the parts with slashes between them, and an ending. -/
def spelled (dir : Path) (parts : List String) (ending : String) : Path :=
  ⟨dir.text ++ "/" ++ String.intercalate "/" parts ++ ending⟩

lemma intercalate_append_ending (init : List String) (part ending : String) :
    String.intercalate "/" (init ++ [part]) ++ ending =
      String.intercalate "/" (init ++ [part ++ ending]) := by
  by_cases hinit : init = []
  · simp [hinit]
  · rw [String.intercalate_append_of_ne_nil hinit (by simp),
      String.intercalate_append_of_ne_nil hinit (by simp), String.intercalate_singleton,
      String.intercalate_singleton, String.append_assoc]

lemma steps_intercalate (ps : List (List Char)) :
    steps (['/'].intercalate ps) = ps.flatMap steps := by
  induction ps with
  | nil => rfl
  | cons p ps ih =>
    cases ps with
    | nil => simp
    | cons q ps =>
      rw [List.intercalate_cons_cons, List.append_assoc, List.singleton_append, steps_append, ih]
      rfl

lemma components_spelled {dir : Path} (hdir : dir.isAbsolute = true) (init : List String)
    (part ending : String) : (dir.spelled (init ++ [part]) ending).components =
      dir.components ++ (init ++ [part ++ ending]).flatMap fun name => steps name.toList := by
  obtain ⟨r, hr⟩ := exists_of_isAbsolute hdir
  have htext : (dir.spelled (init ++ [part]) ending).text.toList = dir.text.toList ++
      '/' :: ['/'].intercalate ((init ++ [part ++ ending]).map String.toList) := by
    rw [spelled, String.append_assoc, intercalate_append_ending]
    simp
  have habs : (dir.spelled (init ++ [part]) ending).isAbsolute = true := by
    rw [isAbsolute, chars_eq, htext, hr]
    rfl
  rw [components_of_isAbsolute habs, components_of_isAbsolute hdir, htext, steps_append,
    steps_intercalate, List.flatMap_map, List.cons_append]

lemma exists_names {cs : List Component} (h : ∀ c ∈ cs, ∃ name, c = .name name) :
    ∃ names : List String, cs = names.map .name := by
  induction cs with
  | nil => exact ⟨[], rfl⟩
  | cons c cs ih =>
    obtain ⟨⟨name, rfl⟩, hcs⟩ := List.forall_mem_cons.mp h
    obtain ⟨names, rfl⟩ := ih hcs
    exact ⟨name :: names, rfl⟩

/-- A part with an extension is a name after some others. -/
lemma steps_part {part : String} (h : IsPart part) (hdot : '.' ∉ part.toList) :
    ∃ names, names ≠ [] ∧ steps (part ++ ".py").toList = names.map .name := by
  obtain ⟨front, name, hpart, hname, hnodot, hfront⟩ := h.exists_name hdot
  have hfile : IsName (name ++ ".py") := isName_module hname.slash
  have htext : (part ++ ".py").toList = front ++ (name ++ ".py").toList := by
    rw [String.toList_append, hpart, String.toList_append, List.append_assoc]
  rw [htext]
  rcases hfront with rfl | hfront
  · exact ⟨[name ++ ".py"], by simp, by rw [List.nil_append, steps_name hfile]; rfl⟩
  · obtain ⟨a, rfl⟩ : ∃ a, front = a ++ ['/'] :=
      ⟨_, (List.dropLast_append_getLast? _ hfront).symm⟩
    have ha : '.' ∉ a := fun hmem => hdot (by simp [hpart, hmem])
    obtain ⟨names, hnames⟩ := exists_names fun c hc => exists_name_of_mem_steps ha hc
    refine ⟨names ++ [name ++ ".py"], by simp, ?_⟩
    rw [List.append_assoc, List.singleton_append, steps_append, hnames, steps_name hfile]
    simp

end Path

namespace Graph

/-! ### Where a name is looked for -/

/-- No component of the name replaces what it is put after, and the last one names a file. -/
def IsRegular (name : String) : Prop :=
  (∀ part ∈ splitString '.' name, (Path.mk part).isAbsolute = false) ∧
    ∀ part ∈ (splitString '.' name).getLast?, Path.IsPart part

/-- The path is spelled with the directory and the components of the name, as a module or as a
package, and lies below the directory. -/
structure LiesBelow (dir : Path) (name : String) (p : Path) : Prop where
  spelled : p.components = (dir.spelled (splitString '.' name) ".py").components ∨
    p.components = (dir.spelled (splitString '.' name) "/__init__.py").components
  below : ∃ names : List String, names ≠ [] ∧ dir.below? p = some (names.map .name)

lemma exists_names_of_parts {parts : List String} (h : ∀ part ∈ parts, '.' ∉ part.toList) :
    ∃ names : List String,
      (parts.flatMap fun part => Path.steps part.toList) = names.map .name := by
  refine Path.exists_names fun c hc => ?_
  obtain ⟨part, hpart, hc⟩ := List.mem_flatMap.mp hc
  exact Path.exists_name_of_mem_steps (h part hpart) hc

lemma below?_of_components {dir p : Path} {cs : List Path.Component}
    (h : p.components = dir.components ++ cs) : dir.below? p = some cs :=
  List.isPrefixOf?_eq_some_iff_append_eq.mpr h.symm

/-- Below an absolute root, a regular name is looked for where it is spelled. -/
lemma liesBelow_of_baseOf {r : Root} (hr : r.path.isAbsolute = true) {name : String}
    (h : IsRegular name) {p : Path} (hp : p = (r.baseOf name).withExtension "py" ∨
      p = (r.baseOf name).joinName "__init__.py") : LiesBelow r.path name p := by
  obtain ⟨init, part, hparts⟩ : ∃ init part, splitString '.' name = init ++ [part] :=
    ⟨_, _, (List.dropLast_append_getLast (splitString_ne_nil '.' name)).symm⟩
  have hdots : ∀ w ∈ init ++ [part], '.' ∉ w.toList := fun w hw =>
    not_mem_of_mem_splitString (hparts ▸ hw)
  obtain ⟨habs, hlast⟩ := h
  rw [hparts] at habs hlast
  have hpart : Path.IsPart part := hlast part (by simp)
  obtain ⟨names, hnames⟩ := exists_names_of_parts fun w hw =>
    hdots w (List.mem_append_left [part] hw)
  rcases hp with rfl | rfl
  · have hfile : (r.baseOf name).withExtension "py" =
        (init ++ [part ++ ".py"]).foldl Path.joinName r.path := by
      rw [Root.baseOf, hparts, List.foldl_append, List.foldl_cons, List.foldl_nil,
        Path.withExtension_joinName _ hpart (hdots part (by simp)), String.append_assoc,
        List.foldl_append]
      rfl
    have habs' : ∀ w ∈ init ++ [part ++ ".py"], (Path.mk w).isAbsolute = false := by
      intro w hw
      rcases List.mem_append.mp hw with hw | hw
      · exact habs w (List.mem_append_left _ hw)
      · rw [List.mem_singleton.mp hw]
        exact (hpart.1.append ".py").isAbsolute_eq_false
    have hcomponents := Path.components_foldl_joinName hr habs'
    rw [← hfile] at hcomponents
    refine ⟨.inl ?_, ?_⟩
    · rw [hcomponents, hparts, Path.components_spelled hr]
    · obtain ⟨more, hmore, hsteps⟩ := Path.steps_part hpart (hdots part (by simp))
      refine ⟨names ++ more, by simp [hmore], below?_of_components ?_⟩
      rw [hcomponents, List.flatMap_append, hnames, List.flatMap_singleton, hsteps, List.map_append]
  · have hfile : (r.baseOf name).joinName "__init__.py" =
        (init ++ [part] ++ ["__init__.py"]).foldl Path.joinName r.path := by
      rw [List.foldl_concat, ← hparts]
      rfl
    have habs' : ∀ w ∈ init ++ [part] ++ ["__init__.py"], (Path.mk w).isAbsolute = false := by
      intro w hw
      rcases List.mem_append.mp hw with hw | hw
      · exact habs w hw
      · rw [List.mem_singleton.mp hw]
        exact isSolid_init.isAbsolute_eq_false
    have hcomponents := Path.components_foldl_joinName hr habs'
    have hinit : Path.steps "__init__.py".toList = [.name "__init__.py"] :=
      Path.steps_name (by decide)
    obtain ⟨names, hnames⟩ := exists_names_of_parts hdots
    rw [← hfile, List.flatMap_append, List.flatMap_singleton, hinit] at hcomponents
    refine ⟨.inr ?_, names ++ ["__init__.py"], by simp, below?_of_components ?_⟩
    · have hending := Path.steps_append part.toList "__init__.py".toList
      rw [hinit] at hending
      rw [hcomponents, hparts, Path.components_spelled hr, List.flatMap_append,
        List.flatMap_append, List.flatMap_singleton, List.flatMap_singleton, String.toList_append,
        List.append_assoc]
      change _ = r.path.components ++ (_ ++ Path.steps (part.toList ++ '/' :: "__init__.py".toList))
      rw [hending]
    · rw [hcomponents, hnames, List.map_append]
      rfl

/-! ### The components of names -/

/-- The components of names that a statement spells. -/
def spelledParts : Python.Import → List String
  | .whole _ name => splitString '.' name
  | .names _ 0 base names => splitString '.' (base.getD "") ++ names.flatMap (splitString '.')
  | .names _ (_ + 1) base names => (base.toList ++ names).flatMap (splitString '.')

lemma mem_of_isBase {importer : String} {isPackage : Bool} {level line : ℕ} {base : Option String}
    {names : List String} {b : String} (hb : IsBase importer isPackage level base b) :
    ∀ w ∈ splitString '.' b,
      w ∈ splitString '.' importer ∨ w ∈ spelledParts (.names line level base names) := by
  have hown {package above : List String} (h : ownPackage importer isPackage = package ++ above)
      (w : String) (hw : w ∈ package) : w ∈ splitString '.' importer :=
    (ownPackage_isPrefix importer isPackage).subset (h ▸ List.mem_append_left above hw)
  intro w hw
  cases hb with
  | absolute => exact .inr (List.mem_append_left _ hw)
  | @package above package hne h =>
    rw [splitString_dotted hne fun w hw => not_mem_of_mem_splitString (hown h w hw)] at hw
    exact .inl (hown h w hw)
  | @below above package b' hne h =>
    rw [splitString_append, splitString_dotted hne fun w hw =>
      not_mem_of_mem_splitString (hown h w hw)] at hw
    rcases List.mem_append.mp hw with hw | hw
    · exact .inl (hown h w hw)
    · exact .inr (List.mem_flatMap.mpr ⟨b', by simp, hw⟩)

lemma mem_spelledParts_of_mem {line level : ℕ} {base : Option String} {names : List String}
    {n w : String} (hn : n ∈ names) (hw : w ∈ splitString '.' n) :
    w ∈ spelledParts (.names line level base names) := by
  cases level with
  | zero => exact List.mem_append_right _ (List.mem_flatMap.mpr ⟨n, hn, hw⟩)
  | succ level => exact List.mem_flatMap.mpr ⟨n, by simp [hn], hw⟩

/-- What a statement means has the components of its module and those that it spells. -/
lemma mem_of_means {importer : String} {isPackage : Bool} {i : Python.Import} {c : Candidate}
    (hc : Means importer isPackage i c) : ∀ w ∈ splitString '.' c.name,
      w ∈ splitString '.' importer ∨ w ∈ spelledParts i := by
  intro w hw
  cases hc with
  | @whole line name p hne hp =>
    rw [splitString_dotted hne fun v hv => not_mem_of_mem_splitString (hp.subset hv)] at hw
    exact .inr (hp.subset hw)
  | @base line level base names b p hb hne hp =>
    rw [splitString_dotted hne fun v hv => not_mem_of_mem_splitString (hp.subset hv)] at hw
    exact mem_of_isBase hb w (hp.subset hw)
  | @name line level base names b n hb hn hs =>
    rw [splitString_append] at hw
    rcases List.mem_append.mp hw with hw | hw
    · exact mem_of_isBase hb w hw
    · exact .inr (mem_spelledParts_of_mem hn hw)

lemma parts_of_isReached {scope : Scope} {t : Tree} {first : Located} {P : String → Prop}
    (hfirst : ∀ w ∈ splitString '.' first.name, P w)
    (hstatements : ∀ i ∈ statements scope t first, ∀ w ∈ spelledParts i, P w) {x : String}
    (h : IsReached scope t first x) : ∀ w ∈ splitString '.' x, P w := by
  induction h with
  | refl => exact hfirst
  | @tail x y hx hdep ih =>
    obtain ⟨⟨module, c, hmod, ⟨i, hi, hc⟩, rfl⟩, -⟩ := hdep
    intro w hw
    rcases mem_of_means hc w hw with hw | hw
    · exact ih w (module?_name hmod ▸ hw)
    · exact hstatements i ⟨x, module, hx, hmod, hi⟩ w hw

lemma isRegular_of_parts {name : String} (h : ∀ w ∈ splitString '.' name, Path.IsPart w) :
    IsRegular name :=
  ⟨fun w hw => (h w hw).1.isAbsolute_eq_false, fun w hw => h w (List.mem_of_mem_getLast? hw)⟩

/-! ### The sources of nodes -/

/-- The statements of the modules reached are those in the sources of the nodes. -/
lemma Holds.exists_source {scope : Scope} {t : Tree} {first : Located} {s : Search}
    (h : Holds scope t first [] s) (hq : s.queue = []) (hfrom : ∀ n ∈ s.nodes, n.IsFrom t)
    {i : Python.Import} (hi : i ∈ statements scope t first) :
    ∃ n ∈ s.nodes, i ∈ importsWithin n.source := by
  obtain ⟨m, module, hm, hmod, bytes, imports, hread, hparse, hi⟩ := hi
  have hmem := h.mem_of_isReached hq hm
  rw [h.order, hq] at hmem
  obtain ⟨n, hn, rfl⟩ := List.mem_map.mp (by simpa using hmem)
  obtain rfl : n.located = module := Option.some.inj ((h.done n hn).located.symm.trans hmod)
  obtain rfl : n.source = bytes := Except.ok.inj ((hfrom n hn).source.symm.trans hread)
  exact ⟨n, hn, importsIn_eq_ok hparse ▸ hi⟩

/-! ### Roots of a project -/

lemma isAbsolute_of_canonical {t : Tree} {project root : Path}
    (h : t.canonical project = .ok root) : root.isAbsolute = true := by
  obtain ⟨⟨place, n⟩, -, h⟩ := except_bind_ok.mp h
  cases n with
  | none => cases h
  | some n =>
    cases h
    exact Path.isAbsolute_pathTo place

lemma isAbsolute_normalize_join {root : Path} (h : root.isAbsolute = true) (r : Path) :
    (root.join r).normalize.isAbsolute = true := by
  rw [Path.normalize_of_isAbsolute (Path.isAbsolute_join h r)]
  exact Path.isAbsolute_pathTo _

lemma exists_of_mem_rootsIn {t : Tree} {root : Path} {manifest : Manifest} {r : Root}
    (h : r ∈ rootsIn t root manifest) :
    ∃ q ∈ manifest.sourceRoots ++ manifest.packageRoots, r.path = (root.join q).normalize := by
  rcases List.mem_append.mp h with h | h
  · obtain ⟨q, hq, rfl⟩ := List.mem_map.mp h
    exact ⟨q, List.mem_append_left _ hq, rfl⟩
  · obtain ⟨q, hq, rfl⟩ := List.mem_map.mp h
    exact ⟨q, List.mem_append_right _ hq, rfl⟩

/-- **Regular names stay below the roots.** A module of a graph other than the entry lies below a
root of the project where its name is spelled, if the name is regular. All names are, if the
components of the entry's name and those that the sources of the graph spell are parts. -/
theorem resolve_stays_below_roots {t : Tree} {fuel : ℕ} {project : Path} {manifest : Manifest}
    {base : BaseLibrary} {res : Resolution}
    (h : resolveWithin (Files.ofTree t) fuel project manifest base = Except.ok res) :
    ∃ root, t.canonical project = .ok root ∧
      (∀ n ∈ res.graph.nodes, n.name ≠ res.graph.entry → IsRegular n.name →
        ∃ r ∈ manifest.sourceRoots ++ manifest.packageRoots,
          LiesBelow (root.join r).normalize n.name n.path) ∧
      ((∀ w ∈ splitString '.' res.graph.entry, Path.IsPart w) →
        (∀ n ∈ res.graph.nodes, ∀ i ∈ importsWithin n.source, ∀ w ∈ spelledParts i,
          Path.IsPart w) →
        ∀ n ∈ res.graph.nodes, IsRegular n.name) := by
  obtain ⟨scope, first, s, hprep, hs, hgraph⟩ := explore_of_resolveWithin h
  obtain ⟨hholds, hq⟩ := (holds_start scope t first).explore hs
  have hfrom := isFrom_of_explore hs
  obtain ⟨pins, root, name, isPackage, -, hroot, -, -, hscope, -⟩ := prepare_eq_ok.mp hprep
  have habs := isAbsolute_of_canonical hroot
  rw [hgraph]
  refine ⟨root, hroot, fun n hn hne hname => ?_, fun hentry hsources n hn => ?_⟩
  · have hlocated := (hholds.done n hn).located
    rw [Scope.module?, if_neg hne] at hlocated
    obtain ⟨-, -, r, hr, hpath⟩ := find?_cases hlocated
    rw [hscope] at hr
    obtain ⟨q, hq, hdir⟩ := exists_of_mem_rootsIn hr
    refine ⟨q, hq, ?_⟩
    rw [← hdir]
    exact liesBelow_of_baseOf (hdir ▸ isAbsolute_normalize_join habs q) hname hpath
  · refine isRegular_of_parts (parts_of_isReached hentry (fun i hi => ?_) (hholds.reached _ ?_))
    · obtain ⟨m, hm, hi⟩ := hholds.exists_source hq hfrom hi
      exact hsources m hm i hi
    · rw [hholds.order]
      exact List.mem_append_left _ (List.mem_map_of_mem hn)

/-- The package `a` is found below the only root, and all names are regular. -/
theorem nestedTree_stays_below_roots : ∃ res, resolveNested "import a\n" "main.py" = .ok res ∧
    res.graph.names = ["main", "a"] ∧ (∀ n ∈ res.graph.nodes, IsRegular n.name) ∧
    ∃ n ∈ res.graph.nodes, n.path = ⟨"/p/a/__init__.py"⟩ ∧ LiesBelow ⟨"/p"⟩ n.name n.path := by
  have hrun : (resolveNested "import a\n" "main.py").map (fun r => (r.graph.entry,
      r.graph.nodes.map fun n => (n.name, n.path, n.source))) =
        .ok ("main", [("main", ⟨"/p/main.py"⟩, Utf8.encode "import a\n"),
          ("a", ⟨"/p/a/__init__.py"⟩, [])]) := by decide +kernel
  obtain ⟨res, hres, hseen⟩ := except_map_eq_ok.mp hrun
  obtain ⟨hentry, hnodes⟩ := Prod.mk.inj hseen
  have hsources : ∀ n ∈ res.graph.nodes, ∀ i ∈ importsWithin n.source, ∀ w ∈ spelledParts i,
      Path.IsPart w := by
    have hall : ∀ x ∈ [("main", Path.mk "/p/main.py", Utf8.encode "import a\n"),
        ("a", ⟨"/p/a/__init__.py"⟩, [])], ∀ i ∈ importsWithin x.2.2, ∀ w ∈ spelledParts i,
        Path.IsPart w := by decide +kernel
    intro n hn
    refine hall (n.name, n.path, n.source) ?_
    rw [← hnodes]
    exact List.mem_map_of_mem (f := fun n : Node => (n.name, n.path, n.source)) hn
  obtain ⟨root, hroot, hbelow, hregular⟩ := resolve_stays_below_roots hres
  obtain rfl : Path.mk "/p" = root := Except.ok.inj (by rw [← hroot]; decide)
  have hall := hregular (by rw [hentry]; decide) hsources
  obtain ⟨n, hn, hfound⟩ : ∃ n ∈ res.graph.nodes,
      (n.name, n.path, n.source) = ("a", ⟨"/p/a/__init__.py"⟩, []) :=
    List.mem_map.mp (by rw [hnodes]; simp)
  obtain ⟨hname, hpath, -⟩ : n.name = "a" ∧ n.path = ⟨"/p/a/__init__.py"⟩ ∧ n.source = [] := by
    simpa using hfound
  obtain ⟨r, hr, hlies⟩ := hbelow n hn (by rw [hname, hentry]; decide) (hall n hn)
  obtain rfl : r = ⟨"."⟩ := by simpa [plainManifest] using hr
  refine ⟨res, hres, ?_, hall, n, hn, hpath, hlies⟩
  have hnames := congrArg (List.map Prod.fst) hnodes
  rwa [List.map_map] at hnames

/-- A module in a directory whose name begins with a dot, which imports from its own package a name
that begins with a slash. -/
def strayTree : Tree where
  nodes := [(["q.py"], .file [] false), (["p"], .directory), (["p", "src.py"], .file [] false),
    (["p", "src"], .directory), (["p", "src", "app.py"], .file [] false),
    (["p", "src", ".app"], .directory),
    (["p", "src", ".app", "main.py"], .file (Utf8.encode "from . import /q\n") false)]

def strayManifest : Manifest :=
  { plainManifest "src/.app/main.py" with sourceRoots := [⟨"src"⟩] }

/-- The graph of the project on that tree. -/
def resolveStray : Except Fault Resolution :=
  resolve (Files.ofTree strayTree) ⟨"/p"⟩ strayManifest ⟨"base", "1", []⟩

/-- Names that are not regular are found outside of the roots: the empty name beside the root, and a
name with a slash in front anywhere. -/
theorem strayTree_leaves_roots : ∃ res, resolveStray = .ok res ∧
    res.graph.entry = ".app.main" ∧
    res.graph.nodes.map (fun n => (n.name, n.path)) =
      [(".app.main", ⟨"/p/src/.app/main.py"⟩), ("", ⟨"/p/src.py"⟩), (".app", ⟨"/p/src/app.py"⟩),
        (".app./q", ⟨"/q.py"⟩)] ∧
    ∀ r ∈ strayManifest.sourceRoots ++ strayManifest.packageRoots,
      ((Path.mk "/p").join r).normalize.below? ⟨"/p/src.py"⟩ = none ∧
        ((Path.mk "/p").join r).normalize.below? ⟨"/q.py"⟩ = none := by
  have hrun : resolveStray.map (fun r => (r.graph.entry,
      r.graph.nodes.map fun n => (n.name, n.path))) = .ok (".app.main",
        [(".app.main", ⟨"/p/src/.app/main.py"⟩), ("", ⟨"/p/src.py"⟩),
          (".app", ⟨"/p/src/app.py"⟩), (".app./q", ⟨"/q.py"⟩)]) := by decide +kernel
  obtain ⟨res, hres, hseen⟩ := except_map_eq_ok.mp hrun
  obtain ⟨hentry, hnodes⟩ := Prod.mk.inj hseen
  exact ⟨res, hres, hentry, hnodes, by decide⟩

end Graph

end ContractBuild

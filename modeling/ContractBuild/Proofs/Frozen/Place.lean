import Mathlib
import ContractBuild.Proofs.Frozen.Freeze
import ContractBuild.Proofs.Graph.Roots

/-!
Where frozen modules lie below the directory of frozen sources: the components of a name are put one
below the other, and the last one gets the ending of a module or leads to that of a package.
-/

namespace ContractBuild

open ContractBuild.Disk ContractBuild.Text

/-! ### Parts that lead downwards -/

namespace Path

/-- Without a dot every part is a name. -/
lemma isProper_parts {cs : List Char} (h : '.' ∉ cs) : Place.IsProper (parts cs) := by
  intro name hname
  obtain ⟨hmem, hne⟩ := List.mem_filter.mp hname
  obtain ⟨s, hs, rfl⟩ := List.mem_map.mp hmem
  refine isName_of_not_mem (by simpa using hne) ?_ ?_
  · rw [String.toList_ofList]
    exact not_mem_of_mem_splitOn hs
  · rw [String.toList_ofList]
    exact fun hdot => h (mem_of_mem_splitOn hs hdot)

/-- Nor does the ending of a module lead upwards. -/
lemma isProper_parts_module {cs : List Char} (h : '.' ∉ cs) :
    Place.IsProper (parts (cs ++ ".py".toList)) := by
  have hfile (last : List Char) (hslash : '/' ∉ last) :
      parts (last ++ ".py".toList) = [String.ofList last ++ ".py"] ∧
        IsName (String.ofList last ++ ".py") := by
    refine ⟨?_, isName_module (by rwa [String.toList_ofList])⟩
    rw [parts_name (by simp) (by simpa using hslash)]
    exact congrArg (fun s => [s]) (String.toList_inj.mp (by simp))
  by_cases hslash : '/' ∈ cs.reverse
  · obtain ⟨last, front, hcs, hlast⟩ := List.eq_append_cons_of_mem hslash
    obtain rfl : cs = front.reverse ++ '/' :: last.reverse := by
      rw [← cs.reverse_reverse, hcs]
      simp
    obtain ⟨hparts, hname⟩ := hfile last.reverse (by simpa using hlast)
    rw [List.append_assoc, List.cons_append, parts_append, hparts]
    exact isProper_snoc.mpr ⟨isProper_parts fun hdot => h (List.mem_append_left _ hdot), hname⟩
  · obtain ⟨hparts, hname⟩ := hfile cs (by simpa using hslash)
    rw [hparts]
    exact List.forall_mem_singleton.mpr hname

lemma isAbsolute_intercalate {place : Place} (h : place.IsProper) :
    (Path.mk (String.intercalate "/" place)).isAbsolute = false := by
  rcases place with _ | ⟨name, _ | ⟨next, rest⟩⟩
  · rfl
  · rw [String.intercalate_singleton]
    exact isAbsolute_name (h name List.mem_cons_self)
  · have hname := h name List.mem_cons_self
    have hhead := isAbsolute_name hname
    rw [isAbsolute, chars_eq] at hhead ⊢
    rw [String.toList_intercalate, List.map_cons, List.map_cons, List.intercalate_cons_cons,
      List.append_assoc, List.head?_append_of_ne_nil _ hname.nonempty]
    exact hhead

lemma parts_intercalate {place : Place} (h : place.IsProper) :
    parts (String.intercalate "/" place).toList = place := by
  have hplace := parts_pathTo h
  rw [toList_pathTo] at hplace
  rw [String.toList_intercalate]
  exact (parts_append [] _).symm.trans hplace

end Path

namespace Frozen

/-! ### The pieces of a relative path -/

/-- What slashes are put between in the relative path of a module. -/
def pieces (name : String) (isPackage : Bool) : List String :=
  if isPackage then splitString '.' name ++ ["__init__.py"]
  else (splitString '.' name).dropLast ++ [(splitString '.' name).getLastD "" ++ ".py"]

lemma exists_last (name : String) : ∃ init last, splitString '.' name = init ++ [last] :=
  ⟨_, _, (List.dropLast_append_getLast (Graph.splitString_ne_nil '.' name)).symm⟩

lemma pieces_package (name : String) :
    pieces name true = splitString '.' name ++ ["__init__.py"] := rfl

lemma pieces_module {name : String} {init : Place} {last : String}
    (h : splitString '.' name = init ++ [last]) : pieces name false = init ++ [last ++ ".py"] := by
  simp [pieces, h]

lemma map_intercalate (f : Char → Char) (sep : List Char) (xs : List (List Char)) :
    (sep.intercalate xs).map f = (sep.map f).intercalate (xs.map (List.map f)) := by
  induction xs with
  | nil => rfl
  | cons x xs ih =>
    cases xs with
    | nil => simp
    | cons y ys =>
      rw [List.map_cons, List.map_cons, List.intercalate_cons_cons, List.intercalate_cons_cons,
        List.map_append, List.map_append, ih, List.map_cons]

/-- Slashes in place of the dots are slashes between the components. -/
lemma map_slash (name : String) : (name.toList.map fun c => if c == '.' then '/' else c) =
    (String.intercalate "/" (splitString '.' name)).toList := by
  have hsame : ∀ part ∈ splitString '.' name,
      part.toList.map (fun c => if c == '.' then '/' else c) = part.toList := by
    intro part hpart
    refine (List.map_congr_left fun c hc => ?_).trans (List.map_id _)
    have hdot : c ≠ '.' := fun he => Graph.not_mem_of_mem_splitString hpart (he ▸ hc)
    simp [hdot]
  have hname := congrArg String.toList (Graph.dotted_splitString name)
  rw [Graph.Candidate.dotted, String.toList_intercalate] at hname
  rw [← hname, map_intercalate, String.toList_intercalate, List.map_map]
  exact congrArg _ (List.map_congr_left hsame)

namespace Module

variable (m : Module)

lemma relativePath_eq : m.relativePath = String.intercalate "/" (pieces m.name m.isPackage) := by
  unfold relativePath
  rw [map_slash, String.ofList_toList]
  cases m.isPackage with
  | true =>
    rw [pieces_package, String.intercalate_append_of_ne_nil (Graph.splitString_ne_nil _ _)
      (by simp), String.intercalate_singleton, String.append_assoc]
    rfl
  | false =>
    obtain ⟨init, last, hparts⟩ := exists_last m.name
    rw [pieces_module hparts, ← Path.intercalate_append_ending, hparts]
    rfl

/-- The names on the relative path. -/
def place : Place := Path.parts m.relativePath.toList

/-- The relative path is none: it begins with a slash. -/
def IsRooted : Prop := (Path.mk m.relativePath).isAbsolute = true

instance : Decidable m.IsRooted := inferInstanceAs (Decidable (_ = _))

/-- A relative path never goes up. -/
lemma isProper_place : m.place.IsProper := by
  have hdot : '.' ∉ m.name.toList.map fun c => if c == '.' then '/' else c := by
    intro hmem
    obtain ⟨c, -, hc⟩ := List.mem_map.mp hmem
    split_ifs at hc with h
    · cases hc
    · exact h (by simp [hc])
  unfold place relativePath
  dsimp only
  split_ifs
  · rw [String.toList_append, String.toList_ofList,
      show "/__init__.py".toList = '/' :: "__init__.py".toList from rfl, Path.parts_append,
      show Path.parts "__init__.py".toList = ["__init__.py"] by decide]
    exact isProper_snoc.mpr ⟨Path.isProper_parts hdot, by decide⟩
  · rw [String.toList_append, String.toList_ofList]
    exact Path.isProper_parts_module hdot

variable {m} (h : ∀ part ∈ splitString '.' m.name, IsName part)
include h

lemma isProper_pieces : Place.IsProper (pieces m.name m.isPackage) := by
  cases m.isPackage with
  | true => exact isProper_snoc.mpr ⟨h, by decide⟩
  | false =>
    obtain ⟨init, last, hparts⟩ := exists_last m.name
    rw [hparts] at h
    obtain ⟨hinit, hlast⟩ := isProper_snoc.mp h
    rw [pieces_module hparts]
    exact isProper_snoc.mpr ⟨hinit, Path.isName_module hlast.slash⟩

lemma place_eq : m.place = pieces m.name m.isPackage := by
  rw [place, relativePath_eq, Path.parts_intercalate (isProper_pieces h)]

lemma not_isRooted : ¬ m.IsRooted := by
  rw [IsRooted, relativePath_eq, Path.isAbsolute_intercalate (isProper_pieces h)]
  decide

end Module

end Frozen

/-! ### Where a module is found -/

namespace Graph

variable {t : Tree} {name : String} {l : Located}

/-- The first file that pieces lead to below some roots. -/
def firstFile? (t : Tree) (roots : List Root) (pieces : List String) : Option Path :=
  (roots.map fun r => pieces.foldl Path.joinName r.path).find? t.isFile

/-- The pieces of a name lead to where it is looked for as a package and as a module. -/
lemma foldl_pieces (h : ∀ part ∈ splitString '.' name, IsName part) (r : Root) :
    (Frozen.pieces name true).foldl Path.joinName r.path =
        (r.baseOf name).joinName "__init__.py" ∧
      (Frozen.pieces name false).foldl Path.joinName r.path =
        (r.baseOf name).withExtension "py" := by
  constructor
  · rw [Frozen.pieces_package, List.foldl_concat]
    rfl
  · obtain ⟨init, last, hparts⟩ := Frozen.exists_last name
    have hlast : last ∈ splitString '.' name := by simp [hparts]
    rw [Frozen.pieces_module hparts, Root.baseOf, hparts, List.foldl_concat, List.foldl_concat,
      Path.withExtension_joinName _ (Path.isPart_of_isName (h last hlast))
        (not_mem_of_mem_splitString hlast), String.append_assoc]
    rfl

/-- A module is found at the first file of its pieces: no root before has a file for the name. -/
lemma firstFile?_of_locate (h : ∀ part ∈ splitString '.' name, IsName part) {roots : List Root}
    (hl : locate (Files.ofTree t) name roots = some l) :
    firstFile? t roots (Frozen.pieces name l.isPackage) = some l.path := by
  induction roots with
  | nil => cases hl
  | cons r rest ih =>
    obtain ⟨hpackage, hmodule⟩ := foldl_pieces h r
    rw [locate_cons] at hl
    rw [firstFile?, List.map_cons]
    split_ifs at hl with h1 h2
    · obtain rfl := Option.some.inj hl
      rw [hmodule, List.find?_cons_of_pos h1]
    · obtain rfl := Option.some.inj hl
      rw [hpackage, List.find?_cons_of_pos h2]
    · have hnone : t.isFile ((Frozen.pieces name l.isPackage).foldl Path.joinName r.path) ≠ true := by
        cases l.isPackage with
        | false => exact hmodule ▸ h1
        | true => exact hpackage ▸ h2
      rw [List.find?_cons_of_neg hnone]
      exact ih hl

/-- Modules other than the entry that would lie at one place were read from one file. -/
lemma source_eq_of_pieces {project : Path} {manifest : Manifest} {base : BaseLibrary}
    {res : Resolution} (h : resolve (Files.ofTree t) project manifest base = Except.ok res)
    {m n : Node} (hm : m ∈ res.graph.nodes) (hn : n ∈ res.graph.nodes)
    (hentry : m.name ≠ res.graph.entry ∧ n.name ≠ res.graph.entry)
    (hmname : ∀ part ∈ splitString '.' m.name, IsName part)
    (hnname : ∀ part ∈ splitString '.' n.name, IsName part)
    (hplace : Frozen.pieces m.name m.isPackage = Frozen.pieces n.name n.isPackage) :
    m.source = n.source := by
  obtain ⟨scope, first, s, hprep, hs, hgraph⟩ := explore_of_resolveWithin h
  obtain ⟨hholds, -⟩ := (holds_start scope t first).explore hs
  have hfrom := isFrom_of_explore hs
  rw [hgraph] at hm hn hentry
  have hfirst {k : Node} (hk : k ∈ s.nodes) (hne : k.name ≠ first.name)
      (hname : ∀ part ∈ splitString '.' k.name, IsName part) :
      firstFile? t scope.roots (Frozen.pieces k.name k.isPackage) = some k.path := by
    have hlocated := (hholds.done k hk).located
    rw [Scope.module?, if_neg hne] at hlocated
    exact firstFile?_of_locate (l := k.located) hname hlocated
  have hpath : m.path = n.path := by
    have hmfirst := hfirst hm hentry.1 hmname
    rw [hplace, hfirst hn hentry.2 hnname] at hmfirst
    exact (Option.some.inj hmfirst).symm
  have hsource := (hfrom m hm).source
  rw [hpath, (hfrom n hn).source] at hsource
  exact (Except.ok.inj hsource).symm

end Graph

/-! ### Freezing what has been resolved -/

namespace Frozen

variable {t : Tree}

lemma freezeNode_of_isFrom {n : Graph.Node} (h : n.IsFrom t) :
    freezeNode (Files.ofTree t) n = Except.ok (ofNode n) := by
  refine bind_eq_ok.mpr ⟨.ok n.source, lift_id_eq_ok.mpr h.source, ?_⟩
  rw [h.digest, if_neg (by simp [found])]
  rw [← h.digest]
  rfl

lemma mapM_freezeNode_of_isFrom {nodes : List Graph.Node} (h : ∀ n ∈ nodes, n.IsFrom t) :
    nodes.mapM (freezeNode (Files.ofTree t)) = Except.ok (nodes.map ofNode) := by
  induction nodes with
  | nil => rfl
  | cons n nodes ih =>
    obtain ⟨hn, hnodes⟩ := List.forall_mem_cons.mp h
    rw [List.mapM_cons]
    exact bind_eq_ok.mpr ⟨ofNode n, freezeNode_of_isFrom hn, bind_eq_ok.mpr ⟨_, ih hnodes, rfl⟩⟩

/-- What has been resolved is frozen as long as nothing changes. -/
lemma freeze_of_resolve {project : Path} {manifest : Manifest} {base : BaseLibrary}
    {res : Graph.Resolution}
    (h : Graph.resolve (Files.ofTree t) project manifest base = Except.ok res) :
    freeze (Files.ofTree t) base res.graph = Except.ok (ofGraph base res.graph) := by
  obtain ⟨scope, first, s, -, hs, hgraph⟩ := Graph.explore_of_resolveWithin h
  rw [hgraph]
  exact bind_eq_ok.mpr ⟨_, mapM_freezeNode_of_isFrom (Graph.isFrom_of_explore hs), rfl⟩

end Frozen

end ContractBuild

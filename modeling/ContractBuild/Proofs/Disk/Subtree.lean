import Mathlib
import ContractBuild.Proofs.Path

/-!
Directories with the same contents: what is read below one of them is what is read below the other,
wherever the two stand and in whatever order their names are listed.
-/

namespace ContractBuild.Disk

open ContractBuild.Text

/-! ### Walking down -/

/-- A place that a path can name. -/
structure Place.Fits (place : Place) : Prop where
  names : ∀ name ∈ place, IsName name ∧ '\x00' ∉ name.toList ∧ name.utf8ByteSize ≤ Tree.nameLimit
  size : (Tree.pathTo place).text.utf8ByteSize + 1 < Tree.pathLimit

instance (place : Place) : Decidable place.Fits :=
  decidable_of_iff (_ ∧ _) ⟨fun h => ⟨h.1, h.2⟩, fun h => ⟨h.names, h.size⟩⟩

lemma Place.Fits.isProper {place : Place} (h : place.Fits) : place.IsProper :=
  fun name hname => (h.names name hname).1

namespace Tree

/-- There is a directory at every place above. -/
def IsOpen (t : Tree) (place : Place) : Prop :=
  ∀ front, front <+: place → front ≠ place → t.get? front = some .directory

variable {t : Tree} {p : Path} {place : Place}

/-- Names lead down as long as there are directories. -/
lemma walk_eq_ok {here there : Place} {names : List String} (hnames : Place.IsProper names) :
    t.walk here names = .ok there ↔ there = here ++ names ∧
      (∀ front, front <+: names → front ≠ names → t.get? (here ++ front) = some .directory) ∧
      ∀ name ∈ names, name.utf8ByteSize ≤ nameLimit := by
  induction names generalizing here with
  | nil => simp [walk, eq_comm]
  | cons name names ih =>
    obtain ⟨hname, hnames⟩ := List.forall_mem_cons.mp hnames
    have hfronts : (∀ front, front <+: name :: names → front ≠ name :: names →
          t.get? (here ++ front) = some .directory) ↔
        t.get? here = some .directory ∧ ∀ front, front <+: names → front ≠ names →
          t.get? (here ++ [name] ++ front) = some .directory := by
      constructor
      · intro h
        refine ⟨by simpa using h [] (List.nil_prefix) (by simp), fun front hfront hne => ?_⟩
        rw [List.append_assoc]
        exact h (name :: front) (List.cons_prefix_cons.mpr ⟨rfl, hfront⟩) (by simpa using hne)
      · rintro ⟨hhere, h⟩ front hfront hne
        cases front with
        | nil => simpa using hhere
        | cons n front =>
          obtain ⟨rfl, hrest⟩ := List.cons_prefix_cons.mp hfront
          simpa using h front hrest (by simpa using hne)
    rw [walk, hfronts, List.forall_mem_cons]
    rcases t.get? here with _ | (⟨content, x⟩ | _ | _)
    · simp
    · simp
    · simp only [if_neg hname.here, if_neg hname.up]
      split_ifs with hlong
      · simp only [false_iff, not_and]
        intro _ _ hshort
        exact absurd hshort (by omega)
      · rw [ih hnames]
        simp only [List.append_assoc, List.singleton_append, true_and]
        constructor
        · rintro ⟨rfl, hdirs, hsizes⟩
          exact ⟨rfl, hdirs, by omega, hsizes⟩
        · rintro ⟨rfl, hdirs, -, hsizes⟩
          exact ⟨rfl, hdirs, hsizes⟩
    · simp

lemma parts_of_leadsTo (hp : p.LeadsTo place) (hplace : place.IsProper) :
    Path.parts p.text.toList = place := by
  rcases hp with rfl | ⟨-, rfl⟩
  · exact Path.parts_pathTo hplace
  · rw [String.toList_append]
    change Path.parts ((pathTo place).text.toList ++ '/' :: []) = place
    rw [Path.parts_append, Path.parts_pathTo hplace, Path.parts_nil, List.append_nil]

/-- Where something is seen, the place is open. -/
lemma find_of_look {n : Node} (hp : p.LeadsTo place) (hplace : place.IsProper)
    (h : t.look p = .ok n) : t.find p = .ok (place, some n) ∧ t.IsOpen place := by
  obtain ⟨⟨there, o⟩, hfind, hn⟩ := except_bind_ok.mp h
  obtain rfl : o = some n := by
    cases o with
    | none => cases hn
    | some n' => cases hn; rfl
  obtain ⟨-, -, -, hwalk⟩ := placeOf_eq_ok.mp (find_eq_ok hfind).1
  rw [hp.isAbsolute, if_pos rfl, parts_of_leadsTo hp hplace, walk_eq_ok hplace] at hwalk
  obtain ⟨rfl, hopen, -⟩ := hwalk
  exact ⟨hfind, hopen⟩

lemma not_mem_pathTo {place : Place} (h : ∀ name ∈ place, '\x00' ∉ name.toList) :
    '\x00' ∉ (pathTo place).text.toList := by
  rw [Path.toList_pathTo, List.mem_cons, not_or]
  refine ⟨by decide, fun hmem => ?_⟩
  obtain ⟨l, hl, hnul⟩ := (mem_intercalate (by decide) _).mp hmem
  obtain ⟨name, hname, rfl⟩ := List.mem_map.mp hl
  exact h name hname hnul

/-- What stands at an open place is seen. -/
lemma look_of_isOpen {n : Node} (hp : p.LeadsTo place) (hfits : place.Fits)
    (hopen : t.IsOpen place) (hget : t.get? place = some n)
    (hslash : n = .directory ∨ p.endsInSlash = false) : t.look p = .ok n := by
  have hnul := not_mem_pathTo fun name hname => (hfits.names name hname).2.1
  have hsize := hfits.size
  have htext : '\x00' ∉ p.text.toList ∧ p.text.utf8ByteSize < pathLimit := by
    rcases hp with rfl | ⟨-, rfl⟩
    · exact ⟨hnul, by omega⟩
    · rw [String.toList_append, List.mem_append, not_or, String.utf8ByteSize_append]
      exact ⟨⟨hnul, by decide⟩, hsize⟩
  have hplace : t.placeOf p = .ok place := by
    refine placeOf_eq_ok.mpr ⟨Path.text_ne_nil hp.isAbsolute, htext.1, htext.2, ?_⟩
    rw [hp.isAbsolute, if_pos rfl, parts_of_leadsTo hp hfits.isProper, walk_eq_ok hfits.isProper]
    exact ⟨rfl, hopen, fun name hname => (hfits.names name hname).2.2⟩
  have hfind : t.find p = .ok (place, some n) := by
    refine except_bind_ok.mpr ⟨place, hplace, ?_⟩
    rw [hget]
    cases n with
    | file content x =>
      have hfile : p.endsInSlash = false := hslash.resolve_left nofun
      simp only [hfile, Bool.false_eq_true, if_false]
      rfl
    | directory => rfl
    | special =>
      have hfile : p.endsInSlash = false := hslash.resolve_left nofun
      simp only [hfile, Bool.false_eq_true, if_false]
      rfl
  exact except_bind_ok.mpr ⟨_, hfind, rfl⟩

end Tree

/-! ### Directories with the same contents -/

/-- The file at a path of one tree is the one at a path of another, or there is none at either. -/
def SameFile (t : Tree) (p : Path) (t' : Tree) (p' : Path) : Prop :=
  ∀ bytes, t.read p = .ok bytes ↔ t'.read p' = .ok bytes

lemma SameFile.isFile_eq {t t' : Tree} {p p' : Path} (h : SameFile t p t' p') :
    t.isFile p = t'.isFile p' := by
  rw [Bool.eq_iff_iff, Tree.isFile_iff, Tree.isFile_iff]
  exact exists_congr h

/-- Below two places of two trees stands the same, and all of it can be named by paths. -/
structure SameBelow (t : Tree) (r : Place) (t' : Tree) (r' : Place) : Prop where
  same : ∀ rest, t.get? (r ++ rest) = t'.get? (r' ++ rest)
  fits : ∀ rest, t.get? (r ++ rest) ≠ none → Place.Fits (r ++ rest) ∧ Place.Fits (r' ++ rest)
  above : ∀ front, front <+: r → t.get? front = some .directory
  above' : ∀ front, front <+: r' → t'.get? front = some .directory

/-- The same stands beside two places, under their names as those of modules. -/
def SameBeside (t : Tree) (r : Place) (t' : Tree) (r' : Place) : Prop :=
  SameFile t ((Tree.pathTo r).withExtension "py") t' ((Tree.pathTo r').withExtension "py")

lemma Tree.get?_append (t : Tree) (r : Place) {rest : Place} (hrest : rest ≠ []) :
    t.get? (r ++ rest) = (t.below r).lookup rest := by
  rw [get?, if_neg (by simp [hrest]), below]
  induction t.nodes with
  | nil => rfl
  | cons e nodes ih =>
    rw [List.lookup_cons]
    by_cases hplace : e.1 = r ++ rest
    · have hnames : r.isPrefixOf? e.1 = some rest :=
        List.isPrefixOf?_eq_some_iff_append_eq.mpr hplace.symm
      obtain ⟨name, names, rfl⟩ := List.exists_cons_of_ne_nil hrest
      rw [beq_iff_eq.mpr hplace.symm]
      simp [hnames]
    · rw [beq_eq_false_iff_ne.mpr (Ne.symm hplace)]
      dsimp only
      rw [ih]
      rcases hnames : r.isPrefixOf? e.1 with _ | (_ | ⟨name, names⟩)
      · simp [hnames]
      · simp [hnames]
      · have hother : rest ≠ name :: names := by
          rintro rfl
          exact hplace (List.isPrefixOf?_eq_some_iff_append_eq.mp hnames).symm
        simp [hnames, List.lookup_cons, beq_eq_false_iff_ne.mpr hother]

/-- Trees that list the same below two places have the same there. -/
lemma sameBelow_of_below {t t' : Tree} {r r' : Place} (hbelow : t.below r = t'.below r')
    (hfits : ∀ rest ∈ [] :: (t.below r).map Prod.fst,
      Place.Fits (r ++ rest) ∧ Place.Fits (r' ++ rest))
    (habove : ∀ front ∈ r.inits, t.get? front = some .directory)
    (habove' : ∀ front ∈ r'.inits, t'.get? front = some .directory) : SameBelow t r t' r' := by
  have hr := habove r ((List.mem_inits _ _).mpr List.prefix_rfl)
  have hr' := habove' r' ((List.mem_inits _ _).mpr List.prefix_rfl)
  refine ⟨fun rest => ?_, fun rest hrest => hfits rest ?_,
    fun front hfront => habove front ((List.mem_inits _ _).mpr hfront),
    fun front hfront => habove' front ((List.mem_inits _ _).mpr hfront)⟩
  · by_cases hne : rest = []
    · rw [hne, List.append_nil, List.append_nil, hr, hr']
    · rw [t.get?_append r hne, t'.get?_append r' hne, hbelow]
  · by_cases hne : rest = []
    · rw [hne]
      exact List.mem_cons_self
    · rw [t.get?_append r hne, ← Option.isSome_iff_ne_none] at hrest
      obtain ⟨n, hn⟩ := Option.isSome_iff_exists.mp hrest
      exact List.mem_cons_of_mem _ (List.mem_map_of_mem (Tree.mem_of_lookup hn))

namespace SameBelow

variable {t t' : Tree} {r r' : Place} {p p' : Path} {rest : Place}

lemma symm (h : SameBelow t r t' r') : SameBelow t' r' t r where
  same rest := (h.same rest).symm
  fits rest hrest := (h.fits rest (by rwa [h.same])).symm
  above := h.above'
  above' := h.above

lemma isProper (h : SameBelow t r t' r') : r.IsProper := by
  have hroot : t.get? (r ++ []) ≠ none := by
    rw [List.append_nil, h.above r List.prefix_rfl]
    simp
  simpa using (h.fits [] hroot).1.isProper

lemma isOpen (h : SameBelow t r t' r') (hopen : t.IsOpen (r ++ rest)) :
    t'.IsOpen (r' ++ rest) := by
  intro front hfront hne
  rcases List.prefix_or_prefix_of_prefix hfront (List.prefix_append r' rest) with
    habove | ⟨more, rfl⟩
  · exact h.above' front habove
  · have hmore := (List.prefix_append_right_inj r').mp hfront
    rw [← h.same]
    exact hopen _ ((List.prefix_append_right_inj r).mpr hmore) (by simpa using hne)

/-- What is seen below one place is seen below the other. -/
lemma look (h : SameBelow t r t' r') (hrest : rest.IsProper) (hp : p.LeadsTo (r ++ rest))
    (hp' : p'.LeadsTo (r' ++ rest)) {n : Node} (hslash : n = .directory ∨ p'.endsInSlash = false)
    (hlook : t.look p = .ok n) : t'.look p' = .ok n := by
  obtain ⟨hfind, hopen⟩ := Tree.find_of_look hp (isProper_append.mpr ⟨h.isProper, hrest⟩) hlook
  have hget := (Tree.find_eq_ok hfind).2
  have hfits := (h.fits rest (by rw [hget]; simp)).2
  exact Tree.look_of_isOpen hp' hfits (h.isOpen hopen) (by rw [← h.same, hget]) hslash

lemma isDirectory_eq (h : SameBelow t r t' r') (hrest : rest.IsProper)
    (hp : p.LeadsTo (r ++ rest)) (hp' : p'.LeadsTo (r' ++ rest)) :
    t.isDirectory p = t'.isDirectory p' := by
  have hiff (t : Tree) (p : Path) : t.isDirectory p = true ↔ t.look p = .ok .directory := by
    unfold Tree.isDirectory
    rcases t.look p with f | (⟨content, x⟩ | _ | _)
    · exact ⟨nofun, nofun⟩
    · exact ⟨nofun, nofun⟩
    · exact ⟨fun _ => rfl, fun _ => rfl⟩
    · exact ⟨nofun, nofun⟩
  rw [Bool.eq_iff_iff, hiff, hiff]
  exact ⟨h.look hrest hp hp' (.inl rfl), h.symm.look hrest hp' hp (.inl rfl)⟩

lemma look_pathTo (h : SameBelow t r t' r') (hrest : rest.IsProper) {n : Node}
    (hlook : t.look (Tree.pathTo (r ++ rest)) = .ok n) :
    t'.look (Tree.pathTo (r' ++ rest)) = .ok n := by
  refine h.look hrest (.inl rfl) (.inl rfl) ?_ hlook
  by_cases hne : r' ++ rest = []
  · -- the root of a tree is a directory
    obtain ⟨hfind, -⟩ :=
      Tree.find_of_look (.inl rfl) (isProper_append.mpr ⟨h.isProper, hrest⟩) hlook
    have hget := (Tree.find_eq_ok hfind).2
    rw [h.same, hne] at hget
    exact .inl (Option.some.inj hget).symm
  · exact .inr (Path.endsInSlash_pathTo (isProper_append.mpr ⟨h.symm.isProper, hrest⟩) hne)

lemma read_of_read (h : SameBelow t r t' r') (hrest : rest.IsProper) {bytes : Bytes}
    (hread : t.read (Tree.pathTo (r ++ rest)) = .ok bytes) :
    t'.read (Tree.pathTo (r' ++ rest)) = .ok bytes := by
  obtain ⟨n, hlook, hn⟩ := except_bind_ok.mp hread
  exact except_bind_ok.mpr ⟨n, h.look_pathTo hrest hlook, hn⟩

/-- What is read below one place is read below the other. -/
lemma sameFile (h : SameBelow t r t' r') (hrest : rest.IsProper) :
    SameFile t (Tree.pathTo (r ++ rest)) t' (Tree.pathTo (r' ++ rest)) :=
  fun _ => ⟨h.read_of_read hrest, h.symm.read_of_read hrest⟩

/-- The module file of a name below one place is that below the other, if there is a name: without
one, it would be the file beside the place. -/
lemma sameFile_module (h : SameBelow t r t' r') (hrest : rest.IsProper)
    (hp : p.LeadsTo (r ++ rest)) (hp' : p'.LeadsTo (r' ++ rest))
    (hnil : rest = [] → SameBeside t r t' r') :
    SameFile t (p.withExtension "py") t' (p'.withExtension "py") := by
  rw [hp.withExtension_eq (isProper_append.mpr ⟨h.isProper, hrest⟩),
    hp'.withExtension_eq (isProper_append.mpr ⟨h.symm.isProper, hrest⟩)]
  rcases List.eq_nil_or_concat rest with rfl | ⟨init, name, rfl⟩
  · rw [List.append_nil, List.append_nil]
    exact hnil rfl
  · rw [List.concat_eq_append] at hrest ⊢
    obtain ⟨hinit, hname⟩ := isProper_snoc.mp hrest
    have hfile : IsName (String.ofList (Path.splitName name.toList).1 ++ ".py") :=
      Path.isName_module fun hmem => hname.slash
        (Path.splitName_subset _ (by rwa [String.toList_ofList] at hmem))
    rw [← List.append_assoc, ← List.append_assoc, Path.withExtension_pathTo hname (.inl rfl),
      Path.withExtension_pathTo hname (.inl rfl), List.append_assoc, List.append_assoc,
      String.append_assoc]
    exact h.sameFile (isProper_snoc.mpr ⟨hinit, hfile⟩)

lemma mem_names_iff (h : SameBelow t r t' r') {name : String} :
    name ∈ t.names (r ++ rest) ↔ name ∈ t'.names (r' ++ rest) := by
  rw [Tree.mem_names, Tree.mem_names, List.append_assoc, List.append_assoc, h.same]

/-- What is listed in a directory below one place is listed below the other, in some order. -/
lemma list (h : SameBelow t r t' r') (hrest : rest.IsProper) {names : List String}
    (hlist : t.list (Tree.pathTo (r ++ rest)) = .ok names) :
    ∃ names', t'.list (Tree.pathTo (r' ++ rest)) = .ok names' ∧
      (∀ name, name ∈ names ↔ name ∈ names') ∧ ∀ name ∈ names, IsName name := by
  obtain ⟨⟨place, o⟩, hfind, hnames⟩ := except_bind_ok.mp hlist
  obtain rfl : o = some .directory := by
    rcases o with _ | (⟨content, x⟩ | _ | _)
    · cases hnames
    · cases hnames
    · rfl
    · cases hnames
  have hlook : t.look (Tree.pathTo (r ++ rest)) = .ok .directory :=
    except_bind_ok.mpr ⟨_, hfind, rfl⟩
  obtain ⟨hfind', -⟩ :=
    Tree.find_of_look (.inl rfl) (isProper_append.mpr ⟨h.isProper, hrest⟩) hlook
  obtain rfl : place = r ++ rest := by
    rw [hfind] at hfind'
    cases hfind'
    rfl
  cases hnames
  obtain ⟨hfound, -⟩ := Tree.find_of_look (.inl rfl)
    (isProper_append.mpr ⟨h.symm.isProper, hrest⟩) (h.look_pathTo hrest hlook)
  refine ⟨t'.names (r' ++ rest), by rw [Tree.list, hfound]; rfl, fun name => h.mem_names_iff,
    fun name hname => ?_⟩
  have hget := Tree.mem_names.mp hname
  rw [List.append_assoc] at hget
  exact ((h.fits _ hget).1.names name (by simp)).1

end SameBelow

/-! ### The same files in another order -/

/-- Two listings of one directory: the same names in any order, or the same failure. -/
def SameListing : Except Disk.Fault (List String) → Except Disk.Fault (List String) → Prop
  | .ok names, .ok names' => names'.Perm names
  | .error f, .error f' => f' = f
  | _, _ => False

/-- Two views of the same files that list directories in different orders. -/
structure SameFiles (fs fs' : Files Id) : Prop where
  isFile : ∀ p, fs'.isFile p = fs.isFile p
  isDirectory : ∀ p, fs'.isDirectory p = fs.isDirectory p
  read : ∀ p, fs'.read p = fs.read p
  canonical : ∀ p, fs'.canonical p = fs.canonical p
  list : ∀ p, SameListing (fs.list p) (fs'.list p)

section Trees

variable {t t' : Tree}

lemma Tree.walk_congr (h : t'.get? = t.get?) (names : List String) (here : Place) :
    t'.walk here names = t.walk here names := by
  induction names generalizing here with
  | nil => rfl
  | cons name rest ih =>
    simp only [Tree.walk, h, ih]

lemma Tree.find_congr (hstart : t'.start = t.start) (h : t'.get? = t.get?) (p : Path) :
    t'.find p = t.find p := by
  unfold Tree.find Tree.placeOf
  simp only [hstart, h, Tree.walk_congr h]

/-- Two trees with the same in every place list the same names. -/
lemma sameFiles_ofTree (hstart : t'.start = t.start) (h : t'.get? = t.get?) :
    SameFiles (Files.ofTree t) (Files.ofTree t') := by
  have hfind := Tree.find_congr hstart h
  have hlook (p : Path) : t'.look p = t.look p := by rw [Tree.look, Tree.look, hfind]
  constructor
  · intro p
    change t'.isFile p = t.isFile p
    rw [Tree.isFile, Tree.isFile, hlook]
  · intro p
    change t'.isDirectory p = t.isDirectory p
    rw [Tree.isDirectory, Tree.isDirectory, hlook]
  · intro p
    change t'.read p = t.read p
    rw [Tree.read, Tree.read, hlook]
  · intro p
    change t'.canonical p = t.canonical p
    rw [Tree.canonical, Tree.canonical, hfind]
  · intro p
    change SameListing (t.list p) (t'.list p)
    rw [Tree.list, Tree.list, hfind]
    rcases t.find p with f | ⟨place, _ | (⟨content, x⟩ | _ | _)⟩
    · rfl
    · rfl
    · rfl
    · have hnodup := List.perm_ext_iff_of_nodup (t'.nodup_names place) (t.nodup_names place)
      refine hnodup.mpr fun name => ?_
      rw [Tree.mem_names, Tree.mem_names, h]
    · rfl

lemma lookup_eq_of_perm {α β : Type} [BEq α] [LawfulBEq α] {l l' : List (α × β)} (h : l'.Perm l)
    (hnodup : (l'.map Prod.fst).Nodup) (k : α) : l'.lookup k = l.lookup k := by
  induction h with
  | nil => rfl
  | cons p _ ih =>
    obtain ⟨k', v⟩ := p
    have hrest := ih (List.nodup_cons.mp hnodup).2
    rw [List.lookup_cons, List.lookup_cons, hrest]
  | swap p q l =>
    obtain ⟨kp, vp⟩ := p
    obtain ⟨kq, vq⟩ := q
    have hne : kq ≠ kp := fun heq => (List.nodup_cons.mp hnodup).1 (heq ▸ List.mem_cons_self)
    rw [List.lookup_cons, List.lookup_cons, List.lookup_cons, List.lookup_cons]
    rcases hq : k == kq
    · rfl
    · rw [show (k == kp) = false from beq_eq_false_iff_ne.mpr fun hp => hne (eq_of_beq hq ▸ hp)]
  | trans h₁ _ ih₁ ih₂ =>
    exact (ih₁ hnodup).trans (ih₂ ((h₁.map Prod.fst).nodup_iff.mp hnodup))

/-- A tree is told in any order. -/
lemma sameFiles_of_perm (hstart : t'.start = t.start) (h : t'.nodes.Perm t.nodes)
    (hnodup : (t.nodes.map Prod.fst).Nodup) : SameFiles (Files.ofTree t) (Files.ofTree t') := by
  refine sameFiles_ofTree hstart (funext fun place => ?_)
  rw [Tree.get?, Tree.get?, lookup_eq_of_perm h ((h.map Prod.fst).nodup_iff.mpr hnodup)]

end Trees

end ContractBuild.Disk

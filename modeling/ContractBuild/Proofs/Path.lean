import Mathlib
import ContractBuild.Proofs.Disk.Listing

/-!
Absolute paths by their components: what joining adds to them, which path is left when `.` and `..`
are resolved, and which file another extension names.
-/

namespace ContractBuild

open ContractBuild.Disk ContractBuild.Text

namespace Disk

lemma isProper_nil : Place.IsProper [] := List.forall_mem_nil _

lemma isProper_append {a b : Place} : Place.IsProper (a ++ b) ↔ a.IsProper ∧ b.IsProper :=
  List.forall_mem_append

lemma isProper_snoc {place : Place} {name : String} :
    Place.IsProper (place ++ [name]) ↔ place.IsProper ∧ IsName name := by
  rw [isProper_append, Place.IsProper, Place.IsProper, List.forall_mem_singleton]

end Disk

namespace Path

/-! ### Components of a text -/

/-- What a part between slashes counts as. -/
def component? (s : List Char) : Option Component :=
  if s = [] ∨ s = ['.'] then none
  else if s = ['.', '.'] then some .up
  else some (.name (String.ofList s))

/-- The components of a text, apart from what a slash or a dot in front means. -/
def steps (cs : List Char) : List Component := (cs.splitOn '/').filterMap component?

lemma components_of_isAbsolute {p : Path} (h : p.isAbsolute = true) :
    p.components = .root :: steps p.text.toList := by
  simp only [components, h, if_true, chars_eq]
  rfl

@[simp] lemma steps_nil : steps [] = [] := by decide

lemma steps_append (a b : List Char) : steps (a ++ '/' :: b) = steps a ++ steps b := by
  rw [steps, splitOn_append, List.filterMap_append]
  rfl

lemma component?_name {name : String} (h : IsName name) :
    component? name.toList = some (.name name) := by
  have hhere : name.toList ≠ ['.'] := fun he => h.here (String.toList_inj.mp he)
  have hup : name.toList ≠ ['.', '.'] := fun he => h.up (String.toList_inj.mp he)
  rw [component?, if_neg (not_or.mpr ⟨h.nonempty, hhere⟩), if_neg hup, String.ofList_toList]

lemma steps_name {name : String} (h : IsName name) : steps name.toList = [.name name] := by
  rw [steps, splitOn_of_not_mem h.slash, List.filterMap_cons_some (component?_name h)]
  rfl

lemma isName_of_mem_steps {cs : List Char} {name : String} (h : .name name ∈ steps cs) :
    IsName name := by
  obtain ⟨s, hs, hname⟩ := List.mem_filterMap.mp h
  unfold component? at hname
  split_ifs at hname with h1 h2
  · cases hname
  obtain rfl := Component.name.inj (Option.some.inj hname)
  rw [not_or] at h1
  refine ⟨by simpa using h1.1, by simpa using not_mem_of_mem_splitOn hs, fun he => h1.2 ?_,
    fun he => h2 ?_⟩
  · simpa using congrArg String.toList he
  · simpa using congrArg String.toList he

lemma root_not_mem_steps (cs : List Char) : .root ∉ steps cs := by
  intro h
  obtain ⟨s, -, hroot⟩ := List.mem_filterMap.mp h
  unfold component? at hroot
  split_ifs at hroot
  all_goals cases hroot

/-- Without a dot there are only names. -/
lemma exists_name_of_mem_steps {cs : List Char} (h : '.' ∉ cs) {c : Component} (hc : c ∈ steps cs) :
    ∃ name, c = .name name := by
  obtain ⟨s, hs, hcomponent⟩ := List.mem_filterMap.mp hc
  unfold component? at hcomponent
  split_ifs at hcomponent with h1 h2
  · exact absurd (mem_of_mem_splitOn hs (by simp [h2])) h
  · exact ⟨_, (Option.some.inj hcomponent).symm⟩

/-! ### Joining -/

lemma exists_of_isAbsolute {p : Path} (h : p.isAbsolute = true) :
    ∃ r, p.text.toList = '/' :: r := by
  rw [isAbsolute, chars_eq, beq_iff_eq] at h
  exact ⟨_, (List.cons_head?_tail h).symm⟩

lemma text_ne_nil {p : Path} (h : p.isAbsolute = true) : p.text.toList ≠ [] := by
  obtain ⟨r, hr⟩ := exists_of_isAbsolute h
  simp [hr]

lemma isAbsolute_join {p : Path} (h : p.isAbsolute = true) (q : Path) :
    (p.join q).isAbsolute = true := by
  obtain ⟨r, hr⟩ := exists_of_isAbsolute h
  have hempty : p.text.isEmpty = false := by simpa using text_ne_nil h
  rw [join]
  split_ifs with hq hslash
  · simpa [hempty] using hq
  · simp [isAbsolute, hr]
  · simp [isAbsolute, hr]

lemma steps_join {p q : Path} (hp : p.text.toList ≠ []) (hq : q.isAbsolute = false) :
    steps (p.join q).text.toList = steps p.text.toList ++ steps q.text.toList := by
  have hempty : p.text.isEmpty = false := by simpa using hp
  rw [join, hq, hempty, Bool.false_or, if_neg Bool.false_ne_true]
  split_ifs with hslash
  · obtain ⟨a, ha⟩ : ∃ a, p.text.toList = a ++ ['/'] := by
      rw [chars_eq, beq_iff_eq] at hslash
      exact ⟨_, (List.dropLast_append_getLast? _ hslash).symm⟩
    rw [String.toList_append, ha, List.append_assoc, List.singleton_append, steps_append,
      steps_append, steps_nil, List.append_nil]
  · rw [String.toList_append, String.toList_append]
    change steps (p.text.toList ++ ['/'] ++ q.text.toList) = _
    rw [List.append_assoc, List.singleton_append, steps_append]

/-- Joining adds components at the end. -/
lemma components_join {p q : Path} (hp : p.isAbsolute = true) (hq : q.isAbsolute = false) :
    (p.join q).components = p.components ++ steps q.text.toList := by
  rw [components_of_isAbsolute (isAbsolute_join hp q), components_of_isAbsolute hp,
    steps_join (text_ne_nil hp) hq, List.cons_append]

lemma components_foldl_joinName {p : Path} (hp : p.isAbsolute = true) {names : List String}
    (hnames : ∀ name ∈ names, (Path.mk name).isAbsolute = false) :
    (names.foldl joinName p).components =
      p.components ++ names.flatMap fun name => steps name.toList := by
  induction names generalizing p with
  | nil => simp
  | cons name names ih =>
    obtain ⟨hname, hnames⟩ := List.forall_mem_cons.mp hnames
    rw [List.foldl_cons, ih (p := p.joinName name) (isAbsolute_join hp ⟨name⟩) hnames, joinName,
      components_join hp hname, List.flatMap_cons, List.append_assoc]

/-! ### The path to a place -/

lemma toList_pathTo (place : Place) :
    (Tree.pathTo place).text.toList = '/' :: ['/'].intercalate (place.map String.toList) := by
  rw [Tree.pathTo, String.toList_append, String.toList_intercalate]
  rfl

lemma isAbsolute_pathTo (place : Place) : (Tree.pathTo place).isAbsolute = true := by
  rw [isAbsolute, chars_eq, toList_pathTo]
  rfl

lemma text_pathTo_append {place : Place} (hne : place ≠ []) (name : String) :
    (Tree.pathTo (place ++ [name])).text = (Tree.pathTo place).text ++ "/" ++ name := by
  rw [Tree.pathTo, Tree.pathTo, String.intercalate_append_of_ne_nil hne (by simp),
    String.intercalate_singleton, ← String.append_assoc, ← String.append_assoc]

/-- Only the path to the root ends in a slash. -/
lemma endsInSlash_pathTo {place : Place} (h : place.IsProper) (hne : place ≠ []) :
    (Tree.pathTo place).endsInSlash = false := by
  obtain ⟨init, name, rfl⟩ : ∃ init name, place = init ++ [name] :=
    ⟨_, _, (List.dropLast_append_getLast hne).symm⟩
  have hname : IsName name := h name (by simp)
  obtain ⟨front, hfront⟩ :
      ∃ front, (Tree.pathTo (init ++ [name])).text.toList = front ++ name.toList := by
    by_cases hinit : init = []
    · subst hinit
      exact ⟨['/'], by rw [toList_pathTo]; simp⟩
    · exact ⟨_, by rw [text_pathTo_append hinit, String.toList_append]⟩
  rw [endsInSlash, chars_eq, hfront, List.getLast?_append_of_ne_nil _ hname.nonempty, beq_eq_false_iff_ne]
  intro hlast
  exact hname.slash (List.mem_of_getLast? hlast)

/-- A name leads from a place one step down. -/
lemma joinName_pathTo {place : Place} (h : place.IsProper) {name : String} (hname : IsName name) :
    (Tree.pathTo place).joinName name = Tree.pathTo (place ++ [name]) := by
  have hempty : (Tree.pathTo place).text.isEmpty = false := by
    simpa using text_ne_nil (isAbsolute_pathTo place)
  rw [joinName, join, isAbsolute_name hname, hempty, Bool.false_or, if_neg Bool.false_ne_true]
  by_cases hne : place = []
  · subst hne
    rw [if_pos (by decide)]
    rfl
  · have hslash := endsInSlash_pathTo h hne
    rw [endsInSlash] at hslash
    rw [if_neg (Bool.eq_false_iff.mp hslash), ← text_pathTo_append hne]

lemma components_pathTo {place : Place} (h : place.IsProper) :
    (Tree.pathTo place).components = .root :: place.map .name := by
  induction place using List.reverseRecOn with
  | nil => decide
  | append_singleton place name ih =>
    obtain ⟨hplace, hname⟩ := isProper_snoc.mp h
    rw [← joinName_pathTo hplace hname, joinName,
      components_join (isAbsolute_pathTo place) (isAbsolute_name hname), ih hplace,
      steps_name hname, List.map_append, List.cons_append]
    rfl

lemma parts_pathTo {place : Place} (h : place.IsProper) :
    parts (Tree.pathTo place).text.toList = place := by
  induction place using List.reverseRecOn with
  | nil => decide
  | append_singleton place name ih =>
    obtain ⟨hplace, hname⟩ := isProper_snoc.mp h
    rw [← joinName_pathTo hplace hname,
      Tree.parts_joinName (text_ne_nil (isAbsolute_pathTo place)) hname, ih hplace]

lemma foldl_joinName_pathTo {place more : Place} (h : place.IsProper) (hmore : more.IsProper) :
    more.foldl joinName (Tree.pathTo place) = Tree.pathTo (place ++ more) := by
  induction more generalizing place with
  | nil => rw [List.append_nil]; rfl
  | cons name more ih =>
    obtain ⟨hname, hmore⟩ := List.forall_mem_cons.mp hmore
    rw [List.foldl_cons, joinName_pathTo h hname, ih (isProper_snoc.mpr ⟨h, hname⟩) hmore,
      List.append_assoc, List.singleton_append]

/-! ### Resolving `.` and `..` -/

/-- Where a component leads from a place. -/
def Component.turn (here : Place) : Component → Place
  | .root => []
  | .here => here
  | .up => here.dropLast
  | .name s => here ++ [s]

lemma isProper_foldl_turn {here : Place} (h : here.IsProper) {cs : List Component}
    (hcs : ∀ name, .name name ∈ cs → IsName name) : (cs.foldl Component.turn here).IsProper := by
  induction cs generalizing here with
  | nil => exact h
  | cons c cs ih =>
    refine ih ?_ fun name hname => hcs name (List.mem_cons_of_mem c hname)
    cases c with
    | root => exact isProper_nil
    | here => exact h
    | up => exact fun n hn => h n (List.dropLast_subset _ hn)
    | name s => exact isProper_snoc.mpr ⟨h, hcs s List.mem_cons_self⟩

lemma foldl_step {place : Place} {cs : List Component} (hcs : .root ∉ cs) :
    cs.foldl normalize.step (.root :: place.map .name) =
      .root :: (cs.foldl Component.turn place).map .name := by
  induction cs generalizing place with
  | nil => rfl
  | cons c cs ih =>
    rw [List.mem_cons, not_or] at hcs
    have hstep : normalize.step (.root :: place.map .name) c =
        .root :: (Component.turn place c).map .name := by
      cases c with
      | root => exact absurd rfl hcs.1
      | here => rfl
      | up =>
        rw [normalize.step]
        by_cases hplace : place = []
        · simp [hplace, Component.turn]
        · have hne : place.map Component.name ≠ [] := by simpa using hplace
          simp [hplace, List.dropLast_cons_of_ne_nil hne, Component.turn, List.map_dropLast]
      | name s => simp [normalize.step, Component.turn]
    rw [List.foldl_cons, hstep, ih hcs.2, List.foldl_cons]

lemma ofComponents_place {place : Place} (h : place.IsProper) :
    ofComponents (.root :: place.map .name) = Tree.pathTo place := by
  have hroot : (Path.mk "").joinName Component.root.text = Tree.pathTo [] := by decide
  have hplace := foldl_joinName_pathTo isProper_nil h
  rw [List.nil_append] at hplace
  rw [ofComponents, List.foldl_cons, hroot, List.foldl_map, ← hplace]
  rfl

/-- Where the components of an absolute path lead. -/
def normalPlace (p : Path) : Place := (steps p.text.toList).foldl Component.turn []

lemma isProper_normalPlace (p : Path) : p.normalPlace.IsProper :=
  isProper_foldl_turn isProper_nil fun _ hname => isName_of_mem_steps hname

/-- **Normalizing** an absolute path gives the path to the place where its components lead. -/
lemma normalize_of_isAbsolute {p : Path} (h : p.isAbsolute = true) :
    p.normalize = Tree.pathTo p.normalPlace := by
  have hfold := @foldl_step [] _ (root_not_mem_steps p.text.toList)
  rw [normalize, components_of_isAbsolute h, List.foldl_cons]
  change ofComponents ((steps p.text.toList).foldl normalize.step [.root]) = _
  rw [← ofComponents_place p.isProper_normalPlace, normalPlace, ← hfold, List.map_nil]

/-- A path leads where its components lead. -/
lemma foldl_turn_steps (here : Place) (cs : List Char) :
    (steps cs).foldl Component.turn here = here.follow (parts cs) := by
  rw [steps, parts, Place.follow]
  generalize cs.splitOn '/' = pieces
  induction pieces generalizing here with
  | nil => rfl
  | cons s pieces ih =>
    rw [List.map_cons]
    by_cases hnil : s = []
    · rw [List.filterMap_cons_none (by simp [component?, hnil]),
        List.filter_cons_of_neg (by simp [hnil]), ih]
    · rw [List.filter_cons_of_pos (by simpa using hnil), List.foldl_cons, turn]
      by_cases hhere : s = ['.']
      · rw [List.filterMap_cons_none (by simp [component?, hhere]), if_pos (by rw [hhere]), ih]
      · have hdot : String.ofList s ≠ "." := fun h => hhere (by simpa using congrArg String.toList h)
        rw [if_neg hdot]
        by_cases hup : s = ['.', '.']
        · rw [List.filterMap_cons_some (b := .up) (by simp [component?, hup]), List.foldl_cons,
            if_pos (by rw [hup]), ih]
          rfl
        · have hdots : String.ofList s ≠ ".." := fun h =>
            hup (by simpa using congrArg String.toList h)
          rw [List.filterMap_cons_some (b := .name (String.ofList s))
            (by simp [component?, hnil, hhere, hup]), List.foldl_cons, if_neg hdots, ih]
          rfl

/-- A relative path leads on from where the path in front of it leads. -/
lemma normalPlace_join {p q : Path} (hp : p.isAbsolute = true) (hq : q.isAbsolute = false) :
    (p.join q).normalPlace = q.destination p.normalPlace := by
  have hhead : (q.text.toList.head? == some '/') = false := by rwa [isAbsolute, chars_eq] at hq
  rw [normalPlace, steps_join (text_ne_nil hp) hq, List.foldl_append, ← normalPlace,
    foldl_turn_steps, destination, lead, hhead]
  rfl

/-! ### Parents -/

lemma trimTail_suffix (cs : List Char) : trimTail cs <:+ cs := by
  fun_induction trimTail cs with
  | case1 c r ih => exact ih.trans (List.suffix_cons _ _)
  | case2 r ih => exact ih.trans (List.suffix_cons _ _)
  | case3 r => exact List.suffix_refl _

/-- The parent of a relative path is relative. -/
lemma isAbsolute_parent {p dir : Path} (h : p.parent = some dir) (hp : p.isAbsolute = false) :
    dir.isAbsolute = false := by
  have hsuffix : dir.text.toList.reverse <:+ p.text.toList.reverse := by
    unfold parent at h
    split at h
    · cases h
    · cases h
    · obtain rfl := Option.some.inj h
      rw [String.toList_ofList, List.reverse_reverse, tailFirst, chars_eq]
      exact (trimTail_suffix _).trans ((List.dropWhile_suffix _).trans (trimTail_suffix _))
  obtain ⟨rest, hrest⟩ := List.reverse_suffix.mp hsuffix
  rw [isAbsolute, chars_eq, ← hrest] at hp
  rw [isAbsolute, chars_eq]
  rcases hdir : dir.text.toList with _ | ⟨c, r⟩
  · rfl
  · rwa [hdir, List.cons_append] at hp

/-! ### Extensions -/

/-- A name with an extension is what stands before the last dot, the dot, and the extension. -/
lemma eq_of_splitName {name ext : List Char} (h : (splitName name).2 = some ext) :
    name = (splitName name).1 ++ '.' :: ext := by
  rw [splitName] at h ⊢
  split_ifs at h ⊢ with hcond
  obtain rfl := Option.some.inj h
  have hsplit := List.takeWhile_append_dropWhile (p := (· ≠ '.')) (l := name.reverse)
  rcases hdrop : name.reverse.dropWhile (· ≠ '.') with _ | ⟨c, r⟩
  · rw [hdrop, List.append_nil] at hsplit
    rw [hsplit] at hcond
    simp at hcond
  · obtain rfl : c = '.' := by
      have := List.head?_dropWhile_not (· ≠ '.') name.reverse
      rw [hdrop] at this
      simpa using this
    have hname := congrArg List.reverse hsplit
    rw [List.reverse_reverse, hdrop, List.reverse_append, List.reverse_cons, List.append_assoc,
      List.singleton_append] at hname
    generalize (name.reverse.takeWhile (· ≠ '.')).reverse = ext at hname ⊢
    have hlength : name.length - ext.length - 1 = r.reverse.length := by
      rw [← hname, List.length_append, List.length_cons]
      omega
    rw [hlength, ← hname, List.take_left]

lemma trimTail_name {name : String} (h : IsName name) (dir : List Char) :
    trimTail (name.toList.reverse ++ dir) = name.toList.reverse ++ dir := by
  rcases hrev : name.toList.reverse with _ | ⟨c, r⟩
  · exact absurd (List.reverse_eq_nil_iff.mp hrev) h.nonempty
  have hmem (d : Char) (hd : d ∈ c :: r) : d ≠ '/' := by
    rintro rfl
    exact h.slash (List.mem_reverse.mp (hrev ▸ hd))
  rw [List.cons_append, trimTail]
  · exact fun d s he => hmem c List.mem_cons_self (List.cons.inj he).1
  · intro s he
    obtain ⟨rfl, hr⟩ := List.cons.inj he
    cases r with
    | nil =>
      refine h.here (String.toList_inj.mp ?_)
      rw [← List.reverse_reverse name.toList, hrev]
      rfl
    | cons d r => exact hmem d (by simp) (List.cons.inj hr).1

/-- A slash after a name does not count. -/
lemma tailFirst_of_text {p : Path} {front : List Char} {name : String} (h : IsName name)
    (htext : p.text.toList = front ++ name.toList ∨ p.text.toList = front ++ name.toList ++ ['/']) :
    p.tailFirst = name.toList.reverse ++ front.reverse := by
  rw [tailFirst, chars_eq]
  rcases htext with htext | htext
  · rw [htext, List.reverse_append, trimTail_name h]
  · obtain ⟨c, r, hrev⟩ := List.exists_cons_of_ne_nil
      (fun hnil => h.nonempty (List.reverse_eq_nil_iff.mp hnil) : name.toList.reverse ≠ [])
    rw [htext, List.reverse_append, List.reverse_append, List.reverse_singleton, hrev,
      List.singleton_append, List.cons_append, trimTail, ← List.cons_append, ← hrev,
      trimTail_name h]

/-- Another extension replaces that of the last name. -/
lemma toList_withExtension {p : Path} {front : List Char} {name : String} (h : IsName name)
    (htail : p.tailFirst = name.toList.reverse ++ front.reverse)
    (hfront : front = [] ∨ front.getLast? = some '/') (ext : String) :
    (p.withExtension ext).text.toList =
      front ++ (splitName name.toList).1 ++ '.' :: ext.toList := by
  have hlast : p.last = name.toList := by
    have hname : ∀ c ∈ name.toList.reverse, decide (c ≠ '/') = true := by
      intro c hc
      refine decide_eq_true fun he => h.slash ?_
      rw [← he]
      exact List.mem_reverse.mp hc
    rw [last, htail, List.takeWhile_append_of_pos hname]
    rcases hfront with rfl | hfront
    · simp
    · obtain ⟨a, rfl⟩ : ∃ a, front = a ++ ['/'] :=
        ⟨_, (List.dropLast_append_getLast? _ hfront).symm⟩
      simp
  have hfile : p.fileName = some name := by
    rw [fileName, hlast, String.ofList_toList]
    refine if_neg ?_
    rintro (hnil | hhere | hup)
    · exact h.nonempty hnil
    · exact h.here (String.toList_inj.mp hhere)
    · exact h.up (String.toList_inj.mp hup)
  rw [withExtension, hfile]
  simp [htail, ← String.length_toList]

lemma splitName_of_not_mem {name : List Char} (h : '.' ∉ name) : splitName name = (name, none) := by
  have hall : ∀ c ∈ name.reverse, decide (c ≠ '.') = true := by
    intro c hc
    refine decide_eq_true fun he => h ?_
    rw [← he]
    exact List.mem_reverse.mp hc
  have htake : name.reverse.takeWhile (· ≠ '.') = name.reverse :=
    List.takeWhile_eq_self_iff.mpr hall
  rw [splitName]
  simp only [htake, List.reverse_reverse]
  rw [if_neg (by simp)]

lemma splitName_subset (name : List Char) : (splitName name).1 ⊆ name := by
  rw [splitName]
  split_ifs
  · exact List.take_subset _ _
  · exact List.Subset.refl _

/-- A module file has the name of a file, whatever comes before its extension. -/
lemma isName_module {stem : String} (h : '/' ∉ stem.toList) : IsName (stem ++ ".py") := by
  have hlength : 3 ≤ (stem ++ ".py").toList.length := by simp
  refine ⟨List.ne_nil_of_length_pos (by omega), by simp [h], ?_, ?_⟩
  · intro he
    rw [he] at hlength
    exact absurd hlength (by decide)
  · intro he
    rw [he] at hlength
    exact absurd hlength (by decide)

/-- What stands before the last name of the path to a place. -/
lemma exists_front (place : Place) : ∃ front : List Char, front.getLast? = some '/' ∧
    ∀ name, (Tree.pathTo (place ++ [name])).text.toList = front ++ name.toList := by
  by_cases hne : place = []
  · refine ⟨['/'], rfl, fun name => ?_⟩
    rw [hne, toList_pathTo]
    simp
  · refine ⟨(Tree.pathTo place).text.toList ++ ['/'], by simp, fun name => ?_⟩
    rw [text_pathTo_append hne, String.toList_append, String.toList_append]
    rfl

/-- The file beside a place that has the place's name and another extension. -/
lemma withExtension_pathTo {place : Place} {name : String} (h : IsName name) {p : Path}
    (hp : p = Tree.pathTo (place ++ [name]) ∨ p = ⟨(Tree.pathTo (place ++ [name])).text ++ "/"⟩)
    (ext : String) : p.withExtension ext =
      Tree.pathTo (place ++ [String.ofList (splitName name.toList).1 ++ "." ++ ext]) := by
  obtain ⟨front, hfront, htext⟩ := exists_front place
  have htail : p.tailFirst = name.toList.reverse ++ front.reverse := by
    refine tailFirst_of_text h ?_
    rcases hp with rfl | rfl
    · exact .inl (htext name)
    · refine .inr ?_
      rw [String.toList_append, htext]
      rfl
  have heq : (p.withExtension ext).text = (Tree.pathTo
      (place ++ [String.ofList (splitName name.toList).1 ++ "." ++ ext])).text := by
    apply String.toList_inj.mp
    rw [toList_withExtension h htail (.inr hfront), htext]
    simp
  exact congrArg Path.mk heq

/-! ### Paths that never climb -/

def Component.isName : Component → Bool
  | .name _ => true
  | _ => false

/-- A path that leads downwards from wherever it starts: it never goes up further than it has come
down. -/
def NeverClimbs (p : Path) : Prop :=
  p.isAbsolute = false ∧
    ∀ front, front <+: p.components → front.count .up ≤ front.countP Component.isName

instance (p : Path) : Decidable p.NeverClimbs :=
  decidable_of_iff (p.isAbsolute = false ∧
    ∀ front ∈ p.components.inits, front.count .up ≤ front.countP Component.isName)
    (and_congr_right' (forall_congr' fun _ => imp_congr_left (List.mem_inits _ _)))

lemma foldl_turn_append {cs : List Component} (hroot : .root ∉ cs) {below : Place}
    (hcs : ∀ front, front <+: cs →
      front.count .up ≤ below.length + front.countP Component.isName) (above : Place) :
    cs.foldl Component.turn (above ++ below) = above ++ cs.foldl Component.turn below := by
  induction cs generalizing below with
  | nil => rfl
  | cons c cs ih =>
    rw [List.mem_cons, not_or] at hroot
    have hstep : Component.turn (above ++ below) c = above ++ Component.turn below c := by
      cases c with
      | root => exact absurd rfl hroot.1
      | here => rfl
      | up =>
        have hone := hcs [.up] (by simp)
        simp only [List.count_singleton_self, List.countP_singleton, Component.isName] at hone
        have hne : below ≠ [] := by
          rintro rfl
          simp at hone
        exact List.dropLast_append_of_ne_nil hne
      | name s => simp [Component.turn]
    rw [List.foldl_cons, hstep, ih hroot.2, List.foldl_cons]
    intro front hfront
    have hmore := hcs (c :: front) (List.cons_prefix_cons.mpr ⟨rfl, hfront⟩)
    rw [List.count_cons, List.countP_cons] at hmore
    cases c with
    | root => exact absurd rfl hroot.1
    | here => simpa [Component.turn, Component.isName] using hmore
    | up =>
      simp only [beq_self_eq_true, if_true, Component.isName, Bool.false_eq_true, if_false] at hmore
      simp only [Component.turn, List.length_dropLast]
      omega
    | name s =>
      simp [Component.isName] at hmore
      simp only [Component.turn, List.length_append, List.length_singleton]
      omega

lemma NeverClimbs.steps {q : Path} (hq : q.NeverClimbs) :
    ∀ front, front <+: steps q.text.toList →
      front.count .up ≤ front.countP Component.isName := by
  intro front hfront
  -- a dot in front counts for nothing
  obtain ⟨lead, hlead, hcomponents⟩ : ∃ lead : List Component,
      (lead = [] ∨ lead = [.here]) ∧ q.components = lead ++ Path.steps q.text.toList := by
    simp only [components, hq.1, Bool.false_eq_true, if_false, chars_eq]
    by_cases hdot : ((q.text.toList.splitOn '/').head? == some ['.']) = true
    · exact ⟨[.here], .inr rfl, by rw [if_pos hdot]; rfl⟩
    · exact ⟨[], .inl rfl, by rw [if_neg hdot]; rfl⟩
  have hcount := hq.2 (lead ++ front) (by
    rw [hcomponents]
    exact (List.prefix_append_right_inj lead).mpr hfront)
  rcases hlead with rfl | rfl
  · exact hcount
  · simpa [Component.isName] using hcount

lemma foldl_turn_steps_pathTo {place : Place} (h : place.IsProper) :
    (Path.steps (Tree.pathTo place).text.toList).foldl Component.turn [] = place := by
  have hcomponents := components_pathTo h
  rw [components_of_isAbsolute (isAbsolute_pathTo place)] at hcomponents
  rw [(List.cons.inj hcomponents).2]
  have hfold (here : Place) : (place.map Component.name).foldl Component.turn here =
      here ++ place := by
    clear h hcomponents
    induction place generalizing here with
    | nil => simp
    | cons name place ih =>
      rw [List.map_cons, List.foldl_cons, ih]
      simp [Component.turn]
  exact hfold []

/-- A path that never climbs leads to the same place below any directory. -/
lemma normalize_join {place : Place} (h : place.IsProper) {q : Path} (hq : q.NeverClimbs) :
    ((Tree.pathTo place).join q).normalize = Tree.pathTo (place ++ q.normalPlace) := by
  have habs := isAbsolute_pathTo place
  rw [normalize_of_isAbsolute (isAbsolute_join habs q)]
  congr 1
  have hbelow := @foldl_turn_append _ (root_not_mem_steps q.text.toList) []
    (by simpa using hq.steps) place
  rw [List.append_nil] at hbelow
  rw [normalPlace, steps_join (text_ne_nil habs) hq.1, List.foldl_append,
    foldl_turn_steps_pathTo h, hbelow, normalPlace]

/-! ### Paths that lead to a place -/

/-- The path to a place, or the same with a slash at the end. -/
def LeadsTo (p : Path) (place : Place) : Prop :=
  p = Tree.pathTo place ∨ place ≠ [] ∧ p = ⟨(Tree.pathTo place).text ++ "/"⟩

namespace LeadsTo

variable {p : Path} {place : Place}

lemma isAbsolute (h : p.LeadsTo place) : p.isAbsolute = true := by
  obtain ⟨r, hr⟩ := exists_of_isAbsolute (isAbsolute_pathTo place)
  rcases h with rfl | ⟨-, rfl⟩
  · exact isAbsolute_pathTo place
  · simp [Path.isAbsolute, hr]

lemma joinName_slash (text : String) {name : String} (hname : (Path.mk name).isAbsolute = false) :
    (Path.mk (text ++ "/")).joinName name = ⟨text ++ "/" ++ name⟩ := by
  rw [Path.joinName, join, hname]
  simp

lemma joinName_empty (h : p.LeadsTo place) (hplace : place.IsProper) :
    (p.joinName "").LeadsTo place := by
  rcases h with rfl | ⟨hne, rfl⟩
  · by_cases hne : place = []
    · subst hne
      exact .inl (by decide)
    · have hslash := endsInSlash_pathTo hplace hne
      have hempty : (Tree.pathTo place).text.isEmpty = false := by
        simpa using text_ne_nil (isAbsolute_pathTo place)
      rw [endsInSlash] at hslash
      refine .inr ⟨hne, ?_⟩
      rw [Path.joinName, join, hempty, hslash]
      simp [Path.isAbsolute]
  · rw [joinName_slash _ (by decide), String.append_empty]
    exact .inr ⟨hne, rfl⟩

lemma joinName (h : p.LeadsTo place) (hplace : place.IsProper) {name : String}
    (hname : IsName name) : p.joinName name = Tree.pathTo (place ++ [name]) := by
  rcases h with rfl | ⟨hne, rfl⟩
  · exact joinName_pathTo hplace hname
  · rw [joinName_slash _ (isAbsolute_name hname), ← text_pathTo_append hne]

lemma foldl_joinName (h : p.LeadsTo place) (hplace : place.IsProper) {names : List String}
    (hnames : ∀ name ∈ names, name ≠ "" → IsName name) :
    (names.foldl Path.joinName p).LeadsTo (place ++ names.filter (· ≠ "")) := by
  induction names generalizing p place with
  | nil => simpa using h
  | cons name names ih =>
    obtain ⟨hname, hnames⟩ := List.forall_mem_cons.mp hnames
    rw [List.foldl_cons]
    by_cases hempty : name = ""
    · rw [List.filter_cons_of_neg (by simpa using hempty), hempty]
      exact ih (h.joinName_empty hplace) hplace hnames
    · have hnext := ih (p := Tree.pathTo (place ++ [name])) (.inl rfl)
        (isProper_snoc.mpr ⟨hplace, hname hempty⟩) hnames
      rwa [List.append_assoc, List.singleton_append, ← h.joinName hplace (hname hempty),
        ← List.filter_cons_of_pos (p := (· ≠ "")) (by simpa using hempty)] at hnext

lemma withExtension_eq (h : p.LeadsTo place) (hplace : place.IsProper) (ext : String) :
    p.withExtension ext = (Tree.pathTo place).withExtension ext := by
  rcases List.eq_nil_or_concat place with rfl | ⟨init, name, rfl⟩
  · obtain rfl | ⟨hne, -⟩ := h
    · rfl
    · exact absurd rfl hne
  · rw [List.concat_eq_append] at h hplace ⊢
    have hname := (isProper_snoc.mp hplace).2
    rw [withExtension_pathTo hname (h.imp_right And.right), withExtension_pathTo hname (.inl rfl)]

end LeadsTo

end Path

end ContractBuild

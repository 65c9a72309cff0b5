import Mathlib
import ContractBuild.Proofs.Disk.Tree
import ContractBuild.Proofs.Text.Delimited

/-!
Where a path leads, by its text alone: what stands in a tree decides only whether the path can be
followed, and not where it ends.
-/

namespace ContractBuild

open ContractBuild.Text

/-! ### Names on the way -/

namespace Disk

/-- Where one name leads from a place. -/
def turn (here : Place) (name : String) : Place :=
  if name = "." then here else if name = ".." then here.dropLast else here ++ [name]

/-- Where names lead from a place. -/
def Place.follow (here : Place) (names : List String) : Place := names.foldl turn here

/-- A name that leads downwards. -/
structure IsName (name : String) : Prop where
  nonempty : name.toList ≠ []
  slash : '/' ∉ name.toList
  here : name ≠ "."
  up : name ≠ ".."

instance (name : String) : Decidable (IsName name) :=
  decidable_of_iff (name.toList ≠ [] ∧ '/' ∉ name.toList ∧ name ≠ "." ∧ name ≠ "..")
    ⟨fun h => ⟨h.1, h.2.1, h.2.2.1, h.2.2.2⟩, fun h => ⟨h.nonempty, h.slash, h.here, h.up⟩⟩

lemma turn_of_isName {name : String} (h : IsName name) (here : Place) :
    turn here name = here ++ [name] := by
  rw [turn, if_neg h.here, if_neg h.up]

lemma Tree.follow_of_walk {t : Tree} {here p : Place} {names : List String}
    (h : t.walk here names = .ok p) : p = here.follow names := by
  induction names generalizing here with
  | nil =>
    rw [walk] at h
    cases h
    rfl
  | cons name names ih =>
    have hdir := directory_of_walk h
    rw [walk, hdir] at h
    dsimp only at h
    rw [Place.follow, List.foldl_cons, turn]
    split_ifs at h ⊢ with h1 h2 h3
    · exact ih h
    · exact ih h
    · exact ih h

end Disk

open ContractBuild.Disk

/-! ### The parts of a text -/

namespace Path

/-- The parts between slashes, without the empty ones. -/
def parts (cs : List Char) : List String :=
  ((cs.splitOn '/').map String.ofList).filter (!·.isEmpty)

/-- Where a text leads from a place. -/
def lead (start : Place) (cs : List Char) : Place :=
  (if cs.head? == some '/' then [] else start : Place).follow (parts cs)

/-- Where a path leads from a place. -/
def destination (start : Place) (p : Path) : Place := lead start p.text.toList

lemma destination_of_placeOf {t : Tree} {p : Path} {place : Place} (h : t.placeOf p = .ok place) :
    place = p.destination t.start := by
  unfold Tree.placeOf at h
  rw [Text.chars_eq, Text.splitString_eq, Path.isAbsolute, Text.chars_eq] at h
  by_cases h1 : p.text.isEmpty = true
  · rw [if_pos h1] at h; cases h
  by_cases h2 : p.text.toList.contains '\x00' = true
  · rw [if_neg h1, if_pos h2] at h; cases h
  by_cases h3 : Tree.pathLimit ≤ p.text.utf8ByteSize
  · rw [if_neg h1, if_neg h2, if_pos h3] at h; cases h
  rw [if_neg h1, if_neg h2, if_neg h3] at h
  exact Tree.follow_of_walk h

lemma parts_append (a b : List Char) : parts (a ++ '/' :: b) = parts a ++ parts b := by
  rw [parts, splitOn_append, List.map_append, List.filter_append]
  rfl

@[simp] lemma parts_nil : parts [] = [] := by decide

lemma parts_name {name : List Char} (hne : name ≠ []) (hslash : '/' ∉ name) :
    parts name = [String.ofList name] := by
  rw [parts, splitOn_of_not_mem hslash]
  simp [hne]

lemma parts_ne_nil {cs : List Char} (hne : cs ≠ []) (hhead : cs.head? ≠ some '/') :
    parts cs ≠ [] := by
  by_cases hslash : '/' ∈ cs
  · obtain ⟨name, rest, rfl, hname⟩ := List.eq_append_cons_of_mem hslash
    have hne : name ≠ [] := by
      rintro rfl
      exact hhead rfl
    rw [parts_append, parts_name hne hname]
    simp
  · rw [parts_name hne hslash]
    simp

/-! ### Below a path -/

variable (start : Place)

/-- What follows a slash leads on from there. -/
lemma lead_append {a : List Char} (ha : a ≠ []) (b : List Char) :
    lead start (a ++ '/' :: b) = (lead start a).follow (parts b) := by
  rw [lead, lead, parts_append, List.head?_append_of_ne_nil _ ha, Place.follow, List.foldl_append]
  rfl

/-- A name after a slash leads one step further. -/
lemma lead_append_name (a : List Char) {name : List Char} (h : IsName (String.ofList name)) :
    lead start (a ++ '/' :: name) = lead start (a ++ ['/']) ++ [String.ofList name] := by
  have hhead : (a ++ '/' :: name).head? = (a ++ ['/']).head? := by
    cases a <;> rfl
  have hname : parts name = [String.ofList name] :=
    parts_name (by simpa using h.nonempty) (by simpa using h.slash)
  rw [lead, lead, hhead, parts_append, parts_append, parts_nil, hname, Place.follow,
    List.foldl_append, List.append_nil]
  exact turn_of_isName h _

/-- A slash at the end of a text does not count, unless it is all there is. -/
lemma lead_append_slash {a : List Char} (ha : a ≠ []) : lead start (a ++ ['/']) = lead start a := by
  rw [lead_append start ha, parts_nil]
  rfl

lemma lead_append_here (a : List Char) :
    lead start (a ++ ['/', '.']) = lead start (a ++ ['/']) := by
  have hhead : (a ++ ['/', '.']).head? = (a ++ ['/']).head? := by
    cases a <;> rfl
  have hdot : parts ['.'] = ["."] := by decide
  rw [lead, lead, hhead, parts_append, parts_append, parts_nil, hdot, Place.follow,
    List.foldl_append, List.append_nil]
  rfl

lemma lead_name {name : List Char} (h : IsName (String.ofList name)) :
    lead start name = start ++ [String.ofList name] := by
  have hslash : '/' ∉ name := by simpa using h.slash
  have hhead : (name.head? == some '/') = false := by
    cases name with
    | nil => rfl
    | cons c r =>
      have : c ≠ '/' := fun hc => hslash (by simp [hc])
      simpa using this
  rw [lead, hhead, parts_name (by simpa using h.nonempty) hslash]
  exact turn_of_isName h _

lemma isAbsolute_name {name : String} (h : IsName name) : (Path.mk name).isAbsolute = false := by
  rcases hc : name.toList with _ | ⟨c, r⟩
  · exact absurd hc h.nonempty
  · have : c ≠ '/' := fun hs => h.slash (by rw [hc, hs]; exact List.mem_cons_self)
    simpa [isAbsolute, hc] using this

lemma destination_joinName (p : Path) {name : String} (h : IsName name) :
    (p.joinName name).destination start = p.destination start ++ [name] := by
  have hname : String.ofList name.toList = name := String.ofList_toList
  have h' : IsName (String.ofList name.toList) := by rwa [hname]
  rw [joinName, join, isAbsolute_name h]
  split_ifs with hempty hslash
  · -- nothing stands in front
    have hnil : p.text.toList = [] := by simpa using hempty
    have := lead_name start h'
    rw [destination, destination, hnil, this, hname]
    rfl
  · -- a slash stands there already
    obtain ⟨a, ha⟩ : ∃ a, p.text.toList = a ++ ['/'] := by
      rw [Text.chars_eq, beq_iff_eq] at hslash
      exact ⟨_, (List.dropLast_append_getLast? _ hslash).symm⟩
    have := lead_append_name start a h'
    rw [destination, destination, String.toList_append, ha, List.append_assoc, List.singleton_append,
      this, hname]
  · have hne : p.text.toList ≠ [] := by simpa using hempty
    have := lead_append_name start p.text.toList h'
    rw [destination, destination, String.toList_append, String.toList_append]
    change lead start (p.text.toList ++ ['/'] ++ name.toList) = _
    rw [List.append_assoc, List.singleton_append, this, lead_append_slash start hne, hname]

/-- A path that ends with a name does not end with a slash. -/
lemma endsInSlash_joinName (p : Path) {name : String} (h : IsName name) :
    (p.joinName name).endsInSlash = false := by
  obtain ⟨a, ha⟩ : ∃ a, (p.joinName name).text.toList = a ++ name.toList := by
    unfold joinName join
    split_ifs
    · exact ⟨[], rfl⟩
    · exact ⟨_, String.toList_append ..⟩
    · exact ⟨_, String.toList_append ..⟩
  rw [endsInSlash, Text.chars_eq, ha, List.getLast?_append_of_ne_nil _ h.nonempty, beq_eq_false_iff_ne]
  intro hlast
  exact h.slash (List.mem_of_getLast? hlast)

/-! ### Next to a path -/

/-- What is left out at the end of a text does not change where it leads. -/
lemma lead_trimTail (cs : List Char) :
    lead start (trimTail cs).reverse = lead start cs.reverse := by
  fun_induction trimTail cs with
  | case1 c r ih =>
    rw [ih, List.reverse_cons (a := '/'), lead_append_slash start (by simp)]
  | case2 r ih =>
    have hrev : ('.' :: '/' :: r).reverse = r.reverse ++ ['/', '.'] := by simp
    rw [ih, hrev, lead_append_here, List.reverse_cons]
  | case3 => rfl

lemma isName_of_fileName {p : Path} {name : String} (h : p.fileName = some name) :
    IsName name := by
  unfold fileName at h
  simp only at h
  split_ifs at h with hlast
  obtain rfl := Option.some.inj h
  simp only [not_or] at hlast
  refine ⟨by simpa using hlast.1, ?_, ?_, ?_⟩
  · rw [String.toList_ofList, last, List.mem_reverse]
    intro hmem
    simpa using List.mem_takeWhile_imp hmem
  · intro hdot
    exact hlast.2.1 (by simpa using congrArg String.toList hdot)
  · intro hdot
    exact hlast.2.2 (by simpa using congrArg String.toList hdot)

/-- A file name is the last step of its path. -/
lemma destination_of_fileName {p : Path} {name : String} (h : p.fileName = some name) :
    ∃ dir, p.parent = some dir ∧ p.destination start = dir.destination start ++ [name] := by
  have hname := isName_of_fileName h
  have hlast : name = String.ofList p.last := by
    unfold fileName at h
    simp only at h
    split_ifs at h
    exact (Option.some.inj h).symm
  have hsplit := List.takeWhile_append_dropWhile (p := (· ≠ '/')) (l := p.tailFirst)
  have hdest : p.destination start = lead start p.tailFirst.reverse := by
    rw [destination, tailFirst, Text.chars_eq, lead_trimTail, List.reverse_reverse]
  have hparent : p.parent =
      some ⟨String.ofList (trimTail (p.tailFirst.dropWhile (· ≠ '/'))).reverse⟩ := by
    unfold parent
    split
    · next hnil =>
      rw [last, hnil] at hlast
      exact absurd (by rw [hlast]; rfl) hname.nonempty
    · next hroot =>
      rw [last, hroot] at hlast
      exact absurd (by rw [hlast]; rfl) hname.nonempty
    · rfl
  refine ⟨_, hparent, ?_⟩
  rw [hdest, destination, String.toList_ofList, lead_trimTail, ← hsplit, List.reverse_append]
  have hlast' : (p.tailFirst.takeWhile (· ≠ '/')).reverse = p.last := rfl
  rw [hlast', hsplit]
  have hn : IsName (String.ofList p.last) := by rwa [← hlast]
  rcases hd : p.tailFirst.dropWhile (· ≠ '/') with _ | ⟨c, r⟩
  · rw [List.reverse_nil, List.nil_append, lead_name start hn, hlast]
    rfl
  · obtain rfl : c = '/' := by
      have := List.head?_dropWhile_not (· ≠ '/') p.tailFirst
      rw [hd] at this
      simpa using this
    rw [List.reverse_cons, List.append_assoc, List.singleton_append, lead_append_name start _ hn, hlast]

end Path

end ContractBuild

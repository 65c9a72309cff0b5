import Mathlib
import ContractBuild.Proofs.Host.Undo

/-!
What a directory lists: the names below a place, each once, and which of them a path can be followed
to. Removing files takes them off the list and changes nothing else.
-/

namespace ContractBuild

open ContractBuild.Text

namespace Disk

/-! ### Names -/

/-- Every name of the place leads downwards. -/
def Place.IsProper (place : Place) : Prop := ∀ name ∈ place, IsName name

lemma isProper_turn {here : Place} (hhere : here.IsProper) {name : String}
    (hnonempty : name.toList ≠ []) (hslash : '/' ∉ name.toList) : (turn here name).IsProper := by
  unfold turn
  split_ifs with hdot hup
  · exact hhere
  · exact fun n hn => hhere n (List.dropLast_subset _ hn)
  · intro n hn
    rcases List.mem_append.mp hn with hn | hn
    · exact hhere n hn
    · obtain rfl := List.mem_singleton.mp hn
      exact ⟨hnonempty, hslash, hdot, hup⟩

lemma isProper_follow {here : Place} (hhere : here.IsProper) {names : List String}
    (hnames : ∀ name ∈ names, name.toList ≠ [] ∧ '/' ∉ name.toList) :
    (here.follow names).IsProper := by
  induction names generalizing here with
  | nil => exact hhere
  | cons name names ih =>
    obtain ⟨⟨hnonempty, hslash⟩, hrest⟩ := List.forall_mem_cons.mp hnames
    exact ih (isProper_turn hhere hnonempty hslash) hrest

/-- Names lead downwards. -/
lemma Place.follow_of_isProper {here more : Place} (h : more.IsProper) :
    here.follow more = here ++ more := by
  induction more generalizing here with
  | nil => exact (List.append_nil here).symm
  | cons name more ih =>
    obtain ⟨hname, hmore⟩ := List.forall_mem_cons.mp h
    rw [Place.follow, List.foldl_cons, turn_of_isName hname, ← Place.follow, ih hmore,
      List.append_assoc, List.singleton_append]

lemma isProper_destination {start : Place} (hstart : start.IsProper) (p : Path) :
    (p.destination start).IsProper := by
  unfold Path.destination Path.lead
  refine isProper_follow ?_ fun name hname => ?_
  · split_ifs
    · exact fun n hn => nomatch hn
    · exact hstart
  · obtain ⟨hmem, hempty⟩ := List.mem_filter.mp hname
    obtain ⟨part, hpart, rfl⟩ := List.mem_map.mp hmem
    rw [String.toList_ofList]
    exact ⟨by simpa using hempty, not_mem_of_mem_splitOn hpart⟩

namespace Tree

variable {t t' : Tree} {p : Path} {place : Place} {name : String}

lemma mem_names : name ∈ t.names place ↔ t.get? (place ++ [name]) ≠ none := by
  have hnonempty : place ++ [name] ≠ [] := by simp
  rw [get?, if_neg hnonempty, ← Option.isSome_iff_ne_none, List.lookup_isSome_iff, names,
    List.mem_eraseDups, List.mem_filterMap]
  constructor
  · rintro ⟨e, he, hname⟩
    split at hname
    · next n hbelow =>
      obtain rfl := Option.some.inj hname
      exact ⟨e, he, by simpa using List.isPrefixOf?_eq_some_iff_append_eq.mp hbelow⟩
    · cases hname
  · rintro ⟨e, he, heq⟩
    have hbelow : place.isPrefixOf? e.1 = some [name] :=
      List.isPrefixOf?_eq_some_iff_append_eq.mpr (by simpa using heq)
    exact ⟨e, he, by rw [hbelow]⟩

lemma nodup_eraseDups {α : Type} [BEq α] [LawfulBEq α] (l : List α) : l.eraseDups.Nodup := by
  induction hn : l.length using Nat.strong_induction_on generalizing l with
  | _ n ih =>
    cases l with
    | nil => simp
    | cons a l =>
      rw [List.eraseDups_cons, List.nodup_cons]
      refine ⟨by simp, ih _ ?_ _ rfl⟩
      have := List.length_filter_le (fun b => !b == a) l
      rw [List.length_cons] at hn
      omega

lemma nodup_names (t : Tree) (place : Place) : (t.names place).Nodup := nodup_eraseDups _

lemma list_of_look (h : t.look p = .ok .directory) :
    t.list p = .ok (t.names (p.destination t.start)) := by
  obtain ⟨⟨place, o⟩, hfind, hnode⟩ := except_bind_ok.mp h
  obtain ⟨rfl, -⟩ := find_destination hfind
  rcases o with _ | n
  · cases hnode
  · cases hnode
    rw [list, hfind]
    rfl

/-! ### The directory of a path -/

lemma walk_append {here : Place} {names more : List String} :
    t.walk here (names ++ more) = t.walk here names >>= fun there => t.walk there more := by
  induction names generalizing here with
  | nil => rfl
  | cons n names ih =>
    rw [List.cons_append, walk, walk]
    rcases t.get? here with _ | (⟨c, x⟩ | _ | _)
    · rfl
    · rfl
    · dsimp only
      split_ifs
      · exact ih
      · exact ih
      · rfl
      · exact ih
    · rfl

/-- A name is put behind a text and perhaps a slash. -/
lemma text_joinName {p : Path} (hp : p.text.toList ≠ []) (hname : IsName name) :
    ∃ tail, (p.joinName name).text = p.text ++ tail := by
  rw [Path.joinName, Path.join, Path.isAbsolute_name hname]
  split_ifs with hempty hslash
  · exact absurd (by simpa using hempty) hp
  · exact ⟨name, rfl⟩
  · exact ⟨"/" ++ name, by rw [← String.append_assoc]⟩

lemma text_joinName_ne_nil (p : Path) (hname : IsName name) :
    (p.joinName name).text.toList ≠ [] := by
  unfold Path.joinName Path.join
  split_ifs
  · exact hname.nonempty
  · rw [String.toList_append]
    exact List.append_ne_nil_of_right_ne_nil _ hname.nonempty
  · rw [String.toList_append]
    exact List.append_ne_nil_of_right_ne_nil _ hname.nonempty

lemma parts_joinName {p : Path} (hp : p.text.toList ≠ []) (hname : IsName name) :
    Path.parts (p.joinName name).text.toList = Path.parts p.text.toList ++ [name] := by
  have hparts : Path.parts name.toList = [name] := by
    rw [Path.parts_name hname.nonempty hname.slash, String.ofList_toList]
  rw [Path.joinName, Path.join, Path.isAbsolute_name hname]
  split_ifs with hempty hslash
  · exact absurd (by simpa using hempty) hp
  · obtain ⟨a, ha⟩ : ∃ a, p.text.toList = a ++ ['/'] := by
      rw [chars_eq, beq_iff_eq] at hslash
      exact ⟨_, (List.dropLast_append_getLast? _ hslash).symm⟩
    rw [String.toList_append, ha, List.append_assoc, List.singleton_append, Path.parts_append,
      Path.parts_append, Path.parts_nil, List.append_nil, hparts]
  · rw [String.toList_append, String.toList_append]
    change Path.parts (p.text.toList ++ ['/'] ++ name.toList) = _
    rw [List.append_assoc, List.singleton_append, Path.parts_append, hparts]

lemma placeOf_eq_ok : t.placeOf p = .ok place ↔
    p.text.toList ≠ [] ∧ '\x00' ∉ p.text.toList ∧ p.text.utf8ByteSize < pathLimit ∧
      t.walk (if p.isAbsolute then [] else t.start) (Path.parts p.text.toList) = .ok place := by
  have hwalk : t.walk (if p.isAbsolute then [] else t.start)
      ((splitString '/' p.text).filter (!·.isEmpty)) =
      t.walk (if p.isAbsolute then [] else t.start) (Path.parts p.text.toList) := by
    rw [splitString_eq]
    rfl
  unfold placeOf
  rw [hwalk, chars_eq]
  generalize t.walk (if p.isAbsolute then [] else t.start) (Path.parts p.text.toList) = r
  split_ifs with hempty hnul hlong
  · simp_all
  · simp_all
  · simp [hlong]
  · simp_all

/-- Where a path can be followed to a name, there is a directory before it. -/
lemma look_of_placeOf_joinName {p : Path} (hp : p.text.toList ≠ []) (hname : IsName name)
    (h : t.placeOf (p.joinName name) = .ok place) : t.look p = .ok .directory := by
  obtain ⟨tail, htext⟩ := text_joinName hp hname
  have hroot : (p.joinName name).isAbsolute = p.isAbsolute := by
    rw [Path.isAbsolute, Path.isAbsolute, chars_eq, chars_eq, htext, String.toList_append,
      List.head?_append_of_ne_nil _ hp]
  obtain ⟨-, hnul, hlong, hwalk⟩ := placeOf_eq_ok.mp h
  rw [parts_joinName hp hname, hroot, walk_append] at hwalk
  obtain ⟨there, hthere, hlast⟩ := except_bind_ok.mp hwalk
  rw [htext, String.toList_append, List.mem_append, not_or] at hnul
  rw [htext, String.utf8ByteSize_append] at hlong
  have hplace : t.placeOf p = .ok there := placeOf_eq_ok.mpr ⟨hp, hnul.1, by omega, hthere⟩
  -- the last step was made from a directory
  have hdir : t.get? there = some .directory := directory_of_walk hlast
  have hfind : t.find p = .ok (there, some .directory) := by
    refine except_bind_ok.mpr ⟨there, hplace, ?_⟩
    simp only [hdir]
    rfl
  exact except_bind_ok.mpr ⟨_, hfind, rfl⟩

/-! ### Files that can be read -/

variable {content : Bytes}

lemma read_eq_ok_iff : t.read p = .ok content ↔
    t.Knows p ∧ ∃ x, t.get? (p.destination t.start) = some (.file content x) := by
  constructor
  · intro h
    obtain ⟨n, hlook, hfile⟩ := except_bind_ok.mp h
    obtain ⟨⟨place, o⟩, hfind, hnode⟩ := except_bind_ok.mp hlook
    obtain ⟨rfl, hget⟩ := find_destination hfind
    rcases o with _ | (⟨c, x⟩ | _ | _)
    · cases hnode
    · cases hnode
      cases hfile
      exact ⟨knows_of_file hfind, x, hget⟩
    · cases hnode
      cases hfile
    · cases hnode
      cases hfile
  · rintro ⟨hknows, x, hget⟩
    rw [read, look_of_knows hknows hget]
    rfl

lemma isFile_iff : t.isFile p = true ↔ ∃ content, t.read p = .ok content := by
  unfold isFile read
  rcases t.look p with f | (⟨c, x⟩ | _ | _)
  · exact ⟨nofun, nofun⟩
  · exact ⟨fun _ => ⟨c, rfl⟩, fun _ => rfl⟩
  · exact ⟨nofun, nofun⟩
  · exact ⟨nofun, nofun⟩

/-- What can be read still can be, where the directories are kept and the file stays. -/
lemma read_mono (h : t.read p = .ok content) (hkeeps : KeepsDirectories t t')
    (hsame : t'.get? (p.destination t.start) = t.get? (p.destination t.start)) :
    t'.read p = .ok content := by
  obtain ⟨hknows, x, hget⟩ := read_eq_ok_iff.mp h
  refine read_eq_ok_iff.mpr ⟨hknows.mono hkeeps, x, ?_⟩
  rw [hkeeps.start, hsame, hget]

/-! ### Removing -/

/-- Some files are gone, and nothing else has changed. -/
structure Removes (gone : List Place) (t t' : Tree) : Prop where
  start : t'.start = t.start
  view : t'.get? = View.without gone t.get?
  files : ∀ place ∈ gone, t.get? place ≠ some .directory

namespace Removes

variable {gone gone' : List Place} {t'' : Tree}

lemma refl (t : Tree) : Removes [] t t := ⟨rfl, by simp, by simp⟩

lemma trans (h : Removes gone t t') (h' : Removes gone' t' t'') :
    Removes (gone ++ gone') t t'' := by
  refine ⟨h'.start.trans h.start, ?_, fun place hplace => ?_⟩
  · rw [h'.view, h.view, View.without_perm List.perm_append_comm, View.without_append]
  · by_cases hgone : place ∈ gone
    · exact h.files place hgone
    · have hfile := h'.files place ((List.mem_append.mp hplace).resolve_left hgone)
      rwa [h.view, View.without_of_not_mem hgone] at hfile

lemma of_removeFile (h : t.removeFile p = .ok t') : Removes [p.destination t.start] t t' := by
  obtain ⟨-, hdir, rfl⟩ := removeFile_eq_ok h
  refine ⟨rfl, ?_, fun place hplace => ?_⟩
  · rw [get?_erase_eq (ne_nil_of_ne_directory hdir), View.without_cons, View.without_nil]
  · rw [List.mem_singleton.mp hplace]
    exact hdir

lemma keeps (h : Removes gone t t') : KeepsDirectories t t' := by
  refine ⟨h.start, fun place hdir => ?_⟩
  rw [h.view, View.without_of_not_mem fun hgone => h.files place hgone hdir, hdir]

lemma get?_of_some (h : Removes gone t t') {n : Node} (hget : t'.get? place = some n) :
    place ∉ gone ∧ t.get? place = some n := by
  rw [h.view] at hget
  exact View.not_mem_of_without hget

/-- What is read afterwards is what could be read before and is not gone. -/
lemma read_iff (h : Removes gone t t') : t'.read p = .ok content ↔
    p.destination t.start ∉ gone ∧ t.read p = .ok content := by
  constructor
  · intro hread
    have hback : KeepsDirectories t' t :=
      ⟨h.start.symm, fun place hdir => (h.get?_of_some hdir).2⟩
    obtain ⟨-, x, hget⟩ := read_eq_ok_iff.mp hread
    rw [h.start] at hget
    obtain ⟨hnot, hold⟩ := h.get?_of_some hget
    exact ⟨hnot, read_mono hread hback (by rw [h.start, hget, hold])⟩
  · rintro ⟨hnot, hread⟩
    exact read_mono hread h.keeps (by rw [h.view, View.without_of_not_mem hnot])

end Removes

lemma removeDirectory_eq_ok (h : t.removeDirectory p = .ok t') :
    t.look p = .ok .directory ∧ t' = t.eraseAll (p.destination t.start) := by
  obtain ⟨⟨place, o⟩, hfind, hnode⟩ := except_bind_ok.mp h
  obtain ⟨rfl, -⟩ := find_destination hfind
  rcases o with _ | (⟨c, x⟩ | _ | _)
  · cases hnode
  · cases hnode
  · cases hnode
    rw [look, hfind]
    exact ⟨rfl, rfl⟩
  · cases hnode

lemma look_of_removeDirectory (h : t.removeDirectory p = .error .notFound) :
    t.look p = .error .notFound := by
  rcases except_bind_error.mp h with hfind | ⟨⟨place, o⟩, hfind, hnode⟩
  · rw [look, hfind]
    rfl
  · have hfault : ¬ Fault.notDirectory = Fault.notFound := by decide
    rcases o with _ | (⟨c, x⟩ | _ | _)
    · rw [look, hfind]
      rfl
    · exact absurd (Except.error.inj hnode) hfault
    · cases hnode
    · exact absurd (Except.error.inj hnode) hfault

end Tree

end Disk

end ContractBuild

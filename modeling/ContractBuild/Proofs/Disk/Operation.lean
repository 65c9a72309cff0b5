import Mathlib
import ContractBuild.Proofs.Disk.Destination

/-!
What the operations that change a tree do, and the directories that a change spares.
-/

namespace ContractBuild.Disk

namespace Tree

variable {t t' : Tree} {p q : Path}

lemma find_destination {place : Place} {n : Option Node} (h : t.find p = .ok (place, n)) :
    place = p.destination t.start ∧ t.get? place = n :=
  ⟨Path.destination_of_placeOf (find_eq_ok h).1, (find_eq_ok h).2⟩

/-- The path can be followed, and it does not ask for a directory. -/
structure Knows (t : Tree) (p : Path) : Prop where
  place : t.placeOf p = .ok (p.destination t.start)
  slash : p.endsInSlash = false

lemma placeOf_destination {place : Place} (h : t.placeOf p = .ok place) :
    t.placeOf p = .ok (p.destination t.start) := by
  rw [h, Path.destination_of_placeOf h]

lemma Knows.find (h : t.Knows p) :
    t.find p = .ok (p.destination t.start, t.get? (p.destination t.start)) := by
  have hslash : ¬ p.endsInSlash = true := by rw [h.slash]; decide
  refine except_bind_ok.mpr ⟨_, h.place, ?_⟩
  split
  · rw [if_neg hslash]
    rfl
  · rw [if_neg hslash]
    rfl
  · rfl

/-- Only a directory or a place where nothing stands is found behind a slash. -/
lemma knows_of_find {place : Place} {n : Node} (h : t.find p = .ok (place, some n))
    (hn : n ≠ .directory) : t.Knows p := by
  obtain ⟨hplace, hget⟩ := find_eq_ok h
  refine ⟨placeOf_destination hplace, ?_⟩
  by_contra hslash
  rw [Bool.not_eq_false] at hslash
  obtain ⟨place', hplace', h⟩ := except_bind_ok.mp h
  obtain rfl := Except.ok.inj (hplace.symm.trans hplace')
  cases n with
  | directory => exact hn rfl
  | file content x =>
    simp only [hget, if_pos hslash] at h
    cases h
  | special =>
    simp only [hget, if_pos hslash] at h
    cases h

lemma knows_of_file {place : Place} {content : Bytes} {x : Bool}
    (h : t.find p = .ok (place, some (.file content x))) : t.Knows p :=
  knows_of_find h nofun

/-! ### What has happened when an operation succeeds -/

lemma makeDirectory_eq_ok (h : t.makeDirectory p = .ok t') :
    t.get? (p.destination t.start) = none ∧ t' = t.put (p.destination t.start) .directory := by
  obtain ⟨place, hplace, h⟩ := except_bind_ok.mp h
  obtain rfl := Path.destination_of_placeOf hplace
  dsimp only at h
  split_ifs at h with hsome
  cases h
  exact ⟨by simpa using hsome, rfl⟩

lemma create_eq_ok (h : t.create p = .ok t') : t.Knows p ∧ t.get? (p.destination t.start) = none ∧
    t' = t.put (p.destination t.start) (.file [] false) := by
  obtain ⟨⟨place, n⟩, hfind, h⟩ := except_bind_ok.mp h
  obtain ⟨rfl, hget⟩ := find_destination hfind
  cases n with
  | some n => cases h
  | none =>
    dsimp only at h
    split_ifs at h with hslash
    cases h
    exact ⟨⟨(find_eq_ok hfind).1, by simpa using hslash⟩, hget, rfl⟩

lemma write_eq_ok {content : Bytes} (h : t.write p content = .ok t') :
    t.Knows p ∧ t.get? (p.destination t.start) ≠ some .directory ∧
      ∃ x, t' = t.put (p.destination t.start) (.file content x) := by
  obtain ⟨⟨place, n⟩, hfind, h⟩ := except_bind_ok.mp h
  obtain ⟨rfl, hget⟩ := find_destination hfind
  rw [hget]
  rcases n with _ | (⟨c, x⟩ | _ | _)
  · dsimp only at h
    split_ifs at h with hslash
    cases h
    exact ⟨⟨(find_eq_ok hfind).1, by simpa using hslash⟩, by simp, false, rfl⟩
  · cases h
    exact ⟨knows_of_file hfind, by simp, x, rfl⟩
  · cases h
  · cases h

/-- Only a file that is there is added to. -/
lemma append_eq_ok {more : Bytes} (h : t.append p more = .ok t') :
    (∃ content x, t.get? (p.destination t.start) = some (.file content x) ∧
      t' = t.put (p.destination t.start) (.file (content ++ more) x)) ∨
    (∀ content x, t.get? (p.destination t.start) ≠ some (.file content x)) ∧ t' = t := by
  obtain ⟨⟨place, n⟩, hfind, h⟩ := except_bind_ok.mp h
  obtain ⟨rfl, hget⟩ := find_destination hfind
  rw [hget]
  rcases n with _ | (⟨content, x⟩ | _ | _)
  · cases h
    exact .inr ⟨nofun, rfl⟩
  · cases h
    exact .inl ⟨content, x, rfl, rfl⟩
  · cases h
    exact .inr ⟨nofun, rfl⟩
  · cases h
    exact .inr ⟨nofun, rfl⟩

lemma look_destination {n : Node} (h : t.look p = .ok n) :
    t.get? (p.destination t.start) = some n := by
  obtain ⟨place, hplace, hget⟩ := look_eq_ok h
  rwa [Path.destination_of_placeOf hplace] at hget

lemma look_of_knows {n : Node} (hp : t.Knows p) (hget : t.get? (p.destination t.start) = some n) :
    t.look p = .ok n := by
  unfold look
  rw [hp.find, hget]
  rfl

/-- Nothing stands where a path can be followed to and nothing is found. -/
lemma get?_of_look_notFound (h : t.look p = .error .notFound) (hp : t.Knows p) :
    t.get? (p.destination t.start) = none := by
  unfold look at h
  rw [hp.find] at h
  cases hget : t.get? (p.destination t.start) with
  | none => rfl
  | some n => rw [hget] at h; cases h

lemma link_eq_ok (h : t.link p q = .ok t') :
    ∃ n, t.get? (p.destination t.start) = some n ∧ n ≠ .directory ∧
      t.placeOf q = .ok (q.destination t.start) ∧
      t.get? (q.destination t.start) ≠ some .directory ∧
      t' = t.put (q.destination t.start) n := by
  obtain ⟨n, hlook, h⟩ := except_bind_ok.mp h
  obtain ⟨⟨place, m⟩, hfind, h⟩ := except_bind_ok.mp h
  obtain ⟨rfl, hget⟩ := find_destination hfind
  have hn : n ≠ .directory := by rintro rfl; cases h
  refine ⟨n, look_destination hlook, hn, (find_eq_ok hfind).1, ?_⟩
  rw [hget]
  cases m with
  | some m => cases n <;> cases h
  | none =>
    refine ⟨nofun, ?_⟩
    cases n with
    | directory => exact absurd rfl hn
    | file content x => cases h; rfl
    | special => cases h; rfl

lemma copyPart_eq_ok {part : Bytes → Bytes} (h : t.copyPart part p q = .ok t') :
    ∃ content x, t.get? (p.destination t.start) = some (.file content x) ∧
      t.placeOf q = .ok (q.destination t.start) ∧
      t.get? (q.destination t.start) ≠ some .directory ∧
      t' = t.put (q.destination t.start) (.file (part content) x) := by
  obtain ⟨n, hlook, h⟩ := except_bind_ok.mp h
  obtain ⟨⟨place, m⟩, hfind, h⟩ := except_bind_ok.mp h
  obtain ⟨rfl, hget⟩ := find_destination hfind
  rcases n with ⟨content, x⟩ | _ | _
  · refine ⟨content, x, look_destination hlook, (find_eq_ok hfind).1, ?_⟩
    rw [hget]
    rcases m with _ | (⟨c, y⟩ | _ | _)
    · dsimp only at h
      split_ifs at h
      cases h
      exact ⟨nofun, rfl⟩
    · dsimp only at h
      split_ifs at h
      cases h
      exact ⟨by simp, rfl⟩
    · cases h
    · cases h
  · cases h
  · cases h

/-- What is moved and where it is moved are no directories. -/
lemma rename_eq {place place' : Place} {n : Node} {m : Option Node}
    (hp : t.find p = .ok (place, some n)) (hq : t.find q = .ok (place', m)) (hn : n ≠ .directory)
    (hm : m ≠ some .directory) : t.rename p q =
      if q.endsInSlash then .error .notDirectory else .ok ((t.erase place).put place' n) := by
  unfold rename
  rw [hp, hq]
  rcases n with ⟨content, x⟩ | _ | _
  · rcases m with _ | (⟨c, y⟩ | _ | _)
    · rfl
    · rfl
    · exact absurd rfl hm
    · rfl
  · exact absurd rfl hn
  · rcases m with _ | (⟨c, y⟩ | _ | _)
    · rfl
    · rfl
    · exact absurd rfl hm
    · rfl

lemma rename_eq_ok (h : t.rename p q = .ok t') :
    ∃ n, t.get? (p.destination t.start) = some n ∧ n ≠ .directory ∧ t.Knows q ∧
      t.get? (q.destination t.start) ≠ some .directory ∧
      t' = (t.erase (p.destination t.start)).put (q.destination t.start) n := by
  have hrename := h
  obtain ⟨⟨source, n⟩, hsource, h⟩ := except_bind_ok.mp h
  obtain ⟨⟨target, m⟩, htarget, h⟩ := except_bind_ok.mp h
  obtain ⟨rfl, hget⟩ := find_destination hsource
  obtain ⟨rfl, hget'⟩ := find_destination htarget
  rcases n with _ | n
  · cases h
  have hn : n ≠ .directory := by rintro rfl; cases h
  have hm : m ≠ some .directory := by rintro rfl; cases n <;> cases h
  rw [rename_eq hsource htarget hn hm] at hrename
  split_ifs at hrename with hslash
  cases hrename
  exact ⟨n, hget, hn, ⟨(find_eq_ok htarget).1, by simpa using hslash⟩, hget' ▸ hm, rfl⟩

lemma removeFile_eq_ok (h : t.removeFile p = .ok t') :
    t.get? (p.destination t.start) ≠ none ∧ t.get? (p.destination t.start) ≠ some .directory ∧
      t' = t.erase (p.destination t.start) := by
  obtain ⟨⟨place, n⟩, hfind, h⟩ := except_bind_ok.mp h
  obtain ⟨rfl, hget⟩ := find_destination hfind
  rw [hget]
  rcases n with _ | (⟨content, x⟩ | _ | _)
  · cases h
  · cases h
    exact ⟨nofun, by simp, rfl⟩
  · cases h
  · cases h
    exact ⟨nofun, by simp, rfl⟩

/-! ### When an operation succeeds -/

lemma removeFile_of_knows {content : Bytes} {x : Bool} (hp : t.Knows p)
    (hget : t.get? (p.destination t.start) = some (.file content x)) :
    t.removeFile p = .ok (t.erase (p.destination t.start)) := by
  unfold removeFile
  rw [hp.find, hget]
  rfl

lemma rename_of_knows {n : Node} (hp : t.Knows p) (hq : t.Knows q)
    (hget : t.get? (p.destination t.start) = some n) (hn : n ≠ .directory)
    (htarget : t.get? (q.destination t.start) ≠ some .directory) :
    t.rename p q = .ok ((t.erase (p.destination t.start)).put (q.destination t.start) n) := by
  rw [rename_eq (hget ▸ hp.find) hq.find hn htarget, if_neg (by rw [hq.slash]; decide)]

/-! ### Trees with more directories -/

/-- Whatever is a directory in one tree is one in the other. -/
structure KeepsDirectories (t t' : Tree) : Prop where
  start : t'.start = t.start
  directory : ∀ place, t.get? place = some .directory → t'.get? place = some .directory

lemma KeepsDirectories.walk (h : KeepsDirectories t t') {here place : Place} {names : List String}
    (hw : t.walk here names = .ok place) : t'.walk here names = .ok place := by
  induction names generalizing here with
  | nil => exact hw
  | cons name names ih =>
    have hdir := directory_of_walk hw
    rw [Tree.walk, hdir] at hw
    rw [Tree.walk, h.directory here hdir]
    dsimp only at hw ⊢
    split_ifs at hw ⊢
    · exact ih hw
    · exact ih hw
    · exact ih hw

/-- A path that can be followed still can be when there are more directories. -/
lemma Knows.mono (hp : t.Knows p) (h : KeepsDirectories t t') : t'.Knows p := by
  refine ⟨?_, hp.slash⟩
  have hplace := hp.place
  unfold placeOf at hplace ⊢
  rw [h.start]
  split_ifs at hplace ⊢
  · exact h.walk hplace
  · exact h.walk hplace

/-! ### Files in a directory -/

/-- Every file below a directory is as it was before; some may be gone. -/
def NoNewFiles (dir : Place) (t t' : Tree) : Prop :=
  ∀ name rest content x, t'.get? (dir ++ name :: rest) = some (.file content x) →
    t.get? (dir ++ name :: rest) = some (.file content x)

/-- The files below a directory stay, but for some that may go, and paths start where they did. -/
structure Spares (dir : Place) (t t' : Tree) : Prop where
  start : t'.start = t.start
  files : NoNewFiles dir t t'

variable {dir : Place}

lemma Spares.refl (dir : Place) (t : Tree) : Spares dir t t := ⟨rfl, fun _ _ _ _ h => h⟩

lemma Spares.trans {t'' : Tree} (h : Spares dir t t') (h' : Spares dir t' t'') :
    Spares dir t t'' :=
  ⟨h'.start.trans h.start, fun name rest content x hx =>
    h.files name rest content x (h'.files name rest content x hx)⟩

lemma spares_erase (dir place : Place) (t : Tree) : Spares dir t (t.erase place) := by
  refine ⟨rfl, fun name rest content x h => ?_⟩
  rw [get?_erase] at h
  split_ifs at h
  exact h

lemma spares_put_directory (dir place : Place) (t : Tree) :
    Spares dir t (t.put place .directory) := by
  refine ⟨rfl, fun name rest content x h => ?_⟩
  rw [get?_put] at h
  split_ifs at h
  · cases h
  · exact h

/-- Every file below a directory is one that `I` admits at its place. -/
def Sound (dir : Place) (I : Place → Bytes → Prop) (t : Tree) : Prop :=
  ∀ name rest content x, t.get? (dir ++ name :: rest) = some (.file content x) →
    I (name :: rest) content

variable {I : Place → Bytes → Prop}

lemma Sound.of_noNewFiles (h : Sound dir I t) (hs : NoNewFiles dir t t') : Sound dir I t' :=
  fun name rest content x hx => h name rest content x (hs name rest content x hx)

lemma Sound.spares (h : Sound dir I t) (hs : Spares dir t t') : Sound dir I t' :=
  h.of_noNewFiles hs.files

/-- A file of that content may be put at the place. -/
def Admits (dir : Place) (I : Place → Bytes → Prop) (place : Place) (content : Bytes) : Prop :=
  ∀ name rest, place = dir ++ name :: rest → I (name :: rest) content

lemma Sound.put_node {place : Place} {n : Node} (h : Sound dir I t)
    (hadmits : ∀ content x, n = .file content x → Admits dir I place content) :
    Sound dir I (t.put place n) := by
  intro name rest c y hget
  rw [get?_put] at hget
  split_ifs at hget with hplace
  · exact hadmits c y (Option.some.inj hget) name rest hplace.1.symm
  · exact h name rest c y hget

lemma Sound.put {place : Place} {content : Bytes} (h : Sound dir I t)
    (hadmits : Admits dir I place content) (x : Bool) :
    Sound dir I (t.put place (.file content x)) :=
  h.put_node fun c y heq => by cases heq; exact hadmits

end Tree

end ContractBuild.Disk

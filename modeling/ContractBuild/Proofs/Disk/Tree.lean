import Mathlib
import ContractBuild.Disk.Files
import ContractBuild.Proofs.Program

/-!
Trees as maps from places: what stands at a place after a change, and where a path that can be used
leads.
-/

namespace ContractBuild

namespace Disk.Tree

variable {t : Tree} {p q : Place}

/-! ### Places -/

lemma mem_of_lookup {α β : Type} [BEq α] [LawfulBEq α] {l : List (α × β)} {k : α} {b : β}
    (h : l.lookup k = some b) : (k, b) ∈ l := by
  obtain ⟨l₁, l₂, rfl, -⟩ := List.lookup_eq_some_iff.mp h
  simp

lemma mem_of_get? {content : Bytes} {x : Bool} (h : t.get? p = some (.file content x)) :
    (p, .file content x) ∈ t.nodes := by
  unfold get? at h
  split_ifs at h
  · cases h
  · exact mem_of_lookup h

lemma lookup_filter (keeps : Place → Bool) (l : List (Place × Node)) :
    (l.filter fun e => keeps e.1).lookup q = if keeps q then l.lookup q else none := by
  induction l with
  | nil => simp
  | cons e l ih =>
    obtain ⟨k, n⟩ := e
    rw [List.filter_cons, List.lookup_cons]
    by_cases hqk : q = k
    · subst hqk
      by_cases hq : keeps q = true
      · simp [hq]
      · simp [hq, ih]
    · rw [beq_eq_false_iff_ne.mpr hqk]
      split_ifs with hk hq hq
      · rw [List.lookup_cons, beq_eq_false_iff_ne.mpr hqk, ih, if_pos hq]
      · rw [List.lookup_cons, beq_eq_false_iff_ne.mpr hqk, ih, if_neg hq]
      · rw [ih, if_pos hq]
      · rw [ih, if_neg hq]

lemma get?_erase (t : Tree) (p q : Place) :
    (t.erase p).get? q = if q = p ∧ q ≠ [] then none else t.get? q := by
  unfold get? erase
  rw [lookup_filter fun place => place ≠ p]
  by_cases hq : q = []
  · simp [hq]
  · simp [hq]

lemma get?_put (t : Tree) (p q : Place) (n : Node) :
    (t.put p n).get? q = if q = p ∧ q ≠ [] then some n else t.get? q := by
  by_cases hq : q = []
  · simp [get?, hq]
  · have herase := get?_erase t p q
    simp only [get?, hq, if_false, ne_eq, not_false_eq_true, and_true] at herase ⊢
    rw [put, List.lookup_cons, herase]
    by_cases hqp : q = p
    · simp [hqp]
    · rw [beq_eq_false_iff_ne.mpr hqp, if_neg hqp, if_neg hqp]

/-- A directory takes everything below it along. -/
lemma get?_eraseAll (t : Tree) {dir : Place} (hdir : dir ≠ []) (q : Place) :
    (t.eraseAll dir).get? q = if dir <+: q then none else t.get? q := by
  unfold get? eraseAll
  rw [lookup_filter fun place => !dir.isPrefixOf place]
  by_cases hq : q = []
  · simp [hq, hdir]
  · by_cases hbelow : dir <+: q
    · simp [hq, hbelow]
    · simp [hq, hbelow]

@[simp] lemma start_put (t : Tree) (p : Place) (n : Node) : (t.put p n).start = t.start := rfl

@[simp] lemma start_erase (t : Tree) (p : Place) : (t.erase p).start = t.start := rfl

lemma get?_put_of_ne {n : Node} (h : q ≠ p) : (t.put p n).get? q = t.get? q := by
  rw [get?_put, if_neg fun hq => h hq.1]

lemma get?_erase_of_ne (h : q ≠ p) : (t.erase p).get? q = t.get? q := by
  rw [get?_erase, if_neg fun hq => h hq.1]

/-! ### Paths -/

/-- A path goes on from directories only. -/
lemma directory_of_walk {here place : Place} {name : String} {rest : List String}
    (h : t.walk here (name :: rest) = .ok place) : t.get? here = some .directory := by
  rw [walk] at h
  rcases hget : t.get? here with _ | (⟨content, x⟩ | _ | _)
  · rw [hget] at h
    cases h
  · rw [hget] at h
    cases h
  · rfl
  · rw [hget] at h
    cases h

/-- A path leads somewhere only if it is short enough. -/
lemma lt_of_placeOf {path : Path} (h : t.placeOf path = .ok p) :
    path.text.utf8ByteSize < pathLimit := by
  by_contra hlong
  unfold placeOf at h
  rw [if_pos (Nat.le_of_not_lt hlong)] at h
  split_ifs at h

lemma find_eq_ok {path : Path} {n : Option Node} (h : t.find path = .ok (p, n)) :
    t.placeOf path = .ok p ∧ t.get? p = n := by
  obtain ⟨place, hplace, h⟩ := except_bind_ok.mp h
  split at h
  · split_ifs at h
    cases h
    exact ⟨hplace, rfl⟩
  · split_ifs at h
    cases h
    exact ⟨hplace, rfl⟩
  · cases h
    exact ⟨hplace, rfl⟩

lemma look_eq_ok {path : Path} {n : Node} (h : t.look path = .ok n) :
    ∃ place, t.placeOf path = .ok place ∧ t.get? place = some n := by
  obtain ⟨⟨place, o⟩, hfind, h⟩ := except_bind_ok.mp h
  obtain ⟨hplace, hget⟩ := find_eq_ok hfind
  cases o with
  | none => cases h
  | some n' =>
    cases h
    exact ⟨place, hplace, hget⟩

lemma read_eq_ok {path : Path} {content : Bytes} (h : t.read path = .ok content) :
    ∃ place x, t.placeOf path = .ok place ∧ t.get? place = some (.file content x) := by
  obtain ⟨n, hlook, h⟩ := except_bind_ok.mp h
  obtain ⟨place, hplace, hget⟩ := look_eq_ok hlook
  cases n with
  | file c x =>
    cases h
    exact ⟨place, x, hplace, hget⟩
  | directory => cases h
  | special => cases h

lemma placeOf_of_isFile {path : Path} (h : t.isFile path = true) :
    ∃ place content x, t.placeOf path = .ok place ∧ t.get? place = some (.file content x) := by
  unfold isFile at h
  split at h
  · next content x hlook =>
    obtain ⟨place, hplace, hget⟩ := look_eq_ok hlook
    exact ⟨place, content, x, hplace, hget⟩
  · cases h

lemma length_le_utf8ByteSize (s : String) : s.toList.length ≤ s.utf8ByteSize := by
  rw [← String.utf8Len_toList]
  generalize s.toList = cs
  induction cs with
  | nil => simp
  | cons c cs ih =>
    rw [String.utf8Len_cons, List.length_cons]
    have := Char.utf8Size_pos c
    omega

/-- A path that leads to a file is not too long. -/
lemma length_lt_of_isFile {path : Path} (h : t.isFile path = true) :
    path.text.toList.length < pathLimit := by
  obtain ⟨place, -, -, hplace, -⟩ := placeOf_of_isFile h
  exact lt_of_le_of_lt (length_le_utf8ByteSize _) (lt_of_placeOf hplace)

end Disk.Tree

end ContractBuild

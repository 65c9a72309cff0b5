import Mathlib
import ContractBuild.Graph.Resolve
import ContractBuild.Proofs.Text.Delimited

/-!
Dotted names and the paths they stand for: a name is its components between dots, and each component
that begins with a character other than a slash makes the path longer.
-/

namespace ContractBuild

open ContractBuild.Text

namespace Graph

/-! ### Components -/

lemma not_mem_of_mem_splitString {c : Char} {s p : String} (h : p ∈ splitString c s) :
    c ∉ p.toList := by
  rw [splitString_eq] at h
  obtain ⟨l, hl, rfl⟩ := List.mem_map.mp h
  rw [String.toList_ofList]
  exact not_mem_of_mem_splitOn hl

lemma mem_of_mem_splitString {c d : Char} {s p : String} (h : p ∈ splitString c s)
    (hd : d ∈ p.toList) : d ∈ s.toList := by
  rw [splitString_eq] at h
  obtain ⟨l, hl, rfl⟩ := List.mem_map.mp h
  rw [String.toList_ofList] at hd
  exact mem_of_mem_splitOn hl hd

lemma splitString_ne_nil (c : Char) (s : String) : splitString c s ≠ [] := by
  rw [splitString_eq, Ne, List.map_eq_nil_iff]
  exact List.splitOn_ne_nil c s.toList

lemma dotted_splitString (s : String) : Candidate.dotted (splitString '.' s) = s := by
  apply String.toList_inj.mp
  rw [Candidate.dotted, String.toList_intercalate, splitString_eq, List.map_map]
  have hid : (String.toList ∘ String.ofList) = id := funext fun _ => String.toList_ofList
  rw [hid, List.map_id]
  exact List.intercalate_splitOn '.'

lemma splitString_dotted {parts : List String} (hne : parts ≠ [])
    (hdot : ∀ p ∈ parts, '.' ∉ p.toList) : splitString '.' (Candidate.dotted parts) = parts := by
  rw [splitString_eq, Candidate.dotted, String.toList_intercalate]
  have hsplit : (List.intercalate ['.'] (parts.map String.toList)).splitOn '.' =
      parts.map String.toList := by
    refine List.splitOn_intercalate '.' ?_ (by simpa using hne)
    intro l hl
    obtain ⟨p, hp, rfl⟩ := List.mem_map.mp hl
    exact hdot p hp
  change ((List.intercalate ['.'] (parts.map String.toList)).splitOn '.').map String.ofList = parts
  rw [hsplit, List.map_map]
  have hid : (String.ofList ∘ String.toList) = id := funext fun _ => String.ofList_toList
  rw [hid, List.map_id]

/-- A dot puts the components of two names together. -/
lemma splitString_append (a b : String) :
    splitString '.' (a ++ "." ++ b) = splitString '.' a ++ splitString '.' b := by
  have hjoin : a ++ "." ++ b = Candidate.dotted (splitString '.' a ++ splitString '.' b) := by
    rw [Candidate.dotted, String.intercalate_append_of_ne_nil (splitString_ne_nil _ _)
      (splitString_ne_nil _ _)]
    change _ = Candidate.dotted (splitString '.' a) ++ "." ++ Candidate.dotted (splitString '.' b)
    rw [dotted_splitString, dotted_splitString]
  rw [hjoin, splitString_dotted]
  · exact List.append_ne_nil_of_left_ne_nil (splitString_ne_nil _ _) _
  · intro p hp
    rcases List.mem_append.mp hp with hp | hp
    · exact not_mem_of_mem_splitString hp
    · exact not_mem_of_mem_splitString hp

end Graph

/-! ### Paths -/

namespace Path

/-- A part of a name that makes a path longer: it begins, and not with a slash. -/
def IsSolid (part : String) : Prop := ∃ c r, part.toList = c :: r ∧ c ≠ '/'

instance (part : String) : Decidable (IsSolid part) :=
  decidable_of_iff (part.toList.head?.any (· ≠ '/')) (by
    unfold IsSolid
    rcases part.toList with _ | ⟨c, r⟩
    · simp
    · simp)

/-- A solid part comes after what was there, and after a slash unless nothing was there. -/
lemma joinName_solid (p : Path) {part : String} (h : IsSolid part) :
    ∃ front : List Char, (p.joinName part).text.toList = front ++ part.toList ∧
      p.text.toList.length ≤ front.length ∧ (front = [] ∨ front.getLast? = some '/') := by
  obtain ⟨c, r, hpart, hc⟩ := h
  have habs : (Path.mk part).isAbsolute = false := by
    rw [isAbsolute, chars_eq, hpart]
    simpa using hc
  rw [joinName, join, habs]
  split_ifs with hempty hslash
  · refine ⟨[], by simp, ?_, .inl rfl⟩
    have : p.text = "" := by simpa using hempty
    simp [this]
  · refine ⟨p.text.toList, by simp, Nat.le_refl _, .inr (by simpa using hslash)⟩
  · exact ⟨p.text.toList ++ ['/'], by simp, by simp, .inr (by simp)⟩

lemma length_joinName (p : Path) {part : String} (h : IsSolid part) :
    p.text.toList.length + 1 ≤ (p.joinName part).text.toList.length := by
  obtain ⟨front, htext, hle, -⟩ := p.joinName_solid h
  obtain ⟨c, r, hpart, -⟩ := h
  rw [htext, List.length_append, hpart, List.length_cons]
  omega

lemma length_foldl_joinName (parts : List String) (h : ∀ w ∈ parts, IsSolid w) (p : Path) :
    p.text.toList.length + parts.length ≤ (parts.foldl joinName p).text.toList.length := by
  induction parts generalizing p with
  | nil => simp
  | cons w parts ih =>
    have h1 := p.length_joinName (h w List.mem_cons_self)
    have h2 := ih (fun v hv => h v (List.mem_cons_of_mem _ hv)) (p.joinName w)
    rw [List.foldl_cons, List.length_cons]
    omega

/-- Slashes at the end go, but something of a solid part stays. -/
lemma trimTail_append (v f : List Char) {c : Char} (hlast : v.getLast? = some c) (hc : c ≠ '/')
    (hdot : '.' ∉ v) :
    ∃ x v', trimTail (v ++ f) = x :: v' ++ f ∧ x ≠ '/' ∧ x ≠ '.' := by
  induction v with
  | nil => cases hlast
  | cons x v ih =>
    have hx : x ≠ '.' := fun h => hdot (by simp [h])
    by_cases hs : x = '/'
    · subst hs
      cases v with
      | nil => exact absurd (Option.some.inj hlast).symm hc
      | cons y v =>
        have hlast' : (y :: v).getLast? = some c := by simpa using hlast
        obtain ⟨z, v', hz⟩ := ih hlast' fun h => hdot (List.mem_cons_of_mem _ h)
        refine ⟨z, v', ?_, hz.2⟩
        rw [List.cons_append, List.cons_append, trimTail]
        exact hz.1
    · refine ⟨x, v, ?_, hs, hx⟩
      rw [List.cons_append, trimTail]
      · exact fun c r h => hs (List.cons.inj h).1
      · exact fun r h => hx (List.cons.inj h).1

lemma length_takeWhile_append_le {v f : List Char} (hf : f = [] ∨ f.head? = some '/') :
    ((v ++ f).takeWhile (· ≠ '/')).length ≤ v.length := by
  induction v with
  | nil =>
    rcases hf with rfl | hf
    · simp
    · cases f with
      | nil => simp
      | cons d f =>
        obtain rfl : d = '/' := by simpa using hf
        simp
  | cons x v ih =>
    rw [List.cons_append, List.takeWhile_cons]
    split_ifs
    · simpa using ih
    · simp

/-- Another extension leaves what comes before the last part. -/
lemma length_withExtension {p : Path} {front : List Char} {part : String} (ext : String)
    (htext : p.text.toList = front ++ part.toList) (h : IsSolid part) (hdot : '.' ∉ part.toList)
    (hfront : front = [] ∨ front.getLast? = some '/') :
    front.length ≤ (p.withExtension ext).text.toList.length := by
  obtain ⟨c, r, hpart, hc⟩ := h
  obtain ⟨x, v, htail, hx, hxdot⟩ := trimTail_append part.toList.reverse front.reverse
    (c := c) (by rw [hpart]; simp) hc (by simpa using hdot)
  have htail : p.tailFirst = x :: v ++ front.reverse := by
    rw [tailFirst, chars_eq, htext, List.reverse_append, htail]
  have hlen : (p.tailFirst.takeWhile (· ≠ '/')).length ≤ (x :: v).length := by
    rw [htail]
    refine length_takeWhile_append_le ?_
    rcases hfront with rfl | hf
    · exact .inl rfl
    · exact .inr (by simpa using hf)
  have hlast : p.last.getLast? = some x := by
    rw [last, htail, List.cons_append, List.takeWhile_cons, if_pos (by simpa using hx)]
    simp
  have hname : p.fileName = some (String.ofList p.last) := by
    rw [fileName]
    refine if_neg ?_
    rintro (h | h | h)
    · rw [h] at hlast; cases hlast
    · rw [h] at hlast; exact hxdot (Option.some.inj hlast).symm
    · rw [h] at hlast; exact hxdot (Option.some.inj hlast).symm
  have hdrop : front.length ≤ (p.tailFirst.drop p.last.length).length := by
    rw [List.length_drop, last, List.length_reverse]
    have htotal : p.tailFirst.length = (x :: v).length + front.length := by
      rw [htail, List.length_append, List.length_reverse]
    omega
  rw [withExtension, hname]
  simp only [String.toList_append, String.toList_ofList, List.length_append, List.length_reverse,
    String.length_ofList]
  omega

end Path

end ContractBuild

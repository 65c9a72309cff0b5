import Mathlib
import ContractBuild.Proofs.Host.Apart

/-!
Whole trees: whatever stands in one stands in a directory. A directory that is made in a whole tree
is empty.
-/

namespace ContractBuild

open ContractBuild.Disk

namespace Disk.Tree

variable {t t' : Tree} {place : Place}

/-- Whatever stands somewhere stands in a directory. -/
def IsWhole (t : Tree) : Prop :=
  ∀ place name, t.get? (place ++ [name]) ≠ none → t.get? place = some .directory

/-- It is enough to look at what the tree lists. -/
lemma isWhole_of_nodes (h : ∀ e ∈ t.nodes, t.get? e.1.dropLast = some .directory) : t.IsWhole := by
  intro place name hget
  rw [get?, if_neg (by simp)] at hget
  obtain ⟨n, hn⟩ := Option.ne_none_iff_exists'.mp hget
  have hparent := h _ (mem_of_lookup hn)
  rwa [List.dropLast_concat] at hparent

/-- A directory stands at the place above. -/
def IsHeld (t : Tree) (place : Place) : Prop :=
  ∀ above name, place = above ++ [name] → t.get? above = some .directory

lemma IsWhole.isHeld (h : t.IsWhole) (hget : t.get? place ≠ none) : t.IsHeld place := by
  rintro above name rfl
  exact h above name hget

lemma IsWhole.isHeld_of_walk (h : t.IsWhole) {here : Place} {names : List String}
    (hhere : t.IsHeld here) (hwalk : t.walk here names = .ok place) : t.IsHeld place := by
  induction names generalizing here with
  | nil =>
    cases hwalk
    exact hhere
  | cons name rest ih =>
    rw [walk] at hwalk
    split at hwalk
    · cases hwalk
    · cases hwalk
    · cases hwalk
    · next hdir =>
      split_ifs at hwalk with hdot hup
      · exact ih hhere hwalk
      · refine ih ?_ hwalk
        rcases List.eq_nil_or_concat' here with rfl | ⟨init, last, rfl⟩
        · exact hhere
        · rw [List.dropLast_concat]
          exact h.isHeld (by rw [hhere init last rfl]; simp)
      · refine ih ?_ hwalk
        intro above last heq
        rwa [← (List.append_inj' heq rfl).1]

/-- A path leads to a place in a directory. -/
lemma IsWhole.isHeld_of_placeOf (h : t.IsWhole) {p : Path} (hplace : t.placeOf p = .ok place) :
    t.IsHeld place := by
  obtain ⟨hne, -, -, hwalk⟩ := placeOf_eq_ok.mp hplace
  split_ifs at hwalk with habs
  · exact h.isHeld_of_walk (fun above name heq => by simp at heq) hwalk
  · have hparts : Path.parts p.text.toList ≠ [] :=
      Path.parts_ne_nil hne (by simpa [Path.isAbsolute] using habs)
    obtain ⟨name, rest, hnames⟩ := List.exists_cons_of_ne_nil hparts
    refine h.isHeld_of_walk (h.isHeld ?_) hwalk
    rw [hnames, walk] at hwalk
    intro hnone
    rw [hnone] at hwalk
    cases hwalk

/-- Nothing stands below a place where nothing stands. -/
lemma IsWhole.get?_below (h : t.IsWhole) (hnone : t.get? place = none) (rest : Place) :
    t.get? (place ++ rest) = none := by
  induction rest using List.reverseRecOn with
  | nil => rwa [List.append_nil]
  | append_singleton rest name ih =>
    by_contra hget
    rw [← List.append_assoc] at hget
    rw [h _ _ hget] at ih
    cases ih

lemma IsWhole.makeDirectory (h : t.IsWhole) {p : Path} (hok : t.makeDirectory p = .ok t') :
    t'.IsWhole := by
  obtain ⟨place, hplace, -⟩ := except_bind_ok.mp hok
  obtain rfl := Path.destination_of_placeOf hplace
  have hheld := h.isHeld_of_placeOf hplace
  have hkeeps := keepsDirectories_makeDirectory hok
  obtain ⟨-, rfl⟩ := makeDirectory_eq_ok hok
  intro above name hget
  refine hkeeps.directory above ?_
  rw [get?_put] at hget
  split_ifs at hget with heq
  · exact hheld above name heq.1.symm
  · exact h above name hget

/-- A new directory is empty. -/
lemma IsWhole.get?_makeDirectory (h : t.IsWhole) {p : Path} (hok : t.makeDirectory p = .ok t')
    {rest : Place} (hne : rest ≠ []) : t'.get? (p.destination t.start ++ rest) = none := by
  obtain ⟨hfree, rfl⟩ := makeDirectory_eq_ok hok
  rw [get?_put_of_ne (by simpa using hne)]
  exact h.get?_below hfree rest

end Disk.Tree

end ContractBuild

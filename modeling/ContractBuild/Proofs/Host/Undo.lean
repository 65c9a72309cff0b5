import Mathlib
import ContractBuild.Host.Publish
import ContractBuild.Proofs.Disk.Operation

/-!
Undoing on a host that refuses nothing any more: hidden files are removed, and what has been
published is given back, the latest first.
-/

namespace ContractBuild

namespace Disk

/-- What stands at each place. -/
abbrev View := Place → Option Node

namespace View

/-- Without what stands at some places. -/
def without (places : List Place) (v : View) : View := fun place =>
  if place ∈ places then none else v place

variable {places : List Place} {v : View} {place : Place}

@[simp] lemma without_nil : without [] v = v := by
  funext place
  simp [without]

lemma without_of_mem (h : place ∈ places) : without places v place = none := if_pos h

lemma without_of_not_mem (h : place ∉ places) : without places v place = v place := if_neg h

lemma without_cons : without (place :: places) v = Function.update (without places v) place none := by
  funext q
  by_cases hq : q = place
  · simp [without, hq]
  · simp [without, hq]

lemma without_append {places' : List Place} :
    without (places ++ places') v = without places (without places' v) := by
  funext q
  by_cases hq : q ∈ places
  · simp [without, hq]
  · simp [without, hq]

lemma without_perm {places' : List Place} (h : places.Perm places') :
    without places v = without places' v := by
  funext q
  simp [without, h.mem_iff]

lemma without_update {n : Option Node} (h : place ∉ places) :
    without places (Function.update v place n) = Function.update (without places v) place n := by
  funext q
  by_cases hq : q = place
  · subst hq
    simp [without, h]
  · simp [without, hq]

/-- What is put at a place that does not count does not count. -/
lemma without_update_of_mem {n : Option Node} (h : place ∈ places) :
    without places (Function.update v place n) = without places v := by
  funext q
  by_cases hq : q = place
  · subst hq
    simp [without, h]
  · simp [without, hq]

lemma not_mem_of_without {n : Node} (h : without places v place = some n) :
    place ∉ places ∧ v place = some n := by
  by_cases hmem : place ∈ places
  · rw [without_of_mem hmem] at h
    cases h
  · rw [without_of_not_mem hmem] at h
    exact ⟨hmem, h⟩

end View

namespace Tree

variable {t t' : Tree} {place : Place}

/-- The root is not a file. -/
lemma ne_nil_of_ne_directory (h : t.get? place ≠ some .directory) : place ≠ [] := by
  rintro rfl
  exact h (if_pos rfl)

lemma ne_nil_of_file {content : Bytes} {x : Bool} (h : t.get? place = some (.file content x)) :
    place ≠ [] :=
  ne_nil_of_ne_directory (by rw [h]; simp)

lemma get?_put_eq {n : Node} (h : place ≠ []) :
    (t.put place n).get? = Function.update t.get? place (some n) := by
  funext q
  rw [get?_put, Function.update_apply]
  by_cases hq : q = place
  · subst hq
    simp [h]
  · simp [hq]

lemma get?_erase_eq (h : place ≠ []) :
    (t.erase place).get? = Function.update t.get? place none := by
  funext q
  rw [get?_erase, Function.update_apply]
  by_cases hq : q = place
  · subst hq
    simp [h]
  · simp [hq]

lemma KeepsDirectories.refl (t : Tree) : KeepsDirectories t t := ⟨rfl, fun _ h => h⟩

lemma KeepsDirectories.trans {t'' : Tree} (h : KeepsDirectories t t') (h' : KeepsDirectories t' t'') :
    KeepsDirectories t t'' :=
  ⟨h'.start.trans h.start, fun place hd => h'.directory place (h.directory place hd)⟩

lemma keepsDirectories_put {n : Node} (h : t.get? place ≠ some .directory) :
    KeepsDirectories t (t.put place n) := by
  refine ⟨rfl, fun q hq => ?_⟩
  rw [get?_put_of_ne (by rintro rfl; exact h hq), hq]

lemma keepsDirectories_erase (h : t.get? place ≠ some .directory) :
    KeepsDirectories t (t.erase place) := by
  refine ⟨rfl, fun q hq => ?_⟩
  rw [get?_erase_of_ne (by rintro rfl; exact h hq), hq]

/-- Moving a file over another keeps the directories. -/
lemma keepsDirectories_move {place' : Place} {n : Node} (h : t.get? place ≠ some .directory)
    (h' : t.get? place' ≠ some .directory) : KeepsDirectories t ((t.erase place).put place' n) := by
  refine (keepsDirectories_erase h).trans (keepsDirectories_put ?_)
  rw [get?_erase]
  split_ifs
  · simp
  · exact h'

end Tree

end Disk

namespace Host

open ContractBuild.Disk

variable {start : Place}

/-! ### What publishing does to a view -/

namespace Published

/-- A target has new content, and its former file another name. -/
def replace (start : Place) (p : Published) (content : Bytes) (v : View) : View :=
  Function.update
    (match p.backup with
      | some b => Function.update v (b.destination start) (v (p.target.destination start))
      | none => v)
    (p.target.destination start) (some (.file content false))

lemma replace_none (start : Place) (target : Path) (content : Bytes) (v : View) :
    replace start ⟨target, none⟩ content v =
      Function.update v (target.destination start) (some (.file content false)) := rfl

lemma replace_some (start : Place) (target b : Path) (content : Bytes) (v : View) :
    replace start ⟨target, some b⟩ content v =
      Function.update (Function.update v (b.destination start) (v (target.destination start)))
        (target.destination start) (some (.file content false)) := rfl

lemma replace_target (start : Place) (p : Published) (content : Bytes) (v : View) :
    p.replace start content v (p.target.destination start) = some (.file content false) :=
  Function.update_self ..

/-- Where the former file of a target has to go: nowhere if there is none. -/
def CanReplace (start : Place) (p : Published) (v : View) : Prop :=
  match p.backup with
  | some b => (∃ content x, v (p.target.destination start) = some (.file content x)) ∧
      v (b.destination start) = none
  | none => v (p.target.destination start) = none

/-- Gives a target its former file back. -/
def undo (p : Published) (t : Tree) : Except Disk.Fault Tree :=
  match p.backup with
  | some b => t.rename b p.target
  | none => t.removeFile p.target

/-- The target and the former file can be found. -/
structure IsKnown (t : Tree) (p : Published) : Prop where
  target : t.Knows p.target
  backup : ∀ b ∈ p.backup, t.Knows b

lemma IsKnown.mono {t t' : Tree} {p : Published} (h : p.IsKnown t)
    (hkeeps : Tree.KeepsDirectories t t') : p.IsKnown t' :=
  ⟨h.target.mono hkeeps, fun b hb => (h.backup b hb).mono hkeeps⟩

/-- Undoing takes the latest replacement back and leaves aside what does not count. -/
lemma undo_replace {p : Published} {content : Bytes} {v : View} {t : Tree} {aside : List Place}
    (hv : p.CanReplace t.start v) (hview : View.without aside t.get? = p.replace t.start content v)
    (hknown : p.IsKnown t) (haside : p.target.destination t.start ∉ aside) :
    ∃ t', p.undo t = .ok t' ∧ Tree.KeepsDirectories t t' ∧ View.without aside t'.get? = v ∧
      ∀ place ∈ aside, t'.get? place = t.get? place := by
  have htarget : t.get? (p.target.destination t.start) = some (.file content false) := by
    rw [← View.without_of_not_mem (v := t.get?) haside, hview, replace_target]
  have hnonempty := Tree.ne_nil_of_file htarget
  obtain ⟨target, backup⟩ := p
  cases backup with
  | none =>
    refine ⟨_, Tree.removeFile_of_knows hknown.target htarget,
      Tree.keepsDirectories_erase (by rw [htarget]; simp), ?_, fun place hplace => ?_⟩
    · rw [Tree.get?_erase_eq hnonempty, View.without_update haside, hview, replace_none,
        Function.update_idem]
      exact Function.update_eq_self_iff.mpr (Eq.symm hv)
    · exact Tree.get?_erase_of_ne fun h => haside (h.symm ▸ hplace)
  | some b =>
    obtain ⟨⟨c, x, hformer⟩, hfree⟩ := hv
    dsimp only at hformer hfree haside
    have hne : b.destination t.start ≠ target.destination t.start := by
      intro h
      rw [h, hformer] at hfree
      cases hfree
    have hb : View.without aside t.get? (b.destination t.start) = some (.file c x) := by
      rw [hview, replace_some, Function.update_of_ne hne, Function.update_self]
      exact hformer
    obtain ⟨hb_aside, hb⟩ := View.not_mem_of_without hb
    refine ⟨_, Tree.rename_of_knows (hknown.backup b rfl) hknown.target hb nofun
        (by rw [htarget]; simp),
      Tree.keepsDirectories_move (by rw [hb]; simp) (by rw [htarget]; simp), ?_,
      fun place hplace => ?_⟩
    · rw [Tree.get?_put_eq hnonempty, Tree.get?_erase_eq (Tree.ne_nil_of_file hb),
        View.without_update haside, View.without_update hb_aside, hview,
        replace_some]
      funext place
      by_cases h1 : place = target.destination t.start
      · rw [h1, Function.update_self, hformer]
      by_cases h2 : place = b.destination t.start
      · rw [h2, Function.update_of_ne hne, Function.update_self, hfree]
      rw [Function.update_of_ne h1, Function.update_of_ne h2, Function.update_of_ne h1,
        Function.update_of_ne h2]
    · have hnot : place ≠ target.destination t.start := fun h => haside (h.symm ▸ hplace)
      have hnot_b : place ≠ b.destination t.start := fun h => hb_aside (h.symm ▸ hplace)
      rw [Tree.get?_put_of_ne hnot, Tree.get?_erase_of_ne hnot_b]

end Published

/-- What has been published one after the other, the latest first, and what the view was before. -/
inductive Trail (start : Place) (v₀ : View) : List Published → List (Path × Bytes) → View → Prop
  | nil : Trail start v₀ [] [] v₀
  | cons {p : Published} {ps : List Published} {content : Bytes} {files : List (Path × Bytes)}
      {v : View} (earlier : Trail start v₀ ps files v) (possible : p.CanReplace start v) :
      Trail start v₀ (p :: ps) ((p.target, content) :: files) (p.replace start content v)

/-- Where former files are kept. -/
def backups (ps : List Published) : List Path := ps.filterMap (·.backup)

/-- A view with files written over it, the latest first. -/
def overlay (start : Place) (v₀ : View) : List (Path × Bytes) → View
  | [] => v₀
  | (p, content) :: files =>
    Function.update (overlay start v₀ files) (p.destination start) (some (.file content false))

section Overlay

variable {v₀ v : View} {files : List (Path × Bytes)} {place : Place}

lemma overlay_of_no_target (h : ∀ f ∈ files, f.1.destination start ≠ place) :
    overlay start v₀ files place = v₀ place := by
  induction files with
  | nil => rfl
  | cons f files ih =>
    rw [overlay, Function.update_of_ne (h f List.mem_cons_self).symm]
    exact ih fun g hg => h g (List.mem_cons_of_mem _ hg)

lemma overlay_of_latest {later earlier : List (Path × Bytes)} {p : Path} {content : Bytes}
    (h : ∀ f ∈ later, f.1.destination start ≠ p.destination start) :
    overlay start v₀ (later ++ (p, content) :: earlier) (p.destination start) =
      some (.file content false) := by
  induction later with
  | nil => exact Function.update_self ..
  | cons f later ih =>
    rw [List.cons_append, overlay, Function.update_of_ne (h f List.mem_cons_self).symm]
    exact ih fun g hg => h g (List.mem_cons_of_mem _ hg)

variable {ps : List Published}

/-- What is no file has not been published over, and might as well not have been there. -/
lemma Trail.forget (h : Trail start v₀ ps files v) (hplace : v place = some .special) :
    v₀ place = some .special ∧
      Trail start (Function.update v₀ place none) ps files (Function.update v place none) := by
  induction h with
  | nil => exact ⟨hplace, .nil⟩
  | @cons p ps content files v _ possible ih =>
    obtain ⟨target, backup⟩ := p
    have htarget : place ≠ target.destination start := by
      rintro rfl
      rw [Published.replace_target] at hplace
      cases hplace
    cases backup with
    | none =>
      rw [Published.replace_none, Function.update_of_ne htarget] at hplace
      obtain ⟨hstart, htrail⟩ := ih hplace
      refine ⟨hstart, ?_⟩
      rw [Published.replace_none, Function.update_comm htarget.symm, ← Published.replace_none]
      refine htrail.cons ?_
      exact (Function.update_of_ne htarget.symm ..).trans possible
    | some b =>
      obtain ⟨⟨c, x, hformer⟩, hfree⟩ := possible
      rw [Published.replace_some, Function.update_of_ne htarget] at hplace
      have hbackup : place ≠ b.destination start := by
        rintro rfl
        rw [Function.update_self, hformer] at hplace
        cases hplace
      rw [Function.update_of_ne hbackup] at hplace
      obtain ⟨hstart, htrail⟩ := ih hplace
      have hsame : Function.update v place none (target.destination start) =
          v (target.destination start) := Function.update_of_ne htarget.symm ..
      refine ⟨hstart, ?_⟩
      rw [Published.replace_some, Function.update_comm htarget.symm,
        Function.update_comm hbackup.symm, ← hsame, ← Published.replace_some]
      refine htrail.cons ⟨⟨c, x, hsame.trans hformer⟩, ?_⟩
      exact (Function.update_of_ne hbackup.symm ..).trans hfree

/-- Former files are there, each at a place of its own. -/
lemma Trail.backups_apart (h : Trail start v₀ ps files v)
    (hapart : ∀ p ∈ ps, ∀ b ∈ backups ps, p.target.destination start ≠ b.destination start) :
    (∀ b ∈ backups ps, ∃ content x, v (b.destination start) = some (.file content x)) ∧
      ((backups ps).map (Path.destination start)).Nodup := by
  induction h with
  | nil => exact ⟨fun b hb => (List.not_mem_nil hb).elim, List.nodup_nil⟩
  | @cons p ps content files v _ possible ih =>
    obtain ⟨target, backup⟩ := p
    have hmem : ∀ b ∈ backups ps, b ∈ backups (⟨target, backup⟩ :: ps) := fun b hb => by
      cases backup with
      | none => exact hb
      | some c => exact List.mem_cons_of_mem _ hb
    obtain ⟨hfiles, hnodup⟩ := ih fun q hq b hb =>
      hapart q (List.mem_cons_of_mem _ hq) b (hmem b hb)
    have htarget := hapart ⟨target, backup⟩ List.mem_cons_self
    cases backup with
    | none =>
      refine ⟨fun b hb => ?_, hnodup⟩
      rw [Published.replace_none, Function.update_of_ne (htarget b hb).symm]
      exact hfiles b hb
    | some c =>
      obtain ⟨hformer, hfree⟩ := possible
      have hold : ∀ b ∈ backups ps, b.destination start ≠ c.destination start := by
        intro b hb heq
        obtain ⟨content, x, hfile⟩ := hfiles b hb
        rw [heq] at hfile
        exact absurd (hfree.symm.trans hfile) (by simp)
      refine ⟨fun b hb => ?_, List.nodup_cons.mpr ⟨fun hc => ?_, hnodup⟩⟩
      · rw [Published.replace_some, Function.update_of_ne (htarget b hb).symm]
        rcases List.mem_cons.mp hb with rfl | hb
        · rw [Function.update_self]
          exact hformer
        · rw [Function.update_of_ne (hold b hb)]
          exact hfiles b hb
      · obtain ⟨b, hb, heq⟩ := List.mem_map.mp hc
        exact hold b hb heq

/-- But for the former files, the new ones have been written over the first view. -/
lemma Trail.without_backups (h : Trail start v₀ ps files v)
    (hapart : ∀ p ∈ ps, ∀ b ∈ backups ps, p.target.destination start ≠ b.destination start) :
    View.without ((backups ps).map (Path.destination start)) v = overlay start v₀ files := by
  induction h with
  | nil => exact View.without_nil
  | @cons p ps content files v _ possible ih =>
    obtain ⟨target, backup⟩ := p
    have hnot : target.destination start ∉
        (backups (⟨target, backup⟩ :: ps)).map (Path.destination start) := by
      intro hmem
      obtain ⟨b, hb, heq⟩ := List.mem_map.mp hmem
      exact hapart _ List.mem_cons_self b hb heq.symm
    cases backup with
    | none =>
      have hview := ih fun q hq => hapart q (List.mem_cons_of_mem _ hq)
      rw [Published.replace_none, View.without_update hnot, overlay, ← hview]
      rfl
    | some c =>
      have hview := ih fun q hq b hb =>
        hapart q (List.mem_cons_of_mem _ hq) b (List.mem_cons_of_mem _ hb)
      have hfree : View.without ((backups ps).map (Path.destination start)) v
          (c.destination start) = none := by
        by_cases hmem : c.destination start ∈ (backups ps).map (Path.destination start)
        · exact View.without_of_mem hmem
        · rw [View.without_of_not_mem hmem]
          exact possible.2
      rw [Published.replace_some, View.without_update hnot, overlay, ← hview]
      congr 1
      change View.without (c.destination start :: (backups ps).map (Path.destination start)) _ = _
      rw [View.without_update_of_mem List.mem_cons_self, View.without_cons]
      exact Function.update_eq_self_iff.mpr hfree.symm

end Overlay

/-! ### Hosts that refuse nothing -/

/-- From now on, nobody else changes the files, and no step is refused. -/
structure Ready (h : Host) : Prop where
  others : ∀ n ≥ h.steps, ∀ t, h.change n t = t
  willing : ∀ n ≥ h.steps, h.refuse n = none

/-- The host can go on, and all directories are where they were. -/
structure GoesOn (h h' : Host) : Prop where
  ready : Ready h'
  keeps : Tree.KeepsDirectories h.tree h'.tree

lemma GoesOn.refl {h : Host} (hh : Ready h) : GoesOn h h := ⟨hh, Tree.KeepsDirectories.refl _⟩

lemma GoesOn.trans {h h' h'' : Host} (h₁ : GoesOn h h') (h₂ : GoesOn h' h'') : GoesOn h h'' :=
  ⟨h₂.ready, h₁.keeps.trans h₂.keeps⟩

lemma quietly_alter {h : Host} (op : Tree → Except Disk.Fault Tree) {t' : Tree} (hh : Ready h)
    (hop : op h.tree = .ok t') (hkeeps : Tree.KeepsDirectories h.tree t') :
    ∃ h', quietly (alter op) h = ((), h') ∧ h'.tree = t' ∧ GoesOn h h' := by
  have hrun : (alter op).run h = (.ok (), { h with tree := t', steps := h.steps + 1 }) := by
    unfold alter step
    dsimp only [ExceptT.run]
    rw [hh.willing _ le_rfl, hh.others _ le_rfl]
    dsimp only
    rw [hop]
    rfl
  refine ⟨{ h with tree := t', steps := h.steps + 1 }, ?_, rfl,
    ⟨fun n hn => hh.others n (Nat.le_of_succ_le hn),
      fun n hn => hh.willing n (Nat.le_of_succ_le hn)⟩, hkeeps⟩
  change ((), ((alter op).run h : Except Disk.Fault Unit × Host).2) = _
  rw [hrun]

def discard (p : Path) : OnHost Unit := quietly (removeFile p)

/-- Files at different places, each of which can be found. -/
structure AreFiles (t : Tree) (ps : List Path) : Prop where
  known : ∀ p ∈ ps, t.Knows p
  file : ∀ p ∈ ps, ∃ content x, t.get? (p.destination t.start) = some (.file content x)
  apart : (ps.map (Path.destination t.start)).Nodup

lemma AreFiles.of_cons {t : Tree} {p : Path} {ps : List Path} (h : AreFiles t (p :: ps)) :
    AreFiles t ps :=
  ⟨fun q hq => h.known q (List.mem_cons_of_mem _ hq),
    fun q hq => h.file q (List.mem_cons_of_mem _ hq), (List.nodup_cons.mp h.apart).2⟩

lemma AreFiles.perm {t : Tree} {ps qs : List Path} (h : AreFiles t ps) (hperm : ps.Perm qs) :
    AreFiles t qs :=
  ⟨fun q hq => h.known q (hperm.mem_iff.mpr hq), fun q hq => h.file q (hperm.mem_iff.mpr hq),
    (hperm.map _).nodup_iff.mp h.apart⟩

lemma AreFiles.of_append {t : Tree} {ps qs : List Path} (h : AreFiles t (ps ++ qs)) :
    AreFiles t qs := by
  induction ps with
  | nil => exact h
  | cons p ps ih => exact ih h.of_cons

/-- Files stay files where nothing changes. -/
lemma AreFiles.mono {t t' : Tree} {ps : List Path} (h : AreFiles t ps)
    (hkeeps : Tree.KeepsDirectories t t')
    (hsame : ∀ place ∈ ps.map (Path.destination t.start), t'.get? place = t.get? place) :
    AreFiles t' ps := by
  refine ⟨fun p hp => (h.known p hp).mono hkeeps, fun p hp => ?_, ?_⟩
  · rw [hkeeps.start, hsame _ (List.mem_map_of_mem hp)]
    exact h.file p hp
  · rw [hkeeps.start]
    exact h.apart

lemma run_discard {ps : List Path} {h : Host} (hh : Ready h) (hps : AreFiles h.tree ps) :
    ∃ h', ps.forM discard h = ((), h') ∧ GoesOn h h' ∧
      h'.tree.get? = View.without (ps.map (Path.destination h.tree.start)) h.tree.get? := by
  induction ps generalizing h with
  | nil => exact ⟨h, rfl, GoesOn.refl hh, by simp⟩
  | cons p ps ih =>
    obtain ⟨content, x, hfile⟩ := hps.file p List.mem_cons_self
    obtain ⟨h₁, hrun, htree, hgo⟩ := quietly_alter (·.removeFile p) hh
      (Tree.removeFile_of_knows (hps.known p List.mem_cons_self) hfile)
      (Tree.keepsDirectories_erase (by rw [hfile]; simp))
    have hnot := (List.nodup_cons.mp hps.apart).1
    have hps₁ : AreFiles h₁.tree ps := by
      refine hps.of_cons.mono hgo.keeps fun place hplace => ?_
      rw [htree, Tree.get?_erase_of_ne]
      rintro rfl
      exact hnot hplace
    obtain ⟨h₂, hrun₂, hgo₂, hview⟩ := ih hgo.ready hps₁
    refine ⟨h₂, ?_, hgo.trans hgo₂, ?_⟩
    · exact (state_bind hrun).trans hrun₂
    · rw [hview, hgo.keeps.start, htree, Tree.get?_erase_eq (Tree.ne_nil_of_file hfile),
        View.without_update hnot, List.map_cons, View.without_cons]

lemma restore_eq (p : Published) : restore p = quietly (alter p.undo) := by
  obtain ⟨target, _ | b⟩ := p <;> rfl

/-- Rolling back leads to the view from which publishing started, whatever is left aside. -/
lemma run_rollBack {v₀ : View} {ps : List Published} {files : List (Path × Bytes)} {v : View}
    {aside : List Place} {h : Host} (hh : Ready h) (htrail : Trail h.tree.start v₀ ps files v)
    (hview : View.without aside h.tree.get? = v) (hknown : ∀ p ∈ ps, p.IsKnown h.tree)
    (haside : ∀ p ∈ ps, p.target.destination h.tree.start ∉ aside) :
    ∃ h', ps.forM restore h = ((), h') ∧ GoesOn h h' ∧ View.without aside h'.tree.get? = v₀ ∧
      ∀ place ∈ aside, h'.tree.get? place = h.tree.get? place := by
  generalize hstart : h.tree.start = start at htrail
  induction htrail generalizing h with
  | nil => exact ⟨h, rfl, GoesOn.refl hh, hview, fun _ _ => rfl⟩
  | @cons p ps content files v _ possible ih =>
    subst hstart
    obtain ⟨t, hundo, hkeeps, hview₁, hsame₁⟩ := Published.undo_replace possible hview
      (hknown p List.mem_cons_self) (haside p List.mem_cons_self)
    obtain ⟨h₁, hrun, htree, hgo⟩ := quietly_alter _ hh hundo hkeeps
    subst htree
    obtain ⟨h₂, hrun₂, hgo₂, hview₂, hsame₂⟩ := ih hgo.ready hview₁
      (fun q hq => (hknown q (List.mem_cons_of_mem _ hq)).mono hgo.keeps)
      (fun q hq => by rw [hgo.keeps.start]; exact haside q (List.mem_cons_of_mem _ hq))
      hgo.keeps.start
    refine ⟨h₂, ?_, hgo.trans hgo₂, hview₂, fun place hplace => ?_⟩
    · rw [← restore_eq] at hrun
      exact (state_bind hrun).trans hrun₂
    · rw [hsame₂ place hplace, hsame₁ place hplace]

end Host

end ContractBuild

import Mathlib
import ContractBuild.Proofs.Host.Writer

/-!
Publishing a file on a host that nobody else uses. It gives its target the content and leaves every
other visible file as it was; if it fails, because steps are refused or cannot be done, no visible
file is different.
-/

namespace ContractBuild

namespace Host

open ContractBuild.Disk

variable {T : Tree → Prop} {t t' : Tree}

/-- What is done to publish a file changes no visible file before it is moved over its target. -/
lemma stages_visible (t : Tree) (target : Path) : Stages (Unshared (KeepsVisible [] t))
    (fun p => ¬ IsVisible (p.destination t.start)) target where
  quiet := quiet_unshared
  sibling := (ensures_siblingOf_hidden (fun _ hh => ⟨hh.others, hh.tree⟩) t.start target).mono
    (Ends.imp (fun _ hh => hh) fun _ _ ⟨⟨_, hn⟩, hh⟩ => ⟨hn.not_isVisible, hh⟩)
  make _ := keeps_alter_unshared fun _ _ ht hok => ht.makeDirectory hok
  create _ hp := keeps_alter_unshared fun _ _ ht hok => ht.create (by rwa [ht.start]) hok
  append _ _ hp := keeps_writing_unshared fun _ _ _ ht hok => ht.append (by rwa [ht.start]) hok
  remove _ hp := keeps_alter_unshared fun _ _ ht hok => ht.removeFile (by rwa [ht.start]) hok

/-- If publishing fails, no visible file is different; if not, only the target may be. -/
lemma ensures_publish_visible (t : Tree) (target : Path) (content : Bytes) :
    Ensures (Unshared (KeepsVisible [] t)) (publish target content).run
      (Ends (Unshared (KeepsVisible [] t)) fun _ =>
        Unshared (KeepsVisible [target.destination t.start] t)) :=
  (stages_visible t target).publish (fun _ hp => ensures_alter_unshared fun _ _ ht hok =>
    ht.rename (by rwa [ht.start]) hok) content

/-- The target has that content, and no other visible file is different. -/
structure Replaces (target : Path) (content : Bytes) (t t' : Tree) : Prop extends
    KeepsVisible [target.destination t.start] t t' where
  reads : t'.read target = .ok content

namespace Replaces

variable {target : Path} {content : Bytes}

lemma read (h : Replaces target content t t') {p : Path} (hvisible : IsVisible (p.destination t.start))
    (hne : p.destination t.start ≠ target.destination t.start) {c : Bytes}
    (hread : t.read p = .ok c) : t'.read p = .ok c :=
  h.toKeepsVisible.read hvisible (mt List.mem_singleton.mp hne) hread

lemma was_there (h : Replaces target content t t') {place : Place} (hvisible : IsVisible place)
    (hne : place ≠ target.destination t.start) {c : Bytes} {x : Bool}
    (hget : t'.get? place = some (.file c x)) : t.get? place = some (.file c x) :=
  h.toKeepsVisible.was_there hvisible (mt List.mem_singleton.mp hne) hget

end Replaces

/-- What stands next to the target when all has been written. -/
lemma ensures_stage_pending (target : Path) (content : Bytes) :
    Ensures (Unshared fun _ => True) (stage target content).run (Ends (fun _ => True) fun w h =>
      (w.target = target ∧ w.isOpen = false) ∧
        ∃ t, Unshared (IsPending t w.temp target content) h) := by
  have halone : Lasting fun h => ∀ n t, h.change n t = t :=
    lasting_surroundings fun change _ => ∀ n t, change n t = t
  rw [stage_eq]
  refine Ensures.bind_ok ((keeps_iff_ends.mp (halone.withstands target).makeParent).mono
    (Ends.imp (fun _ _ => trivial) fun _ _ hh => hh)) (fun _ h hothers => ?_) |>.weaken
      fun h hh => hh.others
  refine Ensures.bind_ok (ensures_create_pending h.tree target) (fun w => ?_) h ⟨hothers, rfl⟩
  rintro s ⟨⟨htarget, hopen⟩, hs⟩
  refine ensures_result ((holder_pending h.tree w.temp target).ensures_fill hopen content)
    (fun r => ?_) s hs
  cases r with
  | ok w' =>
    refine Ensures.pure_ok ?_
    rintro s ⟨rfl, hs⟩
    exact ⟨⟨htarget, rfl⟩, h.tree, hs⟩
  | error f => exact fun _ _ => trivial

/-- What is published can be read at once. -/
lemma ensures_publish_reads (target : Path) (content : Bytes) :
    Ensures (Unshared fun _ => True) (publish target content).run
      (Ends (fun _ => True) fun _ h => h.tree.read target = .ok content) := by
  refine Ensures.bind_ok (ensures_stage_pending target content) fun w => ?_
  rintro h ⟨⟨htarget, -⟩, t, hh⟩
  refine (ensures_commit_pending htarget).mono (Ends.imp (fun _ _ => trivial) ?_) h hh
  exact fun _ _ hs => hs.2.tree.reads

/-- **Publishing a file is all or nothing.** Where nobody else changes the files and any step may be
refused, a failure leaves all visible files as they were. -/
lemma ensures_publish_unshared (target : Path) (content : Bytes) :
    Ensures (Unshared T) (publish target content).run
      (Ends (Unshared fun t' => ∃ t, T t ∧ KeepsVisible [] t t') fun _ =>
        Unshared fun t' => ∃ t, T t ∧ Replaces target content t t') := by
  intro h hT
  have hh : Unshared (· = h.tree) h := { hT with tree := rfl }
  have hreads := ensures_publish_reads target content h (hh.mono fun _ _ => trivial)
  have hvisible := ensures_publish_visible h.tree target content h
    (hh.mono fun t' ht' => ht' ▸ KeepsVisible.refl [] _)
  revert hreads hvisible
  generalize (publish target content).run h = p
  obtain ⟨r, h'⟩ := p
  intro hreads hvisible
  cases r with
  | error f => exact hvisible.mono fun t' ht' => ⟨h.tree, hT.tree, ht'⟩
  | ok _ => exact ⟨hvisible.others, h.tree, hT.tree, hvisible.tree, hreads⟩

lemma run_step_of_refuse {α : Type} (op : Tree → Except Disk.Fault (α × Tree)) {h : Host}
    {f : Disk.Fault} (hf : h.refuse h.steps = some f) : (step op).run h =
      (.error f, { h with tree := h.change h.steps h.tree, steps := h.steps + 1 }) := by
  unfold step
  dsimp only [ExceptT.run]
  rw [hf]

/-- Where every step is refused, nothing is published. -/
lemma ensures_publish_refused (target : Path) (content : Bytes) :
    Ensures (fun h => ∀ n, h.refuse n ≠ none) (publish target content).run
      (Ends (fun _ => True) fun _ _ => False) := by
  have hlasting : Lasting fun h => ∀ n, h.refuse n ≠ none :=
    lasting_surroundings fun _ refuse => ∀ n, refuse n ≠ none
  have hcreate : Ensures (fun h => ∀ n, h.refuse n ≠ none) (Writer.create target).run
      (Ends (fun _ => True) fun _ _ => False) := by
    refine Ensures.bind_ok ((keeps_iff_ends.mp (hlasting.sibling target "tmp")).mono
      (Ends.imp (fun _ _ => trivial) fun _ _ hh => hh)) fun temp h hh => ?_
    obtain ⟨fault, hfault⟩ := Option.ne_none_iff_exists'.mp (hh h.steps)
    refine Ensures.bind_ok (P := (· = h)) (Q := fun _ _ => False) ?_ (fun _ _ => False.elim) h rfl
    rintro s rfl
    rw [alter, run_step_of_refuse _ hfault]
    trivial
  refine Ensures.bind_ok (Q := fun _ _ => False) ?_ fun _ _ => False.elim
  rw [stage_eq]
  refine Ensures.bind_ok ((keeps_iff_ends.mp (hlasting.withstands target).makeParent).mono
    (Ends.imp (fun _ _ => trivial) fun _ _ hh => hh)) fun _ => ?_
  exact Ensures.bind_ok hcreate fun _ _ => False.elim

end Host

end ContractBuild

import Mathlib
import ContractBuild.Proofs.Disk.Listing
import ContractBuild.Proofs.Host.Forward
import ContractBuild.Proofs.Host.Group

/-!
Publishing a file leaves the files alone that are apart from it: those that are neither its target
nor where hidden files are made for it. What no operation on files changes is left alone altogether.
-/

namespace ContractBuild

namespace Disk.Tree

variable {t t' : Tree} {ps : List Path} {place : Place}

/-- The content of the file at a place, and whether it is executable. -/
def file? (t : Tree) (place : Place) : Option (Bytes × Bool) :=
  match t.get? place with
  | some (.file content x) => some (content, x)
  | _ => none

lemma file?_eq_some {content : Bytes} {x : Bool} :
    t.file? place = some (content, x) ↔ t.get? place = some (.file content x) := by
  unfold file?
  rcases t.get? place with _ | (⟨c, y⟩ | _ | _)
  · simp
  · simp
  · simp
  · simp

lemma file?_congr (h : t'.get? place = t.get? place) : t'.file? place = t.file? place := by
  rw [file?, file?, h]

/-- The files at some paths are as they were, and can be reached if they could be. -/
structure KeepsFiles (ps : List Path) (t t' : Tree) : Prop where
  start : t'.start = t.start
  file : ∀ p ∈ ps, t'.file? (p.destination t.start) = t.file? (p.destination t.start)
  known : ∀ p ∈ ps, t.Knows p → t'.Knows p

lemma KeepsFiles.refl (ps : List Path) (t : Tree) : KeepsFiles ps t t :=
  ⟨rfl, fun _ _ => rfl, fun _ _ h => h⟩

lemma KeepsFiles.trans {t'' : Tree} (h : KeepsFiles ps t t') (h' : KeepsFiles ps t' t'') :
    KeepsFiles ps t t'' := by
  refine ⟨h'.start.trans h.start, fun p hp => ?_,
    fun p hp hknows => h'.known p hp (h.known p hp hknows)⟩
  have hfile := h'.file p hp
  rw [h.start] at hfile
  rw [hfile, h.file p hp]

/-- What can be read at one of the paths still can be. -/
lemma KeepsFiles.read (h : KeepsFiles ps t t') {p : Path} (hp : p ∈ ps) {content : Bytes}
    (hread : t.read p = .ok content) : t'.read p = .ok content := by
  obtain ⟨hknows, x, hget⟩ := read_eq_ok_iff.mp hread
  have hfile := h.file p hp
  rw [file?_eq_some.mpr hget, ← h.start, file?_eq_some] at hfile
  exact read_eq_ok_iff.mpr ⟨h.known p hp hknows, x, hfile⟩

lemma keepsFiles_of_ne (hkeeps : KeepsDirectories t t')
    (hsame : ∀ p ∈ ps, t'.get? (p.destination t.start) = t.get? (p.destination t.start)) :
    KeepsFiles ps t t' :=
  ⟨hkeeps.start, fun p hp => file?_congr (hsame p hp), fun _ _ hknows => hknows.mono hkeeps⟩

/-- Making a directory changes no file. -/
lemma file?_makeDirectory {p : Path} (h : t.makeDirectory p = .ok t') (place : Place) :
    t'.file? place = t.file? place := by
  obtain ⟨hfree, rfl⟩ := makeDirectory_eq_ok h
  rw [file?, file?, get?_put]
  split_ifs with hplace
  · rw [hplace.1, hfree]
  · rfl

lemma keepsDirectories_makeDirectory {p : Path} (h : t.makeDirectory p = .ok t') :
    KeepsDirectories t t' := by
  obtain ⟨hfree, rfl⟩ := makeDirectory_eq_ok h
  exact keepsDirectories_put (by rw [hfree]; simp)

lemma keepsFiles_makeDirectory {p : Path} (h : t.makeDirectory p = .ok t') : KeepsFiles ps t t' :=
  ⟨(keepsDirectories_makeDirectory h).start, fun _ _ => file?_makeDirectory h _,
    fun _ _ hknows => hknows.mono (keepsDirectories_makeDirectory h)⟩

/-- A path leads to none of the files. -/
def IsApart (ps : List Path) (start : Place) (p : Path) : Prop :=
  ∀ q ∈ ps, q.destination start ≠ p.destination start

variable {p q : Path}

lemma keepsFiles_put {n : Node} (hp : IsApart ps t.start p)
    (hdir : t.get? (p.destination t.start) ≠ some .directory) :
    KeepsFiles ps t (t.put (p.destination t.start) n) :=
  keepsFiles_of_ne (keepsDirectories_put hdir) fun q hq => get?_put_of_ne (hp q hq)

lemma keepsFiles_create (hp : IsApart ps t.start p) (h : t.create p = .ok t') :
    KeepsFiles ps t t' := by
  obtain ⟨-, hfree, rfl⟩ := create_eq_ok h
  exact keepsFiles_put hp (by rw [hfree]; simp)

lemma keepsFiles_append {more : Bytes} (hp : IsApart ps t.start p) (h : t.append p more = .ok t') :
    KeepsFiles ps t t' := by
  rcases append_eq_ok h with ⟨content, x, hget, rfl⟩ | ⟨-, rfl⟩
  · exact keepsFiles_put hp (by rw [hget]; simp)
  · exact KeepsFiles.refl ps t'

lemma keepsFiles_removeFile (hp : IsApart ps t.start p) (h : t.removeFile p = .ok t') :
    KeepsFiles ps t t' := by
  obtain ⟨-, hdir, rfl⟩ := removeFile_eq_ok h
  exact keepsFiles_of_ne (keepsDirectories_erase hdir) fun q hq => get?_erase_of_ne (hp q hq)

lemma keepsFiles_rename (hp : IsApart ps t.start p) (hq : IsApart ps t.start q)
    (h : t.rename p q = .ok t') : KeepsFiles ps t t' := by
  obtain ⟨n, hget, hn, -, hdir, rfl⟩ := rename_eq_ok h
  refine keepsFiles_of_ne (keepsDirectories_move (by simpa [hget] using hn) hdir) fun r hr => ?_
  rw [get?_put_of_ne (hq r hr), get?_erase_of_ne (hp r hr)]

end Disk.Tree

namespace Host

open ContractBuild.Disk

variable {ps : List Path} {t₀ : Tree}

/-- Others keep the files at some paths, which are as in a tree. -/
structure Keeping (ps : List Path) (t₀ : Tree) (h : Host) : Prop where
  others : ∀ n t, Tree.KeepsFiles ps t (h.change n t)
  tree : Tree.KeepsFiles ps t₀ h.tree

lemma keeps_alter_keeping {op : Tree → Except Disk.Fault Tree}
    (hop : ∀ t t', t.start = t₀.start → op t = .ok t' → Tree.KeepsFiles ps t t') :
    Keeps (Keeping ps t₀) (alter op).run := by
  refine keeps_iff_ends.mpr (ensures_step_of (fun h f hh _ => ?_) fun h a t hh hok => ?_)
  · exact ⟨hh.others, hh.tree.trans (hh.others _ _)⟩
  · have htree := hh.tree.trans (hh.others h.steps h.tree)
    exact ⟨hh.others, htree.trans (hop _ _ htree.start (alter_ok hok))⟩

lemma keeps_writing_keeping {op : (Bytes → Bytes) → Tree → Except Disk.Fault Tree}
    (hop : ∀ part t t', t.start = t₀.start → op part t = .ok t' → Tree.KeepsFiles ps t t') :
    Keeps (Keeping ps t₀) (writing op).run := by
  have hkeep : ∀ (h : Host) part t, Keeping ps t₀ h →
      op part (h.change h.steps h.tree) = .ok t →
        Keeping ps t₀ { h with tree := t, steps := h.steps + 1 } := by
    intro h part t hh hok
    have htree := hh.tree.trans (hh.others h.steps h.tree)
    exact ⟨hh.others, htree.trans (hop part _ _ htree.start hok)⟩
  refine keeps_iff_ends.mpr (ensures_writing_of (fun h f hh _ => ?_)
    (fun h f n t hh _ _ hok => hkeep h _ t hh hok) fun h t hh hok => hkeep h _ t hh hok)
  exact ⟨hh.others, hh.tree.trans (hh.others _ _)⟩

lemma quiet_keeping : Quiet (Keeping ps t₀) := by
  intro α look
  refine keeps_iff_ends.mpr (ensures_step_of (fun h f hh _ => ?_) fun h a t hh hok => ?_)
  · exact ⟨hh.others, hh.tree.trans (hh.others _ _)⟩
  · obtain ⟨-, rfl⟩ := inspect_ok hok
    exact ⟨hh.others, hh.tree.trans (hh.others _ _)⟩

/-- A file is published at a path without touching the files. -/
structure IsClear (ps : List Path) (start : Place) (target : Path) : Prop where
  own : Tree.IsApart ps start target
  hidden : ∀ n place, IsHiddenFor (target.destination start) n place →
    ∀ p ∈ ps, p.destination start ≠ place

variable {target : Path}

/-- Kept while content for the target is written next to it, if hidden files are made where `S`
says. -/
structure Stages (P : Host → Prop) (S : Path → Prop) (target : Path) : Prop where
  quiet : Quiet P
  sibling : Ensures P (siblingOf target "tmp").run (Ends P fun p h => S p ∧ P h)
  make : ∀ p, Keeps P (alter (·.makeDirectory p)).run
  create : ∀ p, S p → Keeps P (alter (·.create p)).run
  append : ∀ p more, S p → Keeps P (append p more).run
  remove : ∀ p, S p → Keeps P (removeFile p).run

namespace Stages

variable {P Q : Host → Prop} {S : Path → Prop} {w : Writer}

lemma makeParent (hP : Stages P S target) : Keeps P (makeParent target).run := by
  unfold Host.makeParent
  split
  · split_ifs
    · exact keeps_makeAll hP.quiet fun p _ => hP.make p
    · exact Keeps.pure_ok _
  · exact Keeps.pure_ok _

/-- A writer for the target that makes its hidden file where `S` says. -/
def IsWriter (S : Path → Prop) (target : Path) (w : Writer) : Prop := w.target = target ∧ S w.temp

lemma drop (hP : Stages P S target) (hw : IsWriter S target w) : Keeps P w.drop :=
  keeps_quietly (hP.remove _ hw.2)

lemma guard (hP : Stages P S target) (hw : IsWriter S target w) {α : Type}
    {act : Attempt Disk.Fault α} {Q : α → Host → Prop} (hact : Ensures P act.run (Ends P Q)) :
    Ensures P (w.guard act).run (Ends P Q) := by
  refine ensures_result hact fun r => ?_
  cases r with
  | ok a => exact Ensures.pure_ok fun _ hQ => hQ
  | error f => exact (hP.drop hw).bind fun _ => Keeps.pure _

lemma holder (hP : Stages P S target) (hw : IsWriter S target w) :
    Holder (fun _ => P) w.temp where
  append _ more := (hP.append w.temp more hw.2).mono fun _ _ hh =>
    ⟨more, List.prefix_rfl, fun _ => rfl, hh⟩
  wait _ := hP.quiet Unit fun _ => .ok ()

lemma sync (hP : Stages P S target) (hw : IsWriter S target w) :
    Ensures P (Writer.checked w.sync).run (Ends P fun w' h => IsWriter S target w' ∧ P h) := by
  refine (ensures_checked_sync ((hP.holder hw).wait []) w).mono (Ends.imp (fun _ hh => hh) ?_)
  rintro w' h ⟨hsynced, hh⟩
  exact ⟨⟨hsynced.target.trans hw.1, hsynced.temp ▸ hw.2⟩, hh⟩

lemma stage (hP : Stages P S target) (content : Bytes) :
    Ensures P (stage target content).run (Ends P fun w h => IsWriter S target w ∧ P h) := by
  rw [stage_eq]
  refine Ensures.bind_ok (keeps_iff_ends.mp hP.makeParent) fun _ => ?_
  have hcreate : Ensures P (Writer.create target).run
      (Ends P fun w h => (IsWriter S target w ∧ w.isOpen = true) ∧ P h) := by
    refine Ensures.bind_ok hP.sibling fun temp => ?_
    rintro h ⟨htemp, hh⟩
    exact Ensures.bind_ok (keeps_iff_ends.mp (hP.create temp htemp))
      (fun _ => Ensures.pure_ok fun h hh => ⟨⟨⟨rfl, htemp⟩, rfl⟩, hh⟩) h hh
  refine Ensures.bind_ok hcreate fun w => ?_
  rintro h ⟨⟨hw, hopen⟩, hh⟩
  refine hP.guard hw (((hP.holder hw).ensures_fill hopen content).mono
    (Ends.imp (fun s hs => ?_) fun w' s hs => ?_)) h hh
  · obtain ⟨_, hs⟩ := hs
    exact hs
  · obtain ⟨rfl, hs⟩ := hs
    exact ⟨hw, hs⟩

/-- Only moving the hidden file over the target ends what is kept, and only if it succeeds. -/
lemma publish (hP : Stages P S target)
    (hrename : ∀ p, S p → Ensures P (alter (·.rename p target)).run (Ends P fun _ => Q))
    (content : Bytes) : Ensures P (publish target content).run (Ends P fun _ => Q) := by
  refine Ensures.bind_ok (hP.stage content) fun w => ?_
  rintro h ⟨hw, hh⟩
  refine hP.guard hw (Ensures.bind_ok (hP.sync hw) fun w' => ?_) h hh
  rintro h ⟨⟨htarget, htemp⟩, hh⟩
  have hmove := hrename w'.temp htemp
  rw [← htarget] at hmove
  exact hmove h hh

end Stages

/-- Kept by everything that is done to publish a file at the target, if hidden files are made where
`S` says. -/
structure Withstands (P : Host → Prop) (S : Path → Prop) (target : Path) : Prop extends
    Stages P S target where
  rename : ∀ p, S p → Keeps P (alter (·.rename p target)).run

lemma Withstands.publish {P : Host → Prop} {S : Path → Prop} (hP : Withstands P S target)
    (content : Bytes) : Keeps P (publish target content).run :=
  keeps_iff_ends.mpr
    (hP.toStages.publish (fun p hp => keeps_iff_ends.mp (hP.rename p hp)) content)

lemma ensures_siblingOf_hidden {P : Host → Prop} (hdraw : Keeps P draw) (start : Place)
    (target : Path) : Ensures P (siblingOf target "tmp").run (Ends P fun p h =>
      (∃ n, IsHiddenFor (target.destination start) n (p.destination start)) ∧ P h) := by
  unfold siblingOf
  rcases hname : target.fileName with _ | name
  · exact Keeps.throw _
  · intro h hh
    obtain ⟨folder, hparent, hdest⟩ := Path.destination_of_fileName start hname
    have hsibling : IsName (siblingName name "tmp" h.drawn) :=
      isName_siblingName (Path.isName_of_fileName hname) (by decide) h.drawn
    rw [hparent]
    exact ⟨⟨h.drawn, _, name, "tmp", by simp, hdest,
      Path.destination_joinName start folder hsibling⟩, hdraw h hh⟩

lemma ensures_siblingOf_apart (hclear : IsClear ps t₀.start target) :
    Ensures (Keeping ps t₀) (siblingOf target "tmp").run (Ends (Keeping ps t₀) fun p h =>
      Tree.IsApart ps t₀.start p ∧ Keeping ps t₀ h) :=
  (ensures_siblingOf_hidden (fun _ hh => ⟨hh.others, hh.tree⟩) t₀.start target).mono
    (Ends.imp (fun _ hh => hh) fun _ _ ⟨⟨n, hn⟩, hh⟩ => ⟨hclear.hidden n _ hn, hh⟩)

lemma withstands_keeping (hclear : IsClear ps t₀.start target) :
    Withstands (Keeping ps t₀) (Tree.IsApart ps t₀.start) target where
  quiet := quiet_keeping
  sibling := ensures_siblingOf_apart hclear
  make _ := keeps_alter_keeping fun _ _ _ hok => Tree.keepsFiles_makeDirectory hok
  create _ hp := keeps_alter_keeping fun _ _ hstart hok =>
    Tree.keepsFiles_create (by rwa [hstart]) hok
  append _ _ hp := keeps_writing_keeping fun _ _ _ hstart hok =>
    Tree.keepsFiles_append (by rwa [hstart]) hok
  rename _ hp := keeps_alter_keeping fun _ _ hstart hok =>
    Tree.keepsFiles_rename (by rwa [hstart]) (by rw [hstart]; exact hclear.own) hok
  remove _ hp := keeps_alter_keeping fun _ _ hstart hok =>
    Tree.keepsFiles_removeFile (by rwa [hstart]) hok

/-- Publishing keeps the files that are apart from it. -/
lemma keeps_publish_apart (hclear : IsClear ps t₀.start target) (content : Bytes) :
    Keeps (Keeping ps t₀) (publish target content).run :=
  (withstands_keeping hclear).publish content

/-! ### What lasts -/

/-- Kept by every operation on files and by drawing numbers. -/
structure Lasting (P : Host → Prop) : Prop where
  step : ∀ (α : Type) (op : Tree → Except Disk.Fault (α × Tree)) (part : ℕ → Tree → Tree),
    Keeps P (step op part).run
  draw : Keeps P draw

/-- Who else changes files and which steps are refused stays as it is. -/
lemma lasting_surroundings (Q : (ℕ → Tree → Tree) → (ℕ → Option Disk.Fault) → Prop) :
    Lasting fun h => Q h.change h.refuse where
  step _ _ _ := fun h hh => by
    unfold step
    dsimp only [ExceptT.run]
    split
    · exact hh
    · split
      · exact hh
      · exact hh
  draw _ hh := hh

namespace Lasting

variable {P : Host → Prop}

lemma sibling (hP : Lasting P) (target : Path) (kind : String) :
    Keeps P (siblingOf target kind).run := by
  unfold siblingOf
  split
  · exact Keeps.throw _
  · exact Keeps.bind_ok (Keeps.lift hP.draw) fun _ => Keeps.pure_ok _

lemma withstands (hP : Lasting P) (target : Path) : Withstands P (fun _ => True) target where
  quiet _ _ := hP.step _ _ _
  sibling := (keeps_iff_ends.mp (hP.sibling target "tmp")).mono
    (Ends.imp (fun _ hh => hh) fun _ _ hh => ⟨trivial, hh⟩)
  make _ := hP.step _ _ _
  create _ _ := hP.step _ _ _
  append _ _ _ := hP.step _ _ _
  rename _ _ := hP.step _ _ _
  remove _ _ := hP.step _ _ _

lemma remove (hP : Lasting P) (p : Path) : Keeps P (quietly (removeFile p)) :=
  keeps_quietly (hP.step _ _ _)

lemma discard (hP : Lasting P) (backup : Option Path) :
    Keeps P (backup.forM fun b => quietly (removeFile b) : OnHost PUnit) := by
  cases backup with
  | none => exact Keeps.pure _
  | some b => exact hP.remove b

lemma rollBack (hP : Lasting P) (done : List Published) : Keeps P (rollBack done) := by
  refine Keeps.forM fun p _ => keeps_quietly ?_
  rcases p.backup with _ | backup
  · exact hP.step _ _ _
  · exact hP.step _ _ _

lemma keepPrevious (hP : Lasting P) (target : Path) : Keeps P (keepPrevious target).run := by
  refine ensures_result (hP.step _ _ _) fun r => ?_
  rcases r with f | (⟨content, x⟩ | _ | _)
  · dsimp only
    split_ifs
    · exact Keeps.pure_ok _
    · exact Keeps.throw _
  · refine (hP.sibling target "bak").bind_ok fun backup => ?_
    have hlink : Keeps P (succeeds (alter (·.link target backup))) :=
      (hP.step _ _ _).bind fun r => Keeps.pure _
    refine Keeps.bind_ok (Keeps.lift hlink) fun linked => ?_
    split_ifs
    · exact Keeps.bind_ok (x := copy target backup) (hP.step _ _ _) fun _ => Keeps.pure_ok _
    · exact Keeps.pure_ok _
  · exact Keeps.pure_ok _
  · exact Keeps.pure_ok _

lemma commit (hP : Lasting P) (w : Writer) : Keeps P w.commit.run := by
  have hwithstands := hP.withstands w.target
  have hw : Stages.IsWriter (fun _ => True) w.target w := ⟨rfl, trivial⟩
  refine keeps_iff_ends.mpr (hwithstands.guard hw (Ensures.bind_ok (hwithstands.sync hw) ?_))
  exact fun w' h hh => keeps_iff_ends.mp (hP.step _ _ _) h hh.2

lemma stageAll (hP : Lasting P) (staged : List Writer) (files : List (Path × Bytes)) :
    Keeps P (stageAll staged files).run := by
  induction files generalizing staged with
  | nil => exact Keeps.pure_ok _
  | cons f files ih =>
    have hstage : Keeps P (stage f.1 f.2).run := keeps_iff_ends.mpr
      (((hP.withstands f.1).stage f.2).mono (Ends.imp (fun _ hh => hh) fun _ _ hh => hh.2))
    exact (keeps_orUndo hstage (Keeps.forM fun w _ => hP.remove w.temp)).bind_ok fun w => ih _

lemma commitAll (hP : Lasting P) (done : List Published) (ws : List Writer) :
    Keeps P (commitAll done ws).run := by
  induction ws generalizing done with
  | nil => exact Keeps.pure_ok _
  | cons w ws ih =>
    refine (keeps_orUndo (hP.keepPrevious _) ?_).bind_ok fun backup => ?_
    · exact (hP.rollBack done).bind fun _ => Keeps.forM fun v _ => hP.remove v.temp
    refine (keeps_orUndo (hP.commit w) ?_).bind_ok fun _ => ih _
    exact (hP.discard backup).bind fun _ => (hP.rollBack done).bind fun _ =>
      Keeps.forM fun v _ => hP.remove v.temp

lemma publishAll (hP : Lasting P) (files : List (Path × Bytes)) :
    Keeps P (publishAll files).run := by
  refine (hP.stageAll [] files).bind_ok fun ws => (hP.commitAll [] ws).bind_ok fun done => ?_
  refine Keeps.forM_ok (fun p => ?_) done
  rcases p.backup with _ | b
  · exact Keeps.pure_ok _
  · exact hP.remove b

end Lasting

end Host

end ContractBuild

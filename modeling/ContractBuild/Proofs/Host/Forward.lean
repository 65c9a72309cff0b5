import Mathlib
import ContractBuild.Proofs.Host.Undo

/-!
Publishing a group in two parts. Work that goes forward ends with what it leaves behind, and only
then is that cleared away.
-/

namespace ContractBuild.Host

open ContractBuild.Disk

/-- What a failure leaves behind, in the order in which it is cleared away. -/
structure Debris where
  before : List Path := []
  done : List Published := []
  after : List Path := []

def Debris.clear (d : Debris) : OnHost Unit := do
  d.before.forM discard
  rollBack d.done
  d.after.forM discard

/-- Hidden files lie about, and some targets have been published. -/
structure Clutter (v₀ : View) (litter : List Path) (done : List Published)
    (files : List (Path × Bytes)) (t : Tree) : Prop where
  hidden : AreFiles t litter
  known : ∀ p ∈ done, p.IsKnown t
  trail : Trail t.start v₀ done files (View.without (litter.map (Path.destination t.start)) t.get?)

lemma Clutter.perm {v₀ : View} {litter litter' : List Path} {done : List Published}
    {files : List (Path × Bytes)} {t : Tree} (h : Clutter v₀ litter done files t)
    (hperm : litter.Perm litter') : Clutter v₀ litter' done files t := by
  refine ⟨h.hidden.perm hperm, h.known, ?_⟩
  rw [← View.without_perm (hperm.map _)]
  exact h.trail

/-- Clearing up leads back to the view from which publishing started, but for scraps that it knows
nothing of. -/
lemma Debris.run_clear {v₀ : View} {d : Debris} {scraps : List Path} {files : List (Path × Bytes)}
    {h : Host} (hh : Ready h)
    (hclutter : Clutter v₀ (d.before ++ (d.after ++ scraps)) d.done.reverse files h.tree)
    (hapart : ∀ p ∈ d.done, ∀ q ∈ d.before ++ (d.after ++ scraps),
      p.target.destination h.tree.start ≠ q.destination h.tree.start) :
    ∃ h', d.clear h = ((), h') ∧ GoesOn h h' ∧
      View.without (scraps.map (Path.destination h.tree.start)) h'.tree.get? = v₀ := by
  obtain ⟨before, done, after⟩ := d
  obtain ⟨hfiles, hknown, htrail⟩ := hclutter
  dsimp only at hfiles hknown htrail hapart
  have hbefore : AreFiles h.tree before := (hfiles.perm List.perm_append_comm).of_append
  obtain ⟨h₁, hrun₁, hgo₁, hview₁⟩ := run_discard hh hbefore
  have hrest : AreFiles h₁.tree (after ++ scraps) := by
    refine hfiles.of_append.mono hgo₁.keeps fun place hplace => ?_
    have hnodup := hfiles.apart
    rw [List.map_append] at hnodup
    rw [hview₁, View.without_of_not_mem]
    exact fun hbefore => List.disjoint_of_nodup_append hnodup hbefore hplace
  have hstart := hgo₁.keeps.start
  rw [List.map_append, View.without_perm List.perm_append_comm, View.without_append, ← hview₁,
    ← hstart] at htrail
  obtain ⟨h₂, hrun₂, hgo₂, hview₂, hsame₂⟩ := run_rollBack hgo₁.ready htrail rfl
    (fun p hp => (hknown p hp).mono hgo₁.keeps) fun p hp hmem => by
      obtain ⟨q, hq, heq⟩ := List.mem_map.mp hmem
      rw [hstart] at heq
      exact hapart p (List.mem_reverse.mp hp) q (List.mem_append_right _ hq) heq.symm
  have hafter : AreFiles h₂.tree after :=
    ((hrest.mono hgo₂.keeps hsame₂).perm List.perm_append_comm).of_append
  obtain ⟨h₃, hrun₃, hgo₃, hview₃⟩ := run_discard hgo₂.ready hafter
  refine ⟨h₃, ?_, (hgo₁.trans hgo₂).trans hgo₃, ?_⟩
  · exact (state_bind hrun₁).trans ((state_bind hrun₂).trans hrun₃)
  · rw [hview₃, hgo₂.keeps.start, ← View.without_append, ← hstart,
      View.without_perm List.perm_append_comm, ← List.map_append]
    exact hview₂

/-- Work for a group that fails with what it leaves behind. -/
abbrev Forward := Attempt (PublishFault × Debris)

section

variable {α β : Type}

/-- Work on one file of a group. -/
def leaving (path : Path) (d : Debris) (act : Attempt Disk.Fault α) : Forward α := do
  match ← act.result with
  | .ok a => return a
  | .error error => throw ({ path, error }, d)

/-- Clears away what a failure leaves behind. -/
def settle (act : Forward α) : Attempt PublishFault α := do
  match ← act.result with
  | .ok a => return a
  | .error (f, d) =>
    d.clear
    throw f

/-! ### Failing in two parts -/

lemma run_result {ε δ : Type} (act : Attempt ε α) (f : Except ε α → Attempt δ β) (h : Host) :
    (act.result >>= f).run h =
      (f (act.run h : Except ε α × Host).1).run (act.run h : Except ε α × Host).2 := rfl

lemma settle_bind (act : Forward α) (f : α → Forward β) :
    settle (act >>= f) = settle act >>= fun a => settle (f a) := by
  funext h
  change (settle (act >>= f)).run h = (settle act >>= fun a => settle (f a)).run h
  rcases hrun : act.run h with ⟨⟨fault, d⟩ | a, h'⟩
  · have hsettle : (settle act).run h = (.error fault, (d.clear h' : Unit × Host).2) := by
      rw [settle, run_result, hrun]
      rfl
    rw [run_bind_of_error hsettle, settle, run_result, run_bind_of_error hrun]
    rfl
  · have hsettle : (settle act).run h = (.ok a, h') := by
      rw [settle, run_result, hrun]
      rfl
    rw [run_bind_of_ok hsettle, settle, run_result, run_bind_of_ok hrun]
    rfl

lemma settle_leaving (path : Path) (d : Debris) (act : Attempt Disk.Fault α) :
    settle (leaving path d act) = orUndo path d.clear act := by
  funext h
  change (settle (leaving path d act)).run h = (orUndo path d.clear act).run h
  rw [settle, run_result, leaving, run_result, orUndo, run_result]
  rcases act.run h with ⟨error | a, h'⟩
  · rfl
  · rfl

lemma orUndo_bind (path : Path) (undo : OnHost Unit) (act : Attempt Disk.Fault α)
    (f : α → Attempt Disk.Fault β) :
    orUndo path undo (act >>= f) = orUndo path undo act >>= fun a => orUndo path undo (f a) := by
  funext h
  change (orUndo path undo (act >>= f)).run h =
    (orUndo path undo act >>= fun a => orUndo path undo (f a)).run h
  rcases hrun : act.run h with ⟨error | a, h'⟩
  · have hundo : (orUndo path undo act).run h =
        (.error { path, error }, (undo h' : Unit × Host).2) := by
      rw [orUndo, run_result, hrun]
      rfl
    rw [run_bind_of_error hundo, orUndo, run_result, run_bind_of_error hrun]
    rfl
  · have hundo : (orUndo path undo act).run h = (.ok a, h') := by
      rw [orUndo, run_result, hrun]
      rfl
    rw [run_bind_of_ok hundo, orUndo, run_result, run_bind_of_ok hrun]
    rfl

lemma orUndo_guard (path : Path) (undo : OnHost Unit) (w : Writer) (act : Attempt Disk.Fault α) :
    orUndo path undo (w.guard act) = orUndo path (do w.drop; undo) act := by
  funext h
  change (orUndo path undo (w.guard act)).run h = (orUndo path (do w.drop; undo) act).run h
  rw [orUndo, run_result, Writer.guard, run_result, orUndo, run_result]
  rcases act.run h with ⟨error | a, h'⟩
  · rfl
  · rfl

end

/-! ### Staging -/

/-- Makes the directories above a target. -/
def makeParent (target : Path) : Attempt Disk.Fault Unit :=
  match target.parent with
  | some parent => if !parent.text.isEmpty then makeDirectories parent else pure ()
  | none => pure ()

def stageForward (staged : List Writer) (target : Path) (content : Bytes) : Forward Writer := do
  let temps := staged.map (·.temp)
  leaving target { after := temps } (makeParent target)
  let w ← leaving target { after := temps } (Writer.create target)
  leaving target { before := [w.temp], after := temps } do
    let w ← Writer.checked (w.write content)
    Writer.checked w.sync

def stageAllForward (staged : List Writer) : List (Path × Bytes) → Forward (List Writer)
  | [] => return staged
  | (target, content) :: rest => do
    let w ← stageForward staged target content
    stageAllForward (staged ++ [w]) rest

lemma stage_eq (target : Path) (content : Bytes) : stage target content = (do
    makeParent target
    let w ← Writer.create target
    w.guard do
      let w ← Writer.checked (w.write content)
      Writer.checked w.sync) := by
  unfold stage makeParent
  rcases target.parent with _ | parent
  · rfl
  · dsimp only
    split_ifs
    · rfl
    · rfl

lemma forM_drop (ws : List Writer) : ws.forM Writer.drop = (ws.map (·.temp)).forM discard := by
  induction ws with
  | nil => rfl
  | cons w ws ih =>
    change (do w.drop; ws.forM Writer.drop) = (do discard w.temp; (ws.map (·.temp)).forM discard)
    rw [ih]
    rfl

lemma settle_stageForward (staged : List Writer) (target : Path) (content : Bytes) :
    settle (stageForward staged target content) =
      orUndo target (staged.forM Writer.drop) (stage target content) := by
  have hclear : Debris.clear { after := staged.map (·.temp) } = staged.forM Writer.drop := by
    rw [forM_drop]
    rfl
  rw [stageForward, settle_bind, settle_leaving, hclear, stage_eq, orUndo_bind]
  congr 1
  funext _
  rw [settle_bind, settle_leaving, hclear, orUndo_bind]
  congr 1
  funext w
  rw [settle_leaving, orUndo_guard, forM_drop]
  rfl

lemma settle_stageAllForward (staged : List Writer) (files : List (Path × Bytes)) :
    settle (stageAllForward staged files) = stageAll staged files := by
  induction files generalizing staged with
  | nil => rfl
  | cons file files ih =>
    rw [stageAllForward, settle_bind, settle_stageForward, stageAll]
    congr 1
    funext w
    exact ih _

/-! ### Committing -/

def commitAllForward (done : List Published) : List Writer → Forward (List Published)
  | [] => return done
  | w :: rest => do
    let temps := rest.map (·.temp)
    let backup ← leaving w.target { done, after := w.temp :: temps } (keepPrevious w.target)
    leaving w.target { before := w.temp :: backup.toList, done, after := temps } do
      let w ← Writer.checked w.sync
      alter (·.rename w.temp w.target)
    commitAllForward (done ++ [⟨w.target, backup⟩]) rest

lemma settle_commitAllForward (done : List Published) (ws : List Writer) :
    settle (commitAllForward done ws) = commitAll done ws := by
  induction ws generalizing done with
  | nil => rfl
  | cons w rest ih =>
    rw [commitAllForward, settle_bind, settle_leaving, commitAll]
    have hclear : Debris.clear { done, after := w.temp :: rest.map (·.temp) } = (do
        rollBack done
        (w :: rest).forM Writer.drop) := by
      rw [forM_drop]
      rfl
    rw [hclear]
    congr 1
    funext backup
    rw [settle_bind, settle_leaving, Writer.commit, orUndo_guard, forM_drop]
    have hclear : Debris.clear
        { before := w.temp :: backup.toList, done, after := rest.map (·.temp) } = (do
        w.drop
        backup.forM fun b => quietly (removeFile b)
        rollBack done
        (rest.map (·.temp)).forM discard) := by
      cases backup with
      | none => rfl
      | some b => rfl
    rw [hclear]
    congr 1
    funext _
    exact ih _

/-- Everything that is done to publish a group before anything is cleared away. -/
def attemptAll (files : List (Path × Bytes)) : Forward (List Published) := do
  let staged ← stageAllForward [] files
  commitAllForward [] staged

lemma forM_backup {ε : Type} (done : List Published) (h : Host) :
    (done.forM (fun p => p.backup.forM fun b => quietly (removeFile b)) : Attempt ε Unit).run h =
      (.ok (), ((backups done).forM discard h : Unit × Host).2) := by
  induction done generalizing h with
  | nil => rfl
  | cons p done ih =>
    obtain ⟨target, _ | b⟩ := p
    · exact ih h
    · exact ih _

/-- A group is published by going forward and then clearing away either the former files or what a
failure leaves behind. -/
lemma publishAll_eq (files : List (Path × Bytes)) : publishAll files = (do
    let done ← settle (attemptAll files)
    done.forM fun p => p.backup.forM fun b => quietly (removeFile b)) := by
  rw [attemptAll, settle_bind, settle_stageAllForward, bind_assoc, publishAll]
  simp only [settle_commitAllForward]

lemma run_publishAll_of_ok {files : List (Path × Bytes)} {h h' : Host} {done : List Published}
    (hrun : (attemptAll files).run h = (.ok done, h')) : (publishAll files).run h =
      (.ok (), ((backups done).forM discard h' : Unit × Host).2) := by
  have hsettle : (settle (attemptAll files)).run h = (.ok done, h') := by
    rw [settle, run_result, hrun]
    rfl
  rw [publishAll_eq, run_bind_of_ok hsettle, forM_backup]

lemma run_publishAll_of_error {files : List (Path × Bytes)} {h h' : Host} {fault : PublishFault}
    {d : Debris} (hrun : (attemptAll files).run h = (.error (fault, d), h')) :
    (publishAll files).run h = (.error fault, (d.clear h' : Unit × Host).2) := by
  have hsettle : (settle (attemptAll files)).run h =
      (.error fault, (d.clear h' : Unit × Host).2) := by
    rw [settle, run_result, hrun]
    rfl
  rw [publishAll_eq, run_bind_of_error hsettle]

end ContractBuild.Host

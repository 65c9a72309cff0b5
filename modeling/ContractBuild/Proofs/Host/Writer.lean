import Mathlib
import ContractBuild.Proofs.Host.Solitary

/-!
A writer publishes on `commit` only. Whatever it is asked to do before, its target and all other
files stay as they were but for a hidden file, which holds what has been written so far; and
whatever does not commit removes that file.
-/

namespace ContractBuild.Host

open ContractBuild.Disk

namespace Writer

/-! ### Calls and their answers -/

def Call.isSync : Call → Bool
  | .write _ => false
  | .sync => true

/-- The bytes that a call is to add. -/
def Call.chunk : Call → Bytes
  | .write chunk => chunk
  | .sync => []

/-- The chunks before the first `sync`. -/
def requested (calls : List Call) : Bytes := (calls.takeWhile fun c => !c.isSync).flatMap Call.chunk

lemma requested_append_sync (calls : List Call) : requested (calls ++ [.sync]) = requested calls := by
  unfold requested
  induction calls with
  | nil => rfl
  | cons call rest ih =>
    cases call with
    | write chunk => exact congrArg (chunk ++ ·) ih
    | sync => rfl

/-- A call and what came of it. -/
abbrev Answered := Call × Except Disk.Fault Unit

/-- The next call that has anything to do succeeds; it would have reported an earlier failure. -/
def Settled : List Answered → Prop
  | [] => False
  | (.write [], _) :: rest => Settled rest
  | (_, answer) :: _ => answer = .ok ()

/-- What calls have added to the file: of each chunk a part, and all of it if neither the call nor the
next one fails; nothing after the first `sync`. -/
inductive Kept : List Answered → Bytes → Prop
  | nil : Kept [] []
  | write {chunk part content : Bytes} {answer : Except Disk.Fault Unit} {rest : List Answered}
      (isPrefix : part <+: chunk) (whole : answer = .ok () → Settled rest → part = chunk)
      (later : Kept rest content) : Kept ((.write chunk, answer) :: rest) (part ++ content)
  | sync (answer : Except Disk.Fault Unit) (rest : List Answered) : Kept ((.sync, answer) :: rest) []

/-- No call up to the first `sync` fails. -/
def Unfailing : List Answered → Prop
  | [] => True
  | (.sync, answer) :: _ => answer = .ok ()
  | (.write _, answer) :: rest => answer = .ok () ∧ Unfailing rest

lemma Unfailing.settled {done : List Answered} (h : Unfailing done)
    (hsync : ∃ d ∈ done, d.1.isSync = true) : Settled done := by
  induction done with
  | nil =>
    obtain ⟨d, hd, -⟩ := hsync
    cases hd
  | cons d rest ih =>
    obtain ⟨call, answer⟩ := d
    rcases call with ⟨_ | ⟨b, chunk⟩⟩ | _
    · refine ih h.2 ?_
      obtain ⟨d, hd, hsync⟩ := hsync
      rcases List.mem_cons.mp hd with rfl | hd
      · cases hsync
      · exact ⟨d, hd, hsync⟩
    · exact h.1
    · exact h

/-- If no call fails, the file holds the chunks before the first `sync`. -/
lemma Kept.eq_requested {done : List Answered} {content : Bytes} (h : Kept done content)
    (hdone : Unfailing done) (hsync : ∃ d ∈ done, d.1.isSync = true) :
    content = requested (done.map Prod.fst) := by
  induction h with
  | nil =>
    obtain ⟨d, hd, -⟩ := hsync
    cases hd
  | @write _ _ _ _ rest _ whole later ih =>
    have hrest : ∃ d ∈ rest, d.1.isSync = true := by
      obtain ⟨d, hd, hsync⟩ := hsync
      rcases List.mem_cons.mp hd with rfl | hd
      · cases hsync
      · exact ⟨d, hd, hsync⟩
    rw [whole hdone.1 (hdone.2.settled hrest), ih hdone.2 hrest]
    rfl
  | sync answer rest => rfl

lemma unfailing_append {done : List Answered} (h : Unfailing done) :
    Unfailing (done ++ [(.sync, .ok ())]) := by
  induction done with
  | nil => exact rfl
  | cons d rest ih =>
    obtain ⟨call, answer⟩ := d
    cases call with
    | write chunk => exact ⟨h.1, ih h.2⟩
    | sync => exact h

/-- Nothing is written after the first `sync`. -/
def EndsWithSync (done : List Answered) : Prop :=
  ∀ before after chunk answer, done = before ++ (.write chunk, answer) :: after →
    before.any (·.1.isSync) = true → answer = .error (.other "atomic writer already closed")

/-- The answer of a closed writer. -/
def Call.whenClosed : Call → Except Disk.Fault Unit
  | .write _ => .error (.other "atomic writer already closed")
  | .sync => .ok ()

variable {w : Writer}

lemma perform_of_closed (hw : w.isOpen = false) (call : Call) (h : Host) :
    w.perform call h = ((call.whenClosed, w), h) := by
  obtain ⟨temp, target, isOpen, fault⟩ := w
  obtain rfl : isOpen = false := hw
  cases call with
  | write chunk => rfl
  | sync => rfl

/-- A closed writer does nothing any more. -/
lemma performAll_of_closed (hw : w.isOpen = false) (calls : List Call) (h : Host) :
    w.performAll calls h = ((calls.map Call.whenClosed, w), h) := by
  induction calls with
  | nil => rfl
  | cons call rest ih =>
    rw [performAll, state_bind (perform_of_closed hw call h)]
    exact state_bind ih

lemma EndsWithSync.write {done : List Answered} (h : EndsWithSync done) (chunk : Bytes)
    (answer : Except Disk.Fault Unit) : EndsWithSync ((.write chunk, answer) :: done) := by
  intro before after chunk' answer' hdone hsync
  cases before with
  | nil => cases hsync
  | cons d before =>
    obtain ⟨rfl, hrest⟩ := List.cons.inj hdone
    exact h before after chunk' answer' hrest hsync

lemma endsWithSync_closed (answer : Except Disk.Fault Unit) (calls : List Call) :
    EndsWithSync ((.sync, answer) :: calls.zip (calls.map Call.whenClosed)) := by
  intro before after chunk answer' hdone hsync
  have hmem : (Call.write chunk, answer') ∈ (Call.sync, answer) :: calls.zip (calls.map Call.whenClosed) := by
    rw [hdone]
    exact List.mem_append_right _ List.mem_cons_self
  rcases List.mem_cons.mp hmem with heq | hmem
  · cases heq
  · rw [← List.map_id calls, List.map_map, List.zip_map', List.mem_map] at hmem
    obtain ⟨call, -, heq⟩ := hmem
    cases heq
    rfl

end Writer

/-! ### The file being written -/

/-- Next to the target a file is being written where nothing stood, and nothing else has changed. -/
structure IsPending (t : Tree) (temp target : Path) (content : Bytes) (t' : Tree) : Prop where
  start : t'.start = t.start
  apart : temp.destination t.start ≠ target.destination t.start
  knows : t.Knows temp
  free : t.get? (temp.destination t.start) = none
  view : t'.get? = Function.update t.get? (temp.destination t.start) (some (.file content false))

/-- The target holds the content, and nothing else has changed. -/
structure IsReplaced (t : Tree) (target : Path) (content : Bytes) (t' : Tree) : Prop where
  start : t'.start = t.start
  view : t'.get? = Function.update t.get? (target.destination t.start) (some (.file content false))
  reads : t'.read target = .ok content

/-- Nothing has changed but that the file being written is there if its removal was refused, which
was the last step. -/
structure IsCleared (t : Tree) (temp : Path) (h : Host) : Prop where
  start : h.tree.start = t.start
  elsewhere : ∀ place, place ≠ temp.destination t.start → h.tree.get? place = t.get? place
  gone : h.refuse (h.steps - 1) = none → h.tree.get? = t.get?

namespace IsPending

variable {t t' t'' : Tree} {temp target : Path} {content : Bytes}

lemma here (h : IsPending t temp target content t') :
    t'.get? (temp.destination t'.start) = some (.file content false) := by
  rw [h.view, h.start, Function.update_self]

lemma keepsDirectories (h : IsPending t temp target content t') : Tree.KeepsDirectories t t' := by
  refine ⟨h.start, fun place hdir => ?_⟩
  rw [h.view, Function.update_of_ne, hdir]
  rintro rfl
  rw [h.free] at hdir
  cases hdir

lemma append (h : IsPending t temp target content t') {more : Bytes}
    (hok : t'.append temp more = .ok t'') : IsPending t temp target (content ++ more) t'' := by
  rcases Tree.append_eq_ok hok with ⟨c, x, hget, rfl⟩ | ⟨hno, -⟩
  · obtain ⟨rfl, rfl⟩ : content = c ∧ false = x := by simpa using h.here.symm.trans hget
    refine { h with start := h.start, view := ?_ }
    rw [Tree.get?_put_eq (Tree.ne_nil_of_file hget), h.view, h.start, Function.update_idem]
  · exact absurd h.here (hno _ _)

lemma rename (h : IsPending t temp target content t') (hok : t'.rename temp target = .ok t'') :
    IsReplaced t target content t'' := by
  obtain ⟨n, hget, -, hknows, hdir, rfl⟩ := Tree.rename_eq_ok hok
  obtain rfl : .file content false = n := Option.some.inj (h.here.symm.trans hget)
  have hkeeps := Tree.keepsDirectories_move (n := .file content false) (by rw [hget]; simp) hdir
  have hview : ((t'.erase (temp.destination t'.start)).put (target.destination t'.start)
      (.file content false)).get? =
      Function.update t.get? (target.destination t.start) (some (.file content false)) := by
    rw [Tree.get?_put_eq (Tree.ne_nil_of_ne_directory hdir),
      Tree.get?_erase_eq (Tree.ne_nil_of_file hget), h.view, h.start, Function.update_idem,
      ← h.free, Function.update_eq_self]
  refine ⟨h.start, hview, Tree.read_eq_ok_iff.mpr ⟨hknows.mono hkeeps, false, ?_⟩⟩
  rw [hview, hkeeps.start, h.start, Function.update_self]

end IsPending

/-! ### What is done with a writer -/

variable {t : Tree} {w : Writer} {target : Path} {content : Bytes}

/-- The name of a hidden file is longer than that of its target. -/
lemma siblingName_ne (name kind : String) (n : ℕ) : siblingName name kind n ≠ name := by
  intro h
  have hlength := congrArg String.length h
  rw [← String.length_toList, toList_siblingName, ← String.length_toList] at hlength
  simp only [List.length_cons, List.length_append] at hlength
  omega

lemma ensures_create_pending (t : Tree) (target : Path) :
    Ensures (Unshared (· = t)) (Writer.create target).run (Ends (fun _ => True) fun w h =>
      (w.target = target ∧ w.isOpen = true) ∧ Unshared (IsPending t w.temp target []) h) := by
  have hsibling : Ensures (Unshared (· = t)) (siblingOf target "tmp").run (Ends (fun _ => True)
      fun temp h => temp.destination t.start ≠ target.destination t.start ∧ Unshared (· = t) h) := by
    unfold siblingOf
    rcases hname : target.fileName with _ | name
    · exact fun _ _ => trivial
    · intro h hh
      obtain ⟨folder, hparent, hdest⟩ := Path.destination_of_fileName t.start hname
      have hsibling : IsName (siblingName name "tmp" h.drawn) :=
        isName_siblingName (Path.isName_of_fileName hname) (by decide) h.drawn
      rw [hparent]
      refine ⟨?_, hh.others, hh.tree⟩
      rw [Option.getD_some, Path.destination_joinName t.start folder hsibling, hdest]
      exact fun heq => siblingName_ne name "tmp" h.drawn (List.append_singleton_inj.mp heq).2
  refine Ensures.bind_ok hsibling fun temp => ?_
  rintro h ⟨hapart, hh⟩
  refine Ensures.bind_ok (Q := fun _ => Unshared (IsPending t temp target [])) ?_ (fun _ => ?_) h hh
  · refine (ensures_alter_unshared fun u u' hu hok => ?_).mono (Ends.imp (fun _ _ => trivial)
      fun _ _ hh => hh)
    obtain rfl : u = t := hu
    obtain ⟨hknows, hfree, rfl⟩ := Tree.create_eq_ok hok
    have hne : temp.destination u.start ≠ [] :=
      Tree.ne_nil_of_ne_directory (t := u) (by rw [hfree]; simp)
    exact ⟨rfl, hapart, hknows, hfree, Tree.get?_put_eq hne⟩
  · exact Ensures.pure_ok fun _ hpending => ⟨⟨rfl, rfl⟩, hpending⟩

lemma holder_pending (t : Tree) (temp target : Path) :
    Holder (fun content => Unshared (IsPending t temp target content)) temp := by
  refine Holder.of_step (fun content h hh => ?_) fun content more h u hh hok => ?_
  · rw [hh.others]
    exact ⟨hh.others, hh.tree⟩
  · rw [hh.others] at hok
    exact ⟨hh.others, hh.tree.append hok⟩

/-- All calls have been answered, and nothing was written after the first `sync`. -/
structure Serves (w : Writer) (calls : List Writer.Call) (answers : List (Except Disk.Fault Unit))
    (w' : Writer) : Prop where
  length : answers.length = calls.length
  closes : Writer.EndsWithSync (calls.zip answers)
  temp : w'.temp = w.temp
  target : w'.target = w.target
  closed : w'.isOpen = false → w'.fault = none

lemma ensures_performAll_cons {P : Host → Prop} {call : Writer.Call} {rest : List Writer.Call}
    {Q : Except Disk.Fault Unit × Writer → Host → Prop}
    {R : List (Except Disk.Fault Unit) × Writer → Host → Prop}
    (hcall : Ensures P (w.perform call) Q)
    (hrest : ∀ r, Ensures (Q r) (r.2.performAll rest) fun rs => R (r.1 :: rs.1, rs.2)) :
    Ensures P (w.performAll (call :: rest)) R :=
  fun h hh => hrest _ _ (hcall h hh)

/-- What calls have added, whatever comes next: a failure that no call has reported keeps the next
one from succeeding. -/
def Adds (w : Writer) (done : List Writer.Answered) (added : Bytes) (w' : Writer) : Prop :=
  ∀ next, Writer.Kept next [] → (w'.fault ≠ none → ¬ Writer.Settled next) →
    Writer.Kept (done ++ next) added ∧ (w.fault ≠ none → ¬ Writer.Settled (done ++ next))

lemma Adds.write {chunk part added : Bytes} {r : Except Disk.Fault Unit} {w' w'' : Writer}
    {done : List Writer.Answered} (hwrote : Wrote w chunk part r w') (h : Adds w' done added w'') :
    Adds w ((.write chunk, r) :: done) (part ++ added) w'' := by
  intro next hnext hfault
  obtain ⟨hkept, hstuck⟩ := h next hnext hfault
  refine ⟨.write hwrote.isPrefix (fun hr hsettled => ?_) hkept, fun hfault hsettled => ?_⟩
  · refine hwrote.whole hr ?_
    by_contra hfault
    exact hstuck hfault hsettled
  · cases chunk with
    | nil =>
      exact hstuck ((hwrote.stuck hfault).2.2 (hwrote.idle rfl)) hsettled
    | cons b chunk => exact (hwrote.stuck hfault).2.1 (List.cons_ne_nil b chunk) hsettled

/-- The file holds what the calls have added, however many they are. -/
lemma Holder.ensures_performAll {H : Bytes → Host → Prop} (hH : Holder H w.temp)
    (hw : w.isOpen = true) (calls : List Writer.Call) (content : Bytes) :
    Ensures (H content) (w.performAll calls) fun r h => Serves w calls r.1 r.2 ∧
      ∃ added, Adds w (calls.zip r.1) added r.2 ∧ H (content ++ added) h := by
  induction calls generalizing w content with
  | nil =>
    intro h hh
    refine ⟨⟨rfl, fun before after chunk answer hnil _ => ?_, rfl, rfl, fun hclosed => ?_⟩, [],
      fun next hnext hfault => ⟨hnext, hfault⟩, ?_⟩
    · cases before <;> cases hnil
    · exact absurd (hw.symm.trans hclosed) nofun
    · rwa [List.append_nil]
  | cons call rest ih =>
    cases call with
    | write chunk =>
      refine ensures_performAll_cons (hH.ensures_write hw content chunk) fun ⟨answer, w'⟩ => ?_
      rintro h ⟨part, hwrote : Wrote w chunk part answer w', hh⟩
      have htemp : w'.temp = w.temp := by rw [hwrote.same]
      have hopen : w'.isOpen = true := (congrArg Writer.isOpen hwrote.same).trans hw
      obtain ⟨hserves, added, hadds, hh'⟩ := ih (w := w') (htemp ▸ hH) hopen (content ++ part) h hh
      refine ⟨⟨congrArg (· + 1) hserves.length, hserves.closes.write chunk answer,
        hserves.temp.trans htemp, hserves.target.trans (by rw [hwrote.same]),
        hserves.closed⟩, part ++ added, hadds.write hwrote, ?_⟩
      rwa [← List.append_assoc]
    | sync =>
      -- from here on the writer is closed
      refine ensures_performAll_cons (ensures_sync (hH.wait content) w) fun ⟨answer, w'⟩ => ?_
      rintro h ⟨hsynced : Synced w answer w', hh⟩
      have hclosed : w' = { w with isOpen := false, fault := none } :=
        hsynced.closed.trans (if_pos hw)
      rw [hclosed, Writer.performAll_of_closed rfl]
      refine ⟨⟨by simp, Writer.endsWithSync_closed answer rest, rfl, rfl, fun _ => rfl⟩, [],
        fun next _ _ => ⟨.sync _ _, hsynced.reports hw⟩, ?_⟩
      rwa [List.append_nil]

/-- The removal of the file fails only if it is refused. -/
lemma ensures_remove_pending (temp : Path) :
    Ensures (Unshared (IsPending t temp target content)) (removeFile temp).run fun _ =>
      IsCleared t temp := by
  refine ensures_same.mp (ensures_step_of (fun h f hh hf => ?_) fun h a u hh hok => ?_)
  · rw [hh.others] at hf ⊢
    have hremove := Tree.removeFile_of_knows (hh.tree.knows.mono hh.tree.keepsDirectories)
      hh.tree.here
    refine ⟨hh.tree.start, fun place hplace => ?_, fun hnone => ?_⟩
    · rw [hh.tree.view, Function.update_of_ne hplace]
    · rcases hf with hrefused | hfailed
      · cases hrefused.symm.trans hnone
      · have hfault := @alter_error (·.removeFile temp) _ _ hfailed
        cases hremove.symm.trans hfault
  · rw [hh.others] at hok
    have hremoved := @alter_ok (·.removeFile temp) _ _ _ hok
    obtain ⟨-, -, rfl⟩ := Tree.removeFile_eq_ok hremoved
    have hview : (h.tree.erase (temp.destination h.tree.start)).get? = t.get? := by
      rw [Tree.get?_erase_eq (Tree.ne_nil_of_file hh.tree.here), hh.tree.view, hh.tree.start,
        Function.update_idem, ← hh.tree.free, Function.update_eq_self]
    exact ⟨hh.tree.start, fun place _ => congrFun hview place, fun _ => hview⟩

lemma ensures_drop_pending (w : Writer) :
    Ensures (Unshared (IsPending t w.temp target content)) w.drop fun _ => IsCleared t w.temp :=
  (ensures_remove_pending w.temp).bind fun _ => Ensures.pure fun _ hh => hh

lemma ensures_abort_pending (w : Writer) :
    Ensures (Unshared (IsPending t w.temp target content)) w.abort.run fun _ =>
      IsCleared t w.temp := by
  refine ensures_result (ensures_remove_pending w.temp) fun r => ?_
  cases r with
  | ok _ => exact Keeps.pure_ok _
  | error f =>
    dsimp only
    split_ifs
    · exact Keeps.pure_ok _
    · exact Keeps.throw _

/-- A commit that succeeds has found no failure to report. -/
lemma ensures_commit_pending (hw : w.target = target) :
    Ensures (Unshared (IsPending t w.temp target content)) w.commit.run
      (Ends (IsCleared t w.temp) fun _ h =>
        (w.isOpen = true → w.fault = none) ∧ Unshared (IsReplaced t target content) h) := by
  have hmove : Ensures (Unshared (IsPending t w.temp target content))
      (do let w ← Writer.checked w.sync; alter (·.rename w.temp w.target) :
        Attempt Disk.Fault Unit).run
      (Ends (Unshared (IsPending t w.temp target content)) fun _ h =>
        (w.isOpen = true → w.fault = none) ∧ Unshared (IsReplaced t target content) h) := by
    refine Ensures.bind_ok (ensures_checked_sync ((holder_pending t w.temp target).wait content) w)
      fun w' => ?_
    rintro h ⟨hsynced, hh⟩
    have hfault : w.isOpen = true → w.fault = none := fun hopen => by
      by_contra hstuck
      exact hsynced.reports hopen hstuck rfl
    refine (ensures_alter_unshared (U := IsReplaced t target content) fun _ _ hu hok => ?_).mono
      (Ends.imp (fun _ hh => hh) fun _ _ hh => ⟨hfault, hh⟩) h hh
    rw [hsynced.temp, hsynced.target, hw] at hok
    exact hu.rename hok
  refine ensures_result hmove fun r => ?_
  cases r with
  | ok _ => exact Ensures.pure_ok fun _ hh => hh
  | error f => exact (ensures_drop_pending w).bind fun _ => Ensures.pure fun _ hh => hh

/-- Only a commit that succeeds replaces the target. -/
lemma ensures_finish (hw : w.target = target) (finish : Writer.Finish) :
    Ensures (Unshared (IsPending t w.temp target content)) (w.finish finish).run fun r h =>
      if finish = .commit ∧ r = .ok () then
        (w.isOpen = true → w.fault = none) ∧ IsReplaced t target content h.tree
      else IsCleared t w.temp h := by
  cases finish with
  | commit =>
    refine (ensures_commit_pending hw).mono fun r h hh => ?_
    cases r with
    | ok _ => exact ⟨hh.1, hh.2.tree⟩
    | error f => exact hh
  | abort => exact ensures_abort_pending w
  | drop => exact ensures_drop_pending w

/-- A host with a file that can be replaced. The third step on it is refused. -/
def desk : Host where
  tree := { nodes := [(["d"], .directory), (["d", "out"], .file [9] false)] }
  refuse n := if n = 2 then some .accessDenied else none

def deskWriter : Writer where
  temp := ⟨"/d/.out.tmp.00000000000000000000000000000000"⟩
  target := ⟨"/d/out"⟩

/-- Two chunks, of which the second is refused, as the sync reports, and one that comes too late. -/
def deskCalls : List Writer.Call := [.write [1], .write [2], .sync, .write [3]]

end ContractBuild.Host

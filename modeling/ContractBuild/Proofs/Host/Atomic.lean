import Mathlib
import ContractBuild.Proofs.Host.Group

/-!
A run of publishing a group: it goes forward as long as no step is refused, and what it leaves behind
can be cleared away. So every target holds its new content in the end, or everything is as it was, but
for what was neither a file nor a directory, and for a part of a copy that nobody clears away.
-/

namespace ContractBuild.Host

open ContractBuild.Disk

variable {h₀ : Host} {T U : ℕ → Tree → Prop}

/-- From now on nobody else changes the files, and what a step does not find is not there. Steps are
refused as on the host `h₀`, and the drawn numbers and the tree are as `T` says. -/
structure Alone (h₀ : Host) (T : ℕ → Tree → Prop) (h : Host) : Prop where
  others : ∀ n ≥ h.steps, ∀ t, h.change n t = t
  answers : ∀ n ≥ h.steps, h.refuse n ≠ some .notFound
  later : h₀.steps ≤ h.steps
  refusals : h.refuse = h₀.refuse
  tears : h.torn = h₀.torn
  tree : T h.drawn h.tree

lemma Alone.mono (hTU : ∀ k t, T k t → U k t) {h : Host} (hh : Alone h₀ T h) : Alone h₀ U h :=
  { hh with tree := hTU _ _ hh.tree }

/-- After a step. -/
lemma Alone.next {h : Host} (hh : Alone h₀ T h) {t : Tree} (ht : U h.drawn t) :
    Alone h₀ U { h with tree := t, steps := h.steps + 1 } where
  others n hn := hh.others n (Nat.le_of_succ_le hn)
  answers n hn := hh.answers n (Nat.le_of_succ_le hn)
  later := hh.later.trans (Nat.le_succ _)
  refusals := hh.refusals
  tears := hh.tears
  tree := ht

lemma ensures_alter_alone {op : Tree → Except Disk.Fault Tree}
    (hop : ∀ k t t', T k t → op t = .ok t' → U k t') :
    Ensures (Alone h₀ T) (alter op).run (Ends (Alone h₀ T) fun _ => Alone h₀ U) := by
  refine ensures_step_of (fun h f hh _ => ?_) fun h a t hh hok => ?_
  · rw [hh.others _ le_rfl]
    exact hh.next hh.tree
  · rw [hh.others _ le_rfl] at hok
    exact hh.next (hop _ _ _ hh.tree (alter_ok hok))

/-- What a look finds is there, and what it does not find is not. -/
lemma ensures_inspect_alone {α : Type} (look : Tree → Except Disk.Fault α) :
    Ensures (Alone h₀ T) (inspect look).run (Meets
      (fun f => Alone h₀ fun k t => T k t ∧ (f = .notFound → look t = .error .notFound))
      fun a => Alone h₀ fun k t => T k t ∧ look t = .ok a) := by
  refine ensures_step_of (fun h f hh hf => ?_) fun h a t hh hok => ?_
  · rw [hh.others _ le_rfl] at hf ⊢
    refine hh.next ⟨hh.tree, ?_⟩
    rintro rfl
    exact inspect_error (hf.resolve_left (hh.answers _ le_rfl))
  · rw [hh.others _ le_rfl] at hok
    obtain ⟨hlook, rfl⟩ := inspect_ok hok
    exact hh.next ⟨hh.tree, hlook⟩

/-- A refused step has left a part of what it was to write. -/
def Tears (h₀ : Host) : Prop := ∃ n ≥ h₀.steps, h₀.refuse n ≠ none ∧ h₀.torn n ≠ 0

/-- A step that writes leaves nothing, a part or all. -/
lemma ensures_writing_alone {op : (Bytes → Bytes) → Tree → Except Disk.Fault Tree}
    {V : ℕ → Tree → Prop} (hpart : ∀ part k t t', T k t → op part t = .ok t' → V k t')
    (hop : ∀ k t t', T k t → op id t = .ok t' → U k t') :
    Ensures (Alone h₀ T) (writing op).run (Ends
      (fun h => Alone h₀ T h ∨ Tears h₀ ∧ Alone h₀ V h) fun _ => Alone h₀ U) := by
  refine ensures_writing_of (fun h f hh _ => ?_) (fun h f n t hh hrefuse htorn hok => ?_)
    fun h t hh hok => ?_
  · rw [hh.others _ le_rfl]
    exact .inl (hh.next hh.tree)
  · rw [hh.others _ le_rfl] at hok
    refine .inr ⟨⟨h.steps, hh.later, ?_, ?_⟩, hh.next (hpart _ _ _ _ hh.tree hok)⟩
    · rw [← hh.refusals, hrefuse]
      nofun
    · rw [← hh.tears, htorn]
      exact Nat.succ_ne_zero n
  · rw [hh.others _ le_rfl] at hok
    exact hh.next (hop _ _ _ hh.tree hok)

lemma quiet_alone : Quiet (Alone h₀ T) := by
  intro α look
  refine keeps_iff_ends.mpr ((ensures_inspect_alone look).mono (Meets.imp ?_ ?_))
  · exact fun f h hh => hh.mono fun k t ht => ht.1
  · exact fun a h hh => hh.mono fun k t ht => ht.1

/-! ### One file of the group -/

variable {files : List (Path × Bytes)} {litter : List (Path × Node)}
  {done : List Published} {written : List (Path × Bytes)} {f : Path × Bytes}

lemma keeps_makeParent (hf : f ∈ files) :
    Keeps (Alone h₀ (Underway h₀ files litter [] [])) (makeParent f.1).run := by
  unfold makeParent
  rcases hparent : f.1.parent with _ | parent
  · exact Keeps.pure_ok _
  · dsimp only
    split_ifs
    · refine keeps_makeAll quiet_alone fun p hp => keeps_iff_ends.mpr ?_
      refine ensures_alter_alone fun k t t' hu hok => ?_
      obtain ⟨hfree, rfl⟩ := Tree.makeDirectory_eq_ok hok
      refine hu.makeDirectory hfree ⟨f, hf, parent, hparent, p, hp, ?_⟩
      rw [hu.start]
    · exact Keeps.pure_ok _

/-- A hidden file for a target can be made at the end of the path. -/
structure IsNew (h₀ : Host) (target p : Path) (k : ℕ) (t : Tree) : Prop where
  slash : p.endsInSlash = false
  free : t.get? (p.destination t.start) = none ∨ t.get? (p.destination t.start) = some .directory
  number : ∃ n, h₀.drawn ≤ n ∧ n < k ∧
    IsHiddenFor (target.destination t.start) n (p.destination t.start)

lemma ensures_siblingOf_new (hfresh : Fresh files h₀) (hf : f ∈ files) {kind : String}
    (hkind : kind ∈ ["tmp", "bak"]) (S : Tree → Prop) :
    Ensures (Alone h₀ fun k t => Underway h₀ files litter done written k t ∧ S t)
      (siblingOf f.1 kind).run
      (Ends (Alone h₀ (Underway h₀ files litter done written)) fun p =>
        Alone h₀ fun k t =>
          Underway h₀ files litter done written k t ∧ S t ∧ IsNew h₀ f.1 p k t) := by
  have hslash : '/' ∉ kind.toList := by
    rcases List.mem_pair.mp hkind with rfl | rfl
    · decide
    · decide
  unfold siblingOf
  rcases hname : f.1.fileName with _ | name
  · exact fun h hh => hh.mono fun k t ht => ht.1
  · intro h hh
    obtain ⟨hu, hS⟩ := hh.tree
    obtain ⟨folder, hparent, hdest⟩ := Path.destination_of_fileName h.tree.start hname
    have hsibling := isName_siblingName (Path.isName_of_fileName hname) hslash h.drawn
    have hplace := Path.destination_joinName h.tree.start folder hsibling
    have hhidden : IsHiddenFor (f.1.destination h.tree.start) h.drawn
        ((folder.joinName (siblingName name kind h.drawn)).destination h.tree.start) :=
      ⟨_, name, kind, hkind, hdest, hplace⟩
    rw [hparent]
    refine { hh with tree := ⟨hu.mono (Nat.le_succ _), hS, ?_⟩ }
    exact ⟨Path.endsInSlash_joinName _ hsibling, hu.free hfresh hf hhidden,
      h.drawn, hu.drawn, Nat.lt_succ_self _, hhidden⟩

/-- A file is put where a hidden file can be made. -/
lemma Underway.put_new {k : ℕ} {t : Tree} {p : Path}
    (hu : Underway h₀ files litter done written k t) (hf : f ∈ files) (hnew : IsNew h₀ f.1 p k t)
    (hplace : t.placeOf p = .ok (p.destination t.start))
    (hfree : t.get? (p.destination t.start) ≠ some .directory) (content : Bytes) (x : Bool) :
    Underway h₀ files ((p, .file content x) :: litter) done written k
      (t.put (p.destination t.start) (.file content x)) := by
  obtain ⟨n, hn, hnk, hhidden⟩ := hnew.number
  exact hu.hide ⟨hplace, hnew.slash⟩ (hnew.free.resolve_right hfree) hf hn hnk hhidden

lemma ensures_create_new (hfresh : Fresh files h₀) (hf : f ∈ files) :
    Ensures (Alone h₀ (Underway h₀ files litter done written)) (Writer.create f.1).run
      (Ends (Alone h₀ (Underway h₀ files litter done written)) fun w h =>
        (w.target = f.1 ∧ w.isOpen = true) ∧
          Alone h₀ (Underway h₀ files ((w.temp, .file [] false) :: litter) done written) h) := by
  refine Ensures.bind_ok (fun h hh => ensures_siblingOf_new hfresh hf (by simp) (fun _ => True) h
    (hh.mono fun k t ht => ⟨ht, trivial⟩)) fun temp => ?_
  refine Ensures.bind_ok (Q := fun _ => Alone h₀ (Underway h₀ files
    ((temp, .file [] false) :: litter) done written)) ?_ fun _ =>
      Ensures.pure_ok fun h hh => ⟨⟨rfl, rfl⟩, hh⟩
  refine (ensures_alter_alone (U := Underway h₀ files ((temp, .file [] false) :: litter) done written)
    fun k t t' ht hok => ?_).mono (Ends.imp (fun h hh => hh.mono fun k t ht => ht.1) fun _ _ hh => hh)
  obtain ⟨hknows, hfree, rfl⟩ := Tree.create_eq_ok hok
  exact ht.1.put_new hf ht.2.2 hknows.place (by rw [hfree]; simp) _ _

/-- A hidden file can be written to. -/
lemma holder_underway (temp : Path) : Holder (fun content => Alone h₀
    (Underway h₀ files ((temp, .file content false) :: litter) done written)) temp := by
  refine Holder.of_step (fun content h hh => ?_) fun content more h t hh hok => ?_
  · rw [hh.others _ le_rfl]
    exact hh.next hh.tree
  · rw [hh.others _ le_rfl] at hok
    refine hh.next ?_
    have hholds := hh.tree.holds (temp, .file content false) List.mem_cons_self
    rcases Tree.append_eq_ok hok with ⟨c, x, hget, rfl⟩ | ⟨hno, -⟩
    · obtain ⟨rfl, rfl⟩ : content = c ∧ false = x := by simpa using hholds.symm.trans hget
      exact hh.tree.write
    · exact absurd hholds (hno _ _)

lemma keeps_wait_alone : Keeps (Alone h₀ T) (alter fun t => .ok t).run :=
  keeps_iff_ends.mpr (ensures_alter_alone fun k t t' ht hok => by cases hok; exact ht)

/-- At most one is left, and only if a copy stopped halfway. -/
structure AreScraps {α : Type} (h₀ : Host) (scraps : List α) : Prop where
  few : scraps.length ≤ 1
  torn : scraps ≠ [] → Tears h₀

lemma areScraps_nil {α : Type} : AreScraps h₀ ([] : List α) :=
  ⟨Nat.zero_le _, fun h => absurd rfl h⟩

lemma AreScraps.map {α β : Type} {scraps : List α} (h : AreScraps h₀ scraps) (g : α → β) :
    AreScraps h₀ (scraps.map g) :=
  ⟨(List.length_map g).trans_le h.few, fun hne => h.torn fun hnil => hne (by rw [hnil]; rfl)⟩

/-- What a failure leaves behind is to be cleared away, but for scraps. -/
def IsLeft (h₀ : Host) (files : List (Path × Bytes)) (d : Debris) (k : ℕ) (t : Tree) : Prop :=
  ∃ litter written scraps, AreScraps h₀ scraps ∧
    (litter.map Prod.fst).Perm (d.before ++ (d.after ++ scraps)) ∧
    Underway h₀ files litter d.done.reverse written k t

/-- A failure leaves behind what it says. -/
def Leaves (h₀ : Host) (files : List (Path × Bytes)) (e : PublishFault × Debris) : Host → Prop :=
  Alone h₀ (IsLeft h₀ files e.2)

lemma ensures_leaving {α : Type} {P : Host → Prop} {Q : α → Host → Prop} {path : Path} {d : Debris}
    {act : Attempt Disk.Fault α} (h : Ensures P act.run (Ends (Alone h₀ (IsLeft h₀ files d)) Q)) :
    Ensures P (leaving path d act).run (Meets (Leaves h₀ files) Q) := by
  refine ensures_result h fun r => ?_
  cases r with
  | ok a => exact fun h hh => hh
  | error f => exact fun h hh => hh

lemma Underway.isLeft {d : Debris} {k : ℕ} {t : Tree}
    (hu : Underway h₀ files litter done written k t)
    (hlitter : litter.map Prod.fst = d.before ++ d.after) (hdone : done = d.done.reverse) :
    IsLeft h₀ files d k t :=
  ⟨litter, written, [], areScraps_nil, by rw [hlitter, List.append_nil], hdone ▸ hu⟩

/-! ### The whole group -/

/-- The hidden files of staged writers, with what they hold. -/
def temps (ws : List Writer) (fs : List (Path × Bytes)) : List (Path × Node) :=
  List.zipWith (fun w f => (w.temp, .file f.2 false)) ws fs

/-- The writers are for these files. -/
def AreFor (ws : List Writer) (fs : List (Path × Bytes)) : Prop :=
  ws.map (·.target) = fs.map Prod.fst

lemma AreFor.length_eq {ws : List Writer} {fs : List (Path × Bytes)} (h : AreFor ws fs) :
    ws.length = fs.length := by
  simpa using congrArg List.length h

lemma AreFor.map_temps {ws : List Writer} {fs : List (Path × Bytes)} (h : AreFor ws fs) :
    (temps ws fs).map Prod.fst = ws.map (·.temp) := by
  induction ws generalizing fs with
  | nil => rfl
  | cons w ws ih =>
    cases fs with
    | nil => cases h
    | cons f fs => exact congrArg (w.temp :: ·) (ih (List.cons.inj h).2)

lemma ensures_stageForward (hfresh : Fresh files h₀) (hf : f ∈ files) {ws : List Writer}
    (hws : litter.map Prod.fst = ws.map (·.temp)) :
    Ensures (Alone h₀ (Underway h₀ files litter [] [])) (stageForward ws f.1 f.2).run
      (Meets (Leaves h₀ files) fun w h => w.target = f.1 ∧
        Alone h₀ (Underway h₀ files (litter ++ [(w.temp, .file f.2 false)]) [] []) h) := by
  have hleft : ∀ h, Alone h₀ (Underway h₀ files litter [] []) h →
      Alone h₀ (IsLeft h₀ files { after := ws.map (·.temp) }) h := fun h hh =>
    hh.mono fun k t hu => hu.isLeft hws rfl
  have hleft_new : ∀ (w : Writer) n h, Alone h₀ (Underway h₀ files ((w.temp, n) :: litter) [] []) h →
      Alone h₀ (IsLeft h₀ files { before := [w.temp], after := ws.map (·.temp) }) h :=
    fun w n h hh => hh.mono fun k t hu => hu.isLeft (by rw [List.map_cons, hws]; rfl) rfl
  refine Ensures.bind_meets (ensures_leaving ((keeps_iff_ends.mp (keeps_makeParent hf)).mono
    (Ends.imp hleft fun _ _ hh => hh))) fun _ => ?_
  refine Ensures.bind_meets (ensures_leaving ((ensures_create_new hfresh hf).mono
    (Ends.imp hleft fun _ _ hh => hh))) fun w => ?_
  rintro h ⟨⟨htarget, hopen⟩, hh⟩
  refine ensures_leaving (((holder_underway w.temp).ensures_fill hopen f.2).mono
    (Ends.imp ?_ ?_)) h hh
  · rintro h ⟨content, hh⟩
    exact hleft_new w _ h hh
  · rintro w' h ⟨rfl, hh⟩
    exact ⟨htarget, hh.mono fun k t hu => hu.perm (List.perm_append_singleton _ _).symm⟩

lemma ensures_stageAllForward (hfresh : Fresh files h₀) {rest fs : List (Path × Bytes)}
    (hrest : ∀ f ∈ rest, f ∈ files) {ws : List Writer} (hws : AreFor ws fs) :
    Ensures (Alone h₀ (Underway h₀ files (temps ws fs) [] [])) (stageAllForward ws rest).run
      (Meets (Leaves h₀ files) fun ws' h => AreFor ws' (fs ++ rest) ∧
        Alone h₀ (Underway h₀ files (temps ws' (fs ++ rest)) [] []) h) := by
  induction rest generalizing ws fs with
  | nil =>
    rw [List.append_nil]
    exact fun h hh => ⟨hws, hh⟩
  | cons f rest ih =>
    refine Ensures.bind_meets (ensures_stageForward hfresh (hrest f List.mem_cons_self)
      hws.map_temps) fun w => ?_
    rintro h ⟨htarget, hh⟩
    have hws' : AreFor (ws ++ [w]) (fs ++ [f]) := by
      rw [AreFor, List.map_append, List.map_append, hws, List.map_singleton, List.map_singleton,
        htarget]
    have htemps : temps (ws ++ [w]) (fs ++ [f]) = temps ws fs ++ [(w.temp, .file f.2 false)] := by
      rw [temps, List.zipWith_append hws.length_eq]
      rfl
    rw [← htemps] at hh
    have hnext := ih (fun g hg => hrest g (List.mem_cons_of_mem _ hg)) hws' h hh
    rwa [List.append_assoc, List.singleton_append] at hnext

/-- The file of a target has been given a second name. -/
def HasSecondName (h₀ : Host) (files : List (Path × Bytes)) (litter : List (Path × Node))
    (done : List Published) (written : List (Path × Bytes)) (target backup : Path) (n : Node) (k : ℕ)
    (t : Tree) : Prop :=
  Underway h₀ files ((backup, n) :: litter) done written k t ∧
    t.get? (target.destination t.start) = some n

/-- Linking and copying give the file of a target a second name where there is none. -/
lemma Underway.hasSecondName {k : ℕ} {t t' : Tree} {backup : Path} {content : Bytes} {x : Bool}
    (hu : Underway h₀ files litter done written k t) (hfresh : Fresh files h₀) (hf : f ∈ files)
    (hnew : IsNew h₀ f.1 backup k t)
    (hget : t.get? (f.1.destination t.start) = some (.file content x))
    (hput : ∃ c y, t.get? (f.1.destination t.start) = some (.file c y) ∧
      t.placeOf backup = .ok (backup.destination t.start) ∧
      t.get? (backup.destination t.start) ≠ some .directory ∧
      t' = t.put (backup.destination t.start) (.file c y)) :
    HasSecondName h₀ files litter done written f.1 backup (.file content x) k t' := by
  obtain ⟨c, y, hsame, hplace, hfree, rfl⟩ := hput
  obtain ⟨rfl, rfl⟩ : c = content ∧ y = x := by simpa using hsame.symm.trans hget
  have hput := hu.put_new hf hnew hplace hfree c y
  refine ⟨hput, ?_⟩
  rw [Tree.start_put, Tree.get?_put_of_ne, hget]
  exact hput.apart hfresh hf (List.mem_append_left _ List.mem_cons_self)

lemma ensures_succeeds {P Q : Host → Prop} {act : Attempt Disk.Fault Unit}
    (h : Ensures P act.run (Ends P fun _ => Q)) :
    Ensures P (succeeds act) fun b h => if b then Q h else P h := by
  refine Ensures.bind h fun r => ?_
  cases r with
  | ok _ => exact fun h hh => hh
  | error _ => exact fun h hh => hh

/-- The file of a target is linked. -/
lemma ensures_link_second (hfresh : Fresh files h₀) (hf : f ∈ files) (backup : Path)
    (content : Bytes) (x : Bool) :
    Ensures (Alone h₀ fun k t => Underway h₀ files litter done written k t ∧
        t.look f.1 = .ok (.file content x) ∧ IsNew h₀ f.1 backup k t)
      (alter (·.link f.1 backup)).run
      (Ends (Alone h₀ fun k t => Underway h₀ files litter done written k t ∧
        t.look f.1 = .ok (.file content x) ∧ IsNew h₀ f.1 backup k t) fun _ =>
          Alone h₀ (HasSecondName h₀ files litter done written f.1 backup (.file content x))) := by
  refine ensures_alter_alone fun k t t' ht hok => ?_
  have hget := Tree.look_destination ht.2.1
  obtain ⟨n, hsame, -, hplace, hfree, rfl⟩ := Tree.link_eq_ok hok
  obtain rfl : .file content x = n := Option.some.inj (hget.symm.trans hsame)
  exact ht.1.hasSecondName hfresh hf ht.2.2 hget ⟨content, x, hget, hplace, hfree, rfl⟩

/-- The file of a target is copied; a part of it may be left. -/
lemma ensures_copy_second (hfresh : Fresh files h₀) (hf : f ∈ files) (backup : Path)
    (content : Bytes) (x : Bool) :
    Ensures (Alone h₀ fun k t => Underway h₀ files litter done written k t ∧
        t.look f.1 = .ok (.file content x) ∧ IsNew h₀ f.1 backup k t) (copy f.1 backup).run
      (Ends (fun h => ∃ scraps : List (Path × Node), AreScraps h₀ (scraps.map Prod.fst) ∧
          Alone h₀ (Underway h₀ files (scraps ++ litter) done written) h)
        fun _ => Alone h₀ (HasSecondName h₀ files litter done written f.1 backup
          (.file content x))) := by
  refine (ensures_writing_alone (V := fun k t => ∃ c y,
    Underway h₀ files ((backup, .file c y) :: litter) done written k t)
    (fun part k t t' ht hok => ?_) fun k t t' ht hok => ?_).mono (Ends.imp ?_ fun _ _ hh => hh)
  · obtain ⟨c, y, -, hplace, hfree, rfl⟩ := Tree.copyPart_eq_ok hok
    exact ⟨_, _, ht.1.put_new hf ht.2.2 hplace hfree _ y⟩
  · exact ht.1.hasSecondName hfresh hf ht.2.2 (Tree.look_destination ht.2.1)
      (Tree.copyPart_eq_ok hok)
  · rintro h (hh | ⟨htears, hh⟩)
    · exact ⟨[], areScraps_nil, hh.mono fun k t ht => ht.1⟩
    · obtain ⟨c, y, hu⟩ := hh.tree
      exact ⟨[(backup, .file c y)], ⟨le_rfl, fun _ => htears⟩, { hh with tree := hu }⟩

/-- What comes before a target is replaced: its file, if it has one, gets a second name. -/
lemma ensures_keepPrevious (hfresh : Fresh files h₀) (hf : f ∈ files) :
    Ensures (Alone h₀ (Underway h₀ files litter done written)) (keepPrevious f.1).run
      (Ends (fun h => ∃ scraps : List (Path × Node), AreScraps h₀ (scraps.map Prod.fst) ∧
          Alone h₀ (Underway h₀ files (scraps ++ litter) done written) h) fun backup =>
        Alone h₀ fun k t => ∃ former, former.map Prod.fst = backup.toList ∧
          Underway h₀ files (former ++ litter) done written k t ∧
          (t.Knows f.1 → t.get? (f.1.destination t.start) ≠ some .directory →
            IsKept t f.1 backup former)) := by
  refine ensures_result (ensures_inspect_alone _) fun r => ?_
  rcases r with fault | (⟨content, x⟩ | _ | _)
  · dsimp only
    split_ifs with hfault
    · intro h hh
      exact hh.mono fun k t ht => ⟨[], rfl, ht.1, fun hknows _ =>
        ⟨.inl (Tree.get?_of_look_notFound (ht.2 hfault) hknows), rfl⟩⟩
    · exact fun h hh => ⟨[], areScraps_nil, hh.mono fun k t ht => ht.1⟩
  · refine Ensures.bind_ok ((ensures_siblingOf_new hfresh hf (by simp)
      fun t => t.look f.1 = .ok (.file content x)).mono
        (Ends.imp (fun h hh => ⟨[], areScraps_nil, hh⟩) fun _ _ hh => hh)) fun backup => ?_
    have hdone : ∀ h, Alone h₀ (HasSecondName h₀ files litter done written f.1 backup
        (.file content x)) h → Alone h₀ (fun k t => ∃ former,
          former.map Prod.fst = (some backup).toList ∧
          Underway h₀ files (former ++ litter) done written k t ∧
          (t.Knows f.1 → t.get? (f.1.destination t.start) ≠ some .directory →
            IsKept t f.1 (some backup) former)) h := fun h hh =>
      hh.mono fun k t ht => ⟨[(backup, .file content x)], rfl, ht.1, fun _ _ =>
        ⟨content, x, ht.2, rfl⟩⟩
    refine Ensures.bind_ok (Ensures.lift (ensures_succeeds
      (ensures_link_second hfresh hf backup content x))) fun linked => ?_
    cases linked with
    | true => exact fun h hh => hdone h hh
    | false =>
      refine Ensures.bind_ok (ensures_copy_second hfresh hf backup content x) fun _ => ?_
      exact fun h hh => hdone h hh
  · intro h hh
    exact hh.mono fun k t ht => ⟨[], rfl, ht.1, fun hknows hdir =>
      absurd (Tree.look_destination ht.2) hdir⟩
  · intro h hh
    exact hh.mono fun k t ht => ⟨[], rfl, ht.1, fun hknows _ =>
      ⟨.inr (Tree.look_destination ht.2), rfl⟩⟩

/-- Moving a staged file over its target publishes it. -/
lemma ensures_moveOver (hfresh : Fresh files h₀) (hf : f ∈ files) {w : Writer} (hw : w.target = f.1)
    {backup : Option Path} {former : List (Path × Node)} :
    Ensures (Alone h₀ fun k t =>
        Underway h₀ files ((w.temp, .file f.2 false) :: (former ++ litter)) done written k t ∧
        (t.Knows f.1 → t.get? (f.1.destination t.start) ≠ some .directory →
          IsKept t f.1 backup former))
      (do let w ← Writer.checked w.sync; alter (·.rename w.temp w.target) :
        Attempt Disk.Fault Unit).run
      (Ends (Alone h₀ (Underway h₀ files ((w.temp, .file f.2 false) :: (former ++ litter)) done
        written)) fun _ =>
          Alone h₀ (Underway h₀ files litter (⟨f.1, backup⟩ :: done) (f :: written))) := by
  refine Ensures.bind_ok ((ensures_checked_sync keeps_wait_alone w).mono
    (Ends.imp (fun h hh => hh.mono fun k t ht => ht.1) fun _ _ hh => hh)) fun w' => ?_
  rintro h ⟨hsynced, hh⟩
  refine (ensures_alter_alone (U := Underway h₀ files litter (⟨f.1, backup⟩ :: done) (f :: written))
    fun k t t' ht hok => ?_).mono
      (Ends.imp (fun h hh => hh.mono fun k t ht => ht.1) fun _ _ hh => hh) h hh
  rw [hsynced.temp, hsynced.target, hw] at hok
  obtain ⟨n, hget, -, hknows, hdir, rfl⟩ := Tree.rename_eq_ok hok
  have hholds := ht.1.holds (w.temp, .file f.2 false) List.mem_cons_self
  obtain rfl : .file f.2 false = n := Option.some.inj (hholds.symm.trans hget)
  exact ht.1.publish hfresh hf hknows (ht.2 hknows hdir) hdir

lemma ensures_commitAllForward (hfresh : Fresh files h₀) (done : List Published)
    (written : List (Path × Bytes)) {fs : List (Path × Bytes)} (hfs : ∀ f ∈ fs, f ∈ files)
    {ws : List Writer} (hws : AreFor ws fs) :
    Ensures (Alone h₀ (Underway h₀ files (temps ws fs) done.reverse written))
      (commitAllForward done ws).run
      (Meets (Leaves h₀ files) fun done' =>
        Alone h₀ (Underway h₀ files [] done'.reverse (fs.reverse ++ written))) := by
  induction ws generalizing fs done written with
  | nil =>
    cases fs with
    | nil => exact fun h hh => hh
    | cons f fs => cases hws
  | cons w ws ih =>
    cases fs with
    | nil => cases hws
    | cons f fs =>
      have hf := hfs f List.mem_cons_self
      obtain ⟨htarget, hrest⟩ : w.target = f.1 ∧ AreFor ws fs := List.cons.inj hws
      have hpaths := hrest.map_temps
      have hleft : ∀ h, (∃ scraps : List (Path × Node), AreScraps h₀ (scraps.map Prod.fst) ∧
          Alone h₀ (Underway h₀ files (scraps ++ temps (w :: ws) (f :: fs)) done.reverse
            written) h) → Alone h₀ (IsLeft h₀ files
              { done, after := w.temp :: ws.map (·.temp) }) h := by
        rintro h ⟨scraps, hscraps, hh⟩
        refine hh.mono fun k t hu => ⟨_, written, _, hscraps, ?_, hu⟩
        rw [List.map_append, hws.map_temps]
        exact List.perm_append_comm
      rw [commitAllForward, htarget]
      refine Ensures.bind_meets (ensures_leaving ((ensures_keepPrevious hfresh hf).mono
        (Ends.imp hleft fun _ _ hh => hh))) fun backup => ?_
      intro h hh
      obtain ⟨former, hformer, hu, hkept⟩ := hh.tree
      have hleft : ∀ h, Alone h₀ (Underway h₀ files ((w.temp, .file f.2 false) ::
          (former ++ temps ws fs)) done.reverse written) h → Alone h₀ (IsLeft h₀ files
            { before := w.temp :: backup.toList, done, after := ws.map (·.temp) }) h := by
        refine fun h hh => hh.mono fun k t hu => hu.isLeft ?_ rfl
        rw [List.map_cons, List.map_append, hformer, hpaths]
        rfl
      refine Ensures.bind_meets (ensures_leaving ((ensures_moveOver hfresh hf htarget).mono
        (Ends.imp hleft fun _ _ hh => hh))) (fun _ => ?_) h
        { hh with tree := ⟨hu.perm List.perm_middle, hkept⟩ }
      have hnext := ih (done ++ [⟨f.1, backup⟩]) (f :: written)
        (fun g hg => hfs g (List.mem_cons_of_mem _ hg)) hrest
      rw [List.reverse_append] at hnext
      rw [List.reverse_cons, List.append_assoc]
      exact hnext

lemma ensures_attemptAll (hfresh : Fresh files h₀) :
    Ensures (Alone h₀ (Underway h₀ files [] [] [])) (attemptAll files).run
      (Meets (Leaves h₀ files) fun done =>
        Alone h₀ (Underway h₀ files [] done.reverse files.reverse)) := by
  refine Ensures.bind_meets (ensures_stageAllForward hfresh (fun f hf => hf)
    (show AreFor [] [] from rfl))
    fun ws => ?_
  rintro h ⟨hws, hh⟩
  have hcommit := ensures_commitAllForward hfresh [] [] (fun f hf => hf) hws h hh
  rwa [List.append_nil] at hcommit

lemma underway_start (h : Host) (files : List (Path × Bytes)) :
    Underway h files [] [] [] h.drawn h.tree := by
  refine ⟨rfl, le_rfl, ⟨h.tree.get?, fun _ => .inl rfl, ⟨by simp, by simp, by simp⟩, by simp, ?_⟩,
    by simp, by simp [backups], by simp⟩
  rw [List.map_nil, List.map_nil, View.without_nil]
  exact Trail.nil

/-! ### What is there in the end -/

/-- The host from which anything is cleared away. -/
def turningPoint (files : List (Path × Bytes)) (h : Host) : Host :=
  ((attemptAll files).run h : Except (PublishFault × Debris) (List Published) × Host).2

/-- From now on nobody else changes the files, what a step does not find is not there, and nothing is
refused when a group of files is cleared up. -/
structure Undisturbed (files : List (Path × Bytes)) (h : Host) : Prop where
  others : ∀ n ≥ h.steps, ∀ t, h.change n t = t
  answers : ∀ n ≥ h.steps, h.refuse n ≠ some .notFound
  clearing : ∀ n ≥ (turningPoint files h).steps, h.refuse n = none

/-- The tree after a group has been published or has not. -/
def outcome (files : List (Path × Bytes)) (t : Tree) (v₀ : View) : Except PublishFault Unit → View
  | .ok () => overlay t.start v₀ files.reverse
  | .error _ => v₀

/-- The places of hidden files that are made for the targets. -/
def AreHidden (files : List (Path × Bytes)) (h : Host) (places : List Place) : Prop :=
  ∀ place ∈ places, ∃ f ∈ files, ∃ n ≥ h.drawn, IsHiddenFor (f.1.destination h.tree.start) n place

/-- But for new directories above the targets and a scrap next to one of them, publishing a group
writes all of it or nothing. -/
lemma run_publishAll {h : Host} (hh : Undisturbed files h) (hfresh : Fresh files h) :
    ∃ r h' v₀ scraps, (publishAll files).run h = (r, h') ∧ h'.tree.start = h.tree.start ∧
      Grown files (files.map Prod.fst) h.tree v₀ ∧ AreScraps h scraps ∧ AreHidden files h scraps ∧
      View.without scraps h'.tree.get? = outcome files h.tree v₀ r ∧
      (r = .ok () → scraps = [] ∧ ∀ f ∈ files, h'.tree.Knows f.1) := by
  have hend := ensures_attemptAll hfresh h
    ⟨hh.others, hh.answers, le_rfl, rfl, rfl, underway_start h files⟩
  have hover : ∀ {litter done written k t}, Underway h files litter done written k t →
      done.map (·.target) ⊆ files.map Prod.fst := fun hu p hp => by
    obtain ⟨d, hd, rfl⟩ := List.mem_map.mp hp
    obtain ⟨f, hf, hfd⟩ := hu.targets d hd
    exact List.mem_map.mpr ⟨f, hf, hfd⟩
  have hclearing := hh.clearing
  rw [turningPoint] at hclearing
  rcases hrun : (attemptAll files).run h with ⟨⟨fault, d⟩ | done, h₁⟩
  · rw [hrun] at hend hclearing
    have hready : Ready h₁ := ⟨hend.others, fun n hn => hend.refusals ▸ hclearing n hn⟩
    obtain ⟨litter, written, scraps, hscraps, hperm, hu⟩ := hend.tree
    obtain ⟨v₀, hgrown, hclutter⟩ := hu.clutter
    obtain ⟨h₂, hclear, hgo, hview⟩ := Debris.run_clear hready (hclutter.perm hperm) fun p hp q hq =>
      hu.apart_done hfresh (List.mem_reverse.mpr hp)
        (List.mem_append_left _ (hperm.mem_iff.mpr hq))
    refine ⟨.error fault, h₂, v₀, scraps.map (Path.destination h₁.tree.start), ?_,
      hgo.keeps.start.trans hu.start, fun place => (hgrown place).mono (hover hu), hscraps.map _,
      fun place hplace => ?_, hview, nofun⟩
    · rw [run_publishAll_of_error hrun, hclear]
    · obtain ⟨p, hp, rfl⟩ := List.mem_map.mp hplace
      have hlitter := hperm.mem_iff.mpr (List.mem_append_right _ (List.mem_append_right _ hp))
      obtain ⟨f, hf, n, hn, -, hhidden⟩ := hu.names p (List.mem_append_left _ hlitter)
      exact ⟨f, hf, n, hn, hu.start ▸ hhidden⟩
  · rw [hrun] at hend hclearing
    have hready : Ready h₁ := ⟨hend.others, fun n hn => hend.refusals ▸ hclearing n hn⟩
    have hu : Underway h files [] done.reverse files.reverse h₁.drawn h₁.tree := hend.tree
    obtain ⟨v₀, hgrown, -, hknown, htrail⟩ := hu.clutter
    rw [List.map_nil, List.map_nil, View.without_nil] at htrail
    have hapart : ∀ p ∈ done.reverse, ∀ b ∈ backups done.reverse,
        p.target.destination h₁.tree.start ≠ b.destination h₁.tree.start := fun p hp b hb =>
      hu.apart_done hfresh hp (List.mem_append_right _ hb)
    obtain ⟨hfiles, hnodup⟩ := htrail.backups_apart hapart
    have hbackups : AreFiles h₁.tree (backups done.reverse) := by
      refine ⟨fun b hb => ?_, hfiles, hnodup⟩
      obtain ⟨p, hp, hpb⟩ := List.mem_filterMap.mp hb
      exact (hknown p hp).backup b hpb
    have hperm : (backups done.reverse).Perm (backups done) :=
      (List.reverse_perm done).filterMap _
    obtain ⟨h₂, hdiscard, hgo, hview⟩ := run_discard hready (hbackups.perm hperm)
    refine ⟨.ok (), h₂, v₀, [], ?_, hgo.keeps.start.trans hu.start,
      fun place => (hgrown place).mono (hover hu), areScraps_nil,
      fun place hplace => (List.not_mem_nil hplace).elim, ?_, fun _ => ⟨rfl, fun f hf => ?_⟩⟩
    · rw [run_publishAll_of_ok hrun, hdiscard]
    · rw [View.without_nil, hview, ← View.without_perm (hperm.map _),
        htrail.without_backups hapart, outcome, hu.start]
    · have hmem : f.1 ∈ files.reverse.map Prod.fst := List.mem_map_of_mem (List.mem_reverse.mpr hf)
      rw [htrail.map_target] at hmem
      obtain ⟨p, hp, hpf⟩ := List.mem_map.mp hmem
      rw [← hpf]
      exact (hknown p hp).target.mono hgo.keeps

/-- Every target holds the content that comes last for it. -/
def HoldsLast (files : List (Path × Bytes)) (t : Tree) : Prop :=
  ∀ earlier target content later, files = earlier ++ (target, content) :: later →
    (∀ f ∈ later, f.1.destination t.start ≠ target.destination t.start) →
    t.look target = .ok (.file content false)

/-- No file is where hidden files are made for the targets, but for scraps. -/
def NoneHidden (files : List (Path × Bytes)) (k : ℕ) (scraps : List Place) (t : Tree) : Prop :=
  ∀ f ∈ files, ∀ n ≥ k, ∀ place, IsHiddenFor (f.1.destination t.start) n place → place ∉ scraps →
    ∀ content x, t.get? place ≠ some (.file content x)

/-- Where there is nothing special, nothing is lost. -/
lemma GrowsAt.of_ordinary {lost : List Path} {t : Tree} {v : View} {place : Place}
    (h : GrowsAt files lost t v place)
    (hordinary : ∀ p ∈ lost, t.get? (p.destination t.start) ≠ some .special) :
    GrowsAt files [] t v place := by
  rcases h with hsame | habove | ⟨hspecial, -, p, hp, hplace⟩
  · exact .inl hsame
  · exact .inr (.inl habove)
  · exact absurd hspecial (hplace ▸ hordinary p hp)

/-- A host with a file and a directory. -/
def shelf : Host := { tree := { nodes := [(["a"], .file [1] false), (["d"], .directory)] } }

/-- A file that can be replaced and a directory that cannot. -/
def mixedGroup : List (Path × Bytes) := [(⟨"/a"⟩, [2]), (⟨"/d"⟩, [3])]

/-- A path that comes twice ends with what comes last. -/
example : ((publishAll [(⟨"/a"⟩, [2]), (⟨"/./a"⟩, [3])]).run shelf).2.tree.get? ["a"] =
    some (.file [3] false) := by
  decide +kernel

/-- If giving a file a second name and copying it are refused, what the copy came to is left. -/
example : ((publishAll mixedGroup).run { shelf with
    refuse := fun n => if n = 11 ∨ n = 12 then some .accessDenied else none
    torn := fun _ => 1 }).2.tree.get? [".a.bak.00000000000000000000000000000002"] =
      some (.file [] false) := by
  decide +kernel

/-- What is special is not given back. -/
example : ((publishAll mixedGroup).run
    { shelf with tree := { nodes := [(["a"], .special), (["d"], .directory)] } }).2.tree.get? ["a"] =
      none := by
  decide +kernel

end ContractBuild.Host

import Mathlib
import ContractBuild.Proofs.Host.Forward
import ContractBuild.Proofs.Host.Publish

/-!
Publishing a group is all or nothing. While it goes forward, the tree is the one it started from but
for hidden files, former files that have been kept, and directories above the targets; from any such
tree it can be gone back, and once every target has its content only the former files are left over.
-/

namespace ContractBuild.Host

open ContractBuild.Disk

/-! ### Places that publishing may use -/

/-- A place for a hidden file that is made for a target from the number `n`. -/
def IsHiddenFor (target : Place) (n : ℕ) (place : Place) : Prop :=
  ∃ folder name, ∃ kind ∈ ["tmp", "bak"], target = folder ++ [name] ∧
    place = folder ++ [siblingName name kind n]

/-- Hidden files that are still to be made are not there yet and are no targets. -/
structure Fresh (files : List (Path × Bytes)) (h : Host) : Prop where
  absent : ∀ f ∈ files, ∀ n ≥ h.drawn, ∀ place,
    IsHiddenFor (f.1.destination h.tree.start) n place → h.tree.get? place = none
  apart : ∀ f ∈ files, ∀ n ≥ h.drawn, ∀ place,
    IsHiddenFor (f.1.destination h.tree.start) n place →
      ∀ g ∈ files, g.1.destination h.tree.start ≠ place

/-- Two hidden files from different numbers are at different places. -/
lemma IsHiddenFor.number {target target' place : Place} {n m : ℕ}
    (h : IsHiddenFor target n place) (h' : IsHiddenFor target' m place) : n = m := by
  obtain ⟨folder, name, kind, -, -, rfl⟩ := h
  obtain ⟨folder', name', kind', -, -, heq⟩ := h'
  have hlast := (List.append_inj' heq rfl).2
  exact number_of_siblingName (List.cons.inj hlast).1

/-- The last name of a place is not hidden. -/
def IsVisible (place : Place) : Prop := ∀ name ∈ place.getLast?, Cache.isHidden name = false

instance (place : Place) : Decidable (IsVisible place) := by
  unfold IsVisible
  infer_instance

lemma IsHiddenFor.not_isVisible {target place : Place} {n : ℕ} (h : IsHiddenFor target n place) :
    ¬ IsVisible place := by
  obtain ⟨folder, name, kind, -, -, rfl⟩ := h
  intro hvisible
  have hname := hvisible (siblingName name kind n) (by simp)
  rw [Cache.isHidden, toList_siblingName] at hname
  cases hname

/-- Where nothing is hidden, hidden files can be made. -/
lemma fresh_of_visible {files : List (Path × Bytes)} {h : Host}
    (htree : ∀ e ∈ h.tree.nodes, IsVisible e.1)
    (htargets : ∀ f ∈ files, IsVisible (f.1.destination h.tree.start)) : Fresh files h := by
  refine ⟨fun f _ n _ place hplace => ?_, fun f _ n _ place hplace g hg heq => ?_⟩
  · have hnonempty : place ≠ [] := by
      rintro rfl
      exact hplace.not_isVisible fun name hname => nomatch hname
    rw [Tree.get?, if_neg hnonempty, List.lookup_eq_none_iff]
    intro e he
    rw [bne_iff_ne]
    rintro rfl
    exact hplace.not_isVisible (htree e he)
  · subst heq
    exact hplace.not_isVisible (htargets g hg)

/-- A directory above a target. -/
def IsAbove (start : Place) (files : List (Path × Bytes)) (place : Place) : Prop :=
  ∃ f ∈ files, ∃ parent, f.1.parent = some parent ∧
    ∃ p ∈ parent.ancestors, p.destination start = place

/-- A place is as in the tree, or it is a directory above a target that was missing, or what was
special at the end of a path is gone: only files are kept when they are published over. -/
def GrowsAt (files : List (Path × Bytes)) (lost : List Path) (t : Tree) (v : View) (place : Place) :
    Prop :=
  v place = t.get? place ∨
    (t.get? place = none ∧ v place = some .directory ∧ IsAbove t.start files place) ∨
    t.get? place = some .special ∧ v place = none ∧ ∃ p ∈ lost, p.destination t.start = place

def Grown (files : List (Path × Bytes)) (lost : List Path) (t : Tree) (v : View) : Prop :=
  ∀ place, GrowsAt files lost t v place

section

variable {files : List (Path × Bytes)} {lost lost' : List Path} {t : Tree} {v : View} {place : Place}

lemma GrowsAt.mono (h : GrowsAt files lost t v place) (hsub : lost ⊆ lost') :
    GrowsAt files lost' t v place := by
  rcases h with hsame | habove | ⟨hspecial, hnone, p, hp, hplace⟩
  · exact .inl hsame
  · exact .inr (.inl habove)
  · exact .inr (.inr ⟨hspecial, hnone, p, hsub hp, hplace⟩)

/-- Where nothing stood there is at most a directory. -/
lemma GrowsAt.of_absent (h : GrowsAt files lost t v place) (habsent : t.get? place = none) :
    v place = none ∨ v place = some .directory := by
  rcases h with hsame | ⟨-, hdir, -⟩ | ⟨hspecial, -⟩
  · exact .inl (hsame.trans habsent)
  · exact .inr hdir
  · rw [habsent] at hspecial
    cases hspecial

/-- What is special has always been there. -/
lemma GrowsAt.of_special (h : GrowsAt files lost t v place) (hspecial : v place = some .special) :
    t.get? place = some .special := by
  rcases h with hsame | ⟨-, hdir, -⟩ | ⟨-, hnone, -⟩
  · exact hsame.symm.trans hspecial
  · rw [hdir] at hspecial
    cases hspecial
  · rw [hnone] at hspecial
    cases hspecial

lemma GrowsAt.directory (h : GrowsAt files lost t v place) (hdir : t.get? place = some .directory) :
    v place = some .directory := by
  rcases h with hsame | ⟨hnone, -⟩ | ⟨hspecial, -⟩
  · exact hsame.trans hdir
  · rw [hdir] at hnone
    cases hnone
  · rw [hdir] at hspecial
    cases hspecial

end

/-! ### Underway -/

lemma Trail.map_target {start : Place} {v₀ v : View} {done : List Published}
    {files : List (Path × Bytes)} (h : Trail start v₀ done files v) :
    files.map Prod.fst = done.map (·.target) := by
  induction h with
  | nil => rfl
  | cons _ _ ih => rw [List.map_cons, List.map_cons, ih]

lemma Trail.eq_of_nil {start : Place} {v₀ v : View} {files : List (Path × Bytes)}
    (h : Trail start v₀ [] files v) : v = v₀ := by
  cases h
  rfl

/-- The file at a target, if there is one, has been kept under a hidden name; what is no file is
not. -/
def IsKept (t : Tree) (target : Path) (backup : Option Path) (former : List (Path × Node)) : Prop :=
  match backup with
  | some b => ∃ content x, t.get? (target.destination t.start) = some (.file content x) ∧
      former = [(b, .file content x)]
  | none => (t.get? (target.destination t.start) = none ∨
      t.get? (target.destination t.start) = some .special) ∧ former = []

lemma IsKept.backup_mem {t : Tree} {target : Path} {backup : Option Path}
    {former : List (Path × Node)} (h : IsKept t target backup former) :
    ∀ b ∈ backup, b ∈ former.map Prod.fst := by
  rintro b rfl
  obtain ⟨c, x, -, rfl⟩ := h
  exact List.mem_cons_self

/-- Some hidden files hold what they should, and some targets have been published, the latest first;
everything else is as it was on the host `h₀`. -/
structure Underway (h₀ : Host) (files : List (Path × Bytes)) (litter : List (Path × Node))
    (done : List Published) (written : List (Path × Bytes)) (k : ℕ) (t : Tree) : Prop where
  start : t.start = h₀.tree.start
  drawn : h₀.drawn ≤ k
  clutter : ∃ v₀, Grown files (done.map (·.target)) h₀.tree v₀ ∧ Clutter v₀ (litter.map Prod.fst) done written t
  holds : ∀ e ∈ litter, t.get? (e.1.destination t.start) = some e.2
  names : ∀ p ∈ litter.map Prod.fst ++ backups done, ∃ f ∈ files, ∃ n, h₀.drawn ≤ n ∧ n < k ∧
    IsHiddenFor (f.1.destination t.start) n (p.destination t.start)
  targets : ∀ p ∈ done, ∃ f ∈ files, f.1 = p.target

namespace Underway

variable {h₀ : Host} {files : List (Path × Bytes)} {litter : List (Path × Node)}
  {done : List Published} {written : List (Path × Bytes)} {k k' : ℕ} {t : Tree}

lemma mono (hu : Underway h₀ files litter done written k t) (hk : k ≤ k') :
    Underway h₀ files litter done written k' t := by
  refine { hu with drawn := hu.drawn.trans hk, names := fun p hp => ?_ }
  obtain ⟨f, hf, n, hn, hnk, hhidden⟩ := hu.names p hp
  exact ⟨f, hf, n, hn, hnk.trans_le hk, hhidden⟩

lemma perm {litter' : List (Path × Node)} (hu : Underway h₀ files litter done written k t)
    (hperm : litter.Perm litter') : Underway h₀ files litter' done written k t := by
  obtain ⟨v₀, hgrown, hclutter⟩ := hu.clutter
  have hpaths := hperm.map Prod.fst
  exact { hu with
    clutter := ⟨v₀, hgrown, hclutter.perm hpaths⟩
    holds := fun e he => hu.holds e (hperm.mem_iff.mpr he)
    names := fun p hp => hu.names p ((hpaths.append_right _).mem_iff.mpr hp) }

/-- No target is a hidden file. -/
lemma apart (hu : Underway h₀ files litter done written k t) (hfresh : Fresh files h₀)
    {f : Path × Bytes} (hf : f ∈ files) {p : Path} (hp : p ∈ litter.map Prod.fst ++ backups done) :
    f.1.destination t.start ≠ p.destination t.start := by
  obtain ⟨g, hg, n, hn, -, hhidden⟩ := hu.names p hp
  rw [hu.start] at hhidden ⊢
  exact hfresh.apart g hg n hn _ hhidden f hf

lemma apart_done (hu : Underway h₀ files litter done written k t) (hfresh : Fresh files h₀)
    {d : Published} (hd : d ∈ done) {p : Path} (hp : p ∈ litter.map Prod.fst ++ backups done) :
    d.target.destination t.start ≠ p.destination t.start := by
  obtain ⟨f, hf, hfd⟩ := hu.targets d hd
  rw [← hfd]
  exact hu.apart hfresh hf hp

/-- Where the next hidden file may be made there is no file. -/
lemma free (hu : Underway h₀ files litter done written k t) (hfresh : Fresh files h₀)
    {f : Path × Bytes} (hf : f ∈ files) {place : Place}
    (hplace : IsHiddenFor (f.1.destination t.start) k place) :
    t.get? place = none ∨ t.get? place = some .directory := by
  have hunused : ∀ p ∈ litter.map Prod.fst ++ backups done, p.destination t.start ≠ place := by
    rintro p hp rfl
    obtain ⟨g, -, n, -, hnk, hhidden⟩ := hu.names p hp
    exact absurd (hhidden.number hplace) (by omega)
  have hnot : ∀ ps : List Path, (∀ p ∈ ps, p ∈ litter.map Prod.fst ++ backups done) →
      place ∉ ps.map (Path.destination t.start) := by
    intro ps hps hmem
    obtain ⟨p, hp, heq⟩ := List.mem_map.mp hmem
    exact hunused p (hps p hp) heq
  obtain ⟨v₀, hgrown, hhidden, hknown, htrail⟩ := hu.clutter
  have hview := congrFun (htrail.without_backups fun d hd b hb =>
    hu.apart_done hfresh hd (List.mem_append_right _ hb)) place
  rw [View.without_of_not_mem (hnot _ fun p hp => List.mem_append_right _ hp),
    View.without_of_not_mem (hnot _ fun p hp => List.mem_append_left _ hp)] at hview
  rw [hu.start] at hplace
  have hold : overlay t.start v₀ written place = v₀ place := by
    refine overlay_of_no_target fun w hw => ?_
    have hw' : w.1 ∈ done.map (·.target) := by
      rw [← htrail.map_target]
      exact List.mem_map_of_mem hw
    obtain ⟨d, hd, hdw⟩ := List.mem_map.mp hw'
    obtain ⟨g, hg, hgd⟩ := hu.targets d hd
    rw [← hdw, ← hgd, hu.start]
    exact hfresh.apart f hf k hu.drawn place hplace g hg
  rw [hview, hold]
  exact (hgrown place).of_absent (hfresh.absent f hf k hu.drawn place hplace)

/-! ### What one step does -/

lemma not_mem_litter {place : Place} (h : ∀ e ∈ litter, e.1.destination t.start ≠ place) :
    place ∉ (litter.map Prod.fst).map (Path.destination t.start) := by
  intro hmem
  obtain ⟨p, hp, heq⟩ := List.mem_map.mp hmem
  obtain ⟨e, he, rfl⟩ := List.mem_map.mp hp
  exact h e he heq

lemma not_mem_of_target (hu : Underway h₀ files litter done written k t) (hfresh : Fresh files h₀)
    {f : Path × Bytes} (hf : f ∈ files) :
    f.1.destination t.start ∉ (litter.map Prod.fst).map (Path.destination t.start) :=
  not_mem_litter fun _ he =>
    (hu.apart hfresh hf (List.mem_append_left _ (List.mem_map_of_mem he))).symm

/-- Hidden files are not where nothing stands. -/
lemma ne_of_free (hu : Underway h₀ files litter done written k t) {place : Place}
    (hfree : t.get? place = none) {e : Path × Node} (he : e ∈ litter) :
    e.1.destination t.start ≠ place := by
  intro heq
  have hholds := hu.holds e he
  rw [heq, hfree] at hholds
  cases hholds

/-- A directory is made above a target before anything is published. -/
lemma makeDirectory (hu : Underway h₀ files litter [] [] k t) {place : Place}
    (hfree : t.get? place = none) (habove : IsAbove h₀.tree.start files place) :
    Underway h₀ files litter [] [] k (t.put place .directory) := by
  have hnonempty : place ≠ [] := Tree.ne_nil_of_ne_directory (t := t) (by rw [hfree]; simp)
  have hkeeps : Tree.KeepsDirectories t (t.put place .directory) :=
    Tree.keepsDirectories_put (by rw [hfree]; simp)
  have hnot := not_mem_litter fun e he => hu.ne_of_free hfree he
  obtain ⟨v₀, hgrown, hhidden, hknown, htrail⟩ := hu.clutter
  obtain rfl := htrail.eq_of_nil
  refine ⟨hu.start, hu.drawn, ⟨_, ?_, hhidden.mono hkeeps ?_, by simp, Trail.nil⟩,
    fun e he => ?_, hu.names, hu.targets⟩
  · intro q
    rw [Tree.start_put, Tree.get?_put_eq hnonempty, View.without_update hnot, GrowsAt,
      Function.update_apply]
    split_ifs with hq
    · subst hq
      have hold := hgrown q
      rw [GrowsAt, View.without_of_not_mem hnot, hfree] at hold
      rcases hold with hold | ⟨-, hold, -⟩ | ⟨-, -, p, hp, -⟩
      · exact .inr (.inl ⟨hold.symm, rfl, habove⟩)
      · cases hold
      · cases hp
    · exact hgrown q
  · intro q hq
    exact Tree.get?_put_of_ne (by rintro rfl; exact hnot hq)
  · rw [Tree.start_put, Tree.get?_put_of_ne (hu.ne_of_free hfree he)]
    exact hu.holds e he

/-- A hidden file is made. -/
lemma hide (hu : Underway h₀ files litter done written k t) {p : Path} {content : Bytes} {x : Bool}
    (hknows : t.Knows p) (hfree : t.get? (p.destination t.start) = none) {f : Path × Bytes}
    (hf : f ∈ files) {n : ℕ} (hn : h₀.drawn ≤ n) (hnk : n < k)
    (hplace : IsHiddenFor (f.1.destination t.start) n (p.destination t.start)) :
    Underway h₀ files ((p, .file content x) :: litter) done written k
      (t.put (p.destination t.start) (.file content x)) := by
  have hnonempty : p.destination t.start ≠ [] :=
    Tree.ne_nil_of_ne_directory (t := t) (by rw [hfree]; simp)
  have hkeeps : Tree.KeepsDirectories t (t.put (p.destination t.start) (.file content x)) :=
    Tree.keepsDirectories_put (by rw [hfree]; simp)
  have hnot := not_mem_litter fun e he => hu.ne_of_free hfree he
  have hself : (t.put (p.destination t.start) (.file content x)).get? (p.destination t.start) =
      some (.file content x) := by
    rw [Tree.get?_put_eq hnonempty, Function.update_self]
  obtain ⟨v₀, hgrown, hhidden, hknown, htrail⟩ := hu.clutter
  have hold : AreFiles (t.put (p.destination t.start) (.file content x)) (litter.map Prod.fst) :=
    hhidden.mono hkeeps fun q hq => Tree.get?_put_of_ne (by rintro rfl; exact hnot hq)
  refine ⟨hu.start, hu.drawn, ⟨v₀, hgrown, ⟨?_, ?_, ?_⟩, ?_, ?_⟩, ?_, ?_, hu.targets⟩
  · rintro q (_ | ⟨_, hq⟩)
    · exact hknows.mono hkeeps
    · exact hold.known q hq
  · rintro q (_ | ⟨_, hq⟩)
    · exact ⟨content, x, hself⟩
    · exact hold.file q hq
  · exact List.nodup_cons.mpr ⟨hnot, hold.apart⟩
  · exact fun d hd => (hknown d hd).mono hkeeps
  · -- the new file does not count, and nothing stood there before
    rw [List.map_cons, List.map_cons, Tree.start_put, Tree.get?_put_eq hnonempty,
      View.without_update_of_mem List.mem_cons_self, View.without_cons]
    rw [Function.update_eq_self_iff.mpr]
    · exact htrail
    · rw [View.without_of_not_mem hnot, hfree]
  · rintro e (_ | ⟨_, he⟩)
    · exact hself
    · rw [Tree.start_put, Tree.get?_put_of_ne (hu.ne_of_free hfree he)]
      exact hu.holds e he
  · rintro q (_ | ⟨_, hq⟩)
    · exact ⟨f, hf, n, hn, hnk, hplace⟩
    · exact hu.names q hq

/-- A hidden file is written to. -/
lemma write {p : Path} {n : Node} (hu : Underway h₀ files ((p, n) :: litter) done written k t)
    {content : Bytes} {x : Bool} :
    Underway h₀ files ((p, .file content x) :: litter) done written k
      (t.put (p.destination t.start) (.file content x)) := by
  obtain ⟨v₀, hgrown, hhidden, hknown, htrail⟩ := hu.clutter
  obtain ⟨c, y, hfile⟩ := hhidden.file p List.mem_cons_self
  have hnonempty : p.destination t.start ≠ [] := Tree.ne_nil_of_file hfile
  have hkeeps : Tree.KeepsDirectories t (t.put (p.destination t.start) (.file content x)) :=
    Tree.keepsDirectories_put (by rw [hfile]; simp)
  have hnot := (List.nodup_cons.mp hhidden.apart).1
  have hself : (t.put (p.destination t.start) (.file content x)).get? (p.destination t.start) =
      some (.file content x) := by
    rw [Tree.get?_put_eq hnonempty, Function.update_self]
  have hold : AreFiles (t.put (p.destination t.start) (.file content x)) (litter.map Prod.fst) :=
    hhidden.of_cons.mono hkeeps fun q hq => Tree.get?_put_of_ne (by rintro rfl; exact hnot hq)
  refine ⟨hu.start, hu.drawn, ⟨v₀, hgrown, ⟨?_, ?_, hhidden.apart⟩, ?_, ?_⟩, ?_, hu.names,
    hu.targets⟩
  · exact fun q hq => (hhidden.known q hq).mono hkeeps
  · rintro q (_ | ⟨_, hq⟩)
    · exact ⟨content, x, hself⟩
    · exact hold.file q hq
  · exact fun d hd => (hknown d hd).mono hkeeps
  · rw [List.map_cons, List.map_cons, Tree.start_put, Tree.get?_put_eq hnonempty,
      View.without_update_of_mem List.mem_cons_self]
    exact htrail
  · rintro e (_ | ⟨_, he⟩)
    · exact hself
    · rw [Tree.start_put, Tree.get?_put_of_ne]
      · exact hu.holds e (List.mem_cons_of_mem _ he)
      · exact fun heq => hnot (heq ▸ List.mem_map_of_mem (List.mem_map_of_mem he))

/-- Seen without hidden files, moving one of them over a target replaces what the target holds. -/
lemma without_move {start : Place} {v : View} {places : List Place} {temp target : Path}
    {content : Bytes} {former : List (Path × Node)} {backup : Option Path}
    (hkept : match backup with
      | some b => ∃ n, v (target.destination start) = some n ∧ v (b.destination start) = some n ∧
          former = [(b, n)]
      | none => former = [])
    (htarget : target.destination start ∉ temp.destination start ::
      ((former.map Prod.fst).map (Path.destination start) ++ places))
    (hnodup : (temp.destination start ::
      ((former.map Prod.fst).map (Path.destination start) ++ places)).Nodup) :
    View.without places (Function.update (Function.update v (temp.destination start) none)
        (target.destination start) (some (.file content false))) =
      Published.replace start ⟨target, backup⟩ content
        (View.without (temp.destination start ::
          ((former.map Prod.fst).map (Path.destination start) ++ places)) v) := by
  have htemp : temp.destination start ∉ places := fun h =>
    (List.nodup_cons.mp hnodup).1 (List.mem_append_right _ h)
  have hnot : target.destination start ∉ places := fun h =>
    htarget (List.mem_cons_of_mem _ (List.mem_append_right _ h))
  rw [View.without_update hnot, View.without_update htemp]
  cases backup with
  | none =>
    subst hkept
    rw [Published.replace_none, View.without_cons]
    rfl
  | some b =>
    obtain ⟨n, hold, hb, rfl⟩ := hkept
    have hb_not : b.destination start ∉ places :=
      (List.nodup_cons.mp (List.nodup_cons.mp hnodup).2).1
    have hb_temp : b.destination start ≠ temp.destination start := fun h =>
      (List.nodup_cons.mp hnodup).1 (h ▸ List.mem_cons_self)
    change _ = Published.replace start ⟨target, some b⟩ content
      (View.without (temp.destination start :: b.destination start :: places) v)
    have hsame : View.without (temp.destination start :: b.destination start :: places) v
        (target.destination start) = some n := by
      rw [← hold]
      exact View.without_of_not_mem htarget
    rw [Published.replace_some, hsame, View.without_cons, View.without_cons]
    congr 1
    funext place
    by_cases h1 : place = b.destination start
    · subst h1
      rw [Function.update_self, Function.update_of_ne hb_temp, View.without_of_not_mem hb_not, hb]
    · simp only [Function.update_apply, h1, if_false]

/-- What a target holds can be replaced once it has been kept. What is special is not, and is given
up here. -/
lemma canReplace {former : List (Path × Node)} {backup : Option Path} {f : Path × Bytes}
    {temp : Path × Node} (hu : Underway h₀ files (temp :: (former ++ litter)) done written k t)
    (hfresh : Fresh files h₀) (hf : f ∈ files) (hkept : IsKept t f.1 backup former) :
    ∃ v₀ v, Grown files (f.1 :: done.map (·.target)) h₀.tree v₀ ∧ Trail t.start v₀ done written v ∧
      Published.CanReplace t.start ⟨f.1, backup⟩ v ∧
      ∀ content, Published.replace t.start ⟨f.1, backup⟩ content v =
        Published.replace t.start ⟨f.1, backup⟩ content (View.without
          (((temp :: (former ++ litter)).map Prod.fst).map (Path.destination t.start)) t.get?) := by
  have hnot := hu.not_mem_of_target hfresh hf
  obtain ⟨v₀, hgrown, -, -, htrail⟩ := hu.clutter
  have hgrown' : Grown files (f.1 :: done.map (·.target)) h₀.tree v₀ := fun place =>
    (hgrown place).mono (List.subset_cons_self _ _)
  cases backup with
  | none =>
    rcases hkept.1 with hnone | hspecial
    · exact ⟨v₀, _, hgrown', htrail, (View.without_of_not_mem hnot).trans hnone, fun _ => rfl⟩
    · obtain ⟨hstart, hforgot⟩ := htrail.forget ((View.without_of_not_mem hnot).trans hspecial)
      refine ⟨_, _, fun place => ?_, hforgot, Function.update_self .., fun content => ?_⟩
      · by_cases hplace : place = f.1.destination t.start
        · subst hplace
          refine .inr (.inr ⟨(hgrown _).of_special hstart, Function.update_self .., f.1,
            List.mem_cons_self, by rw [hu.start]⟩)
        · rw [GrowsAt, Function.update_of_ne hplace]
          exact hgrown' place
      · rw [Published.replace_none, Published.replace_none, Function.update_idem]
  | some b =>
    obtain ⟨c, x, hformer, rfl⟩ := hkept
    refine ⟨v₀, _, hgrown', htrail, ⟨⟨c, x, ?_⟩, View.without_of_mem (by simp)⟩, fun _ => rfl⟩
    rw [View.without_of_not_mem hnot]
    exact hformer

/-- A hidden file is moved over its target, whose former file has been kept if there was one. -/
lemma publish {temp : Path} {content : Bytes} {former : List (Path × Node)} {backup : Option Path}
    {f : Path × Bytes}
    (hu : Underway h₀ files ((temp, .file content false) :: (former ++ litter)) done written k t)
    (hfresh : Fresh files h₀) (hf : f ∈ files) (hknows : t.Knows f.1)
    (hkept : IsKept t f.1 backup former)
    (htarget : t.get? (f.1.destination t.start) ≠ some .directory) :
    Underway h₀ files litter (⟨f.1, backup⟩ :: done) ((f.1, content) :: written) k
      ((t.erase (temp.destination t.start)).put (f.1.destination t.start) (.file content false)) := by
  have htemp : t.get? (temp.destination t.start) = some (.file content false) :=
    hu.holds (temp, .file content false) List.mem_cons_self
  have hplaces : (((temp, Node.file content false) :: (former ++ litter)).map Prod.fst).map
      (Path.destination t.start) = temp.destination t.start ::
        ((former.map Prod.fst).map (Path.destination t.start) ++
          (litter.map Prod.fst).map (Path.destination t.start)) := by
    rw [List.map_cons, List.map_cons, List.map_append, List.map_append]
  have hnot := hu.not_mem_of_target hfresh hf
  obtain ⟨v₀, v, hgrown, htrail, hcan, hreplace⟩ := hu.canReplace hfresh hf hkept
  obtain ⟨-, -, hhidden, hknown, -⟩ := hu.clutter
  have hnodup := hhidden.apart
  rw [hplaces] at hnot hreplace hnodup
  have hkeeps := Tree.keepsDirectories_move (n := .file content false)
    (by rw [htemp]; simp : t.get? (temp.destination t.start) ≠ some .directory) htarget
  have hsame : ∀ place ∈ (litter.map Prod.fst).map (Path.destination t.start),
      ((t.erase (temp.destination t.start)).put (f.1.destination t.start)
        (.file content false)).get? place = t.get? place := by
    intro place hplace
    have hmem := List.mem_append_right
      ((former.map Prod.fst).map (Path.destination t.start)) hplace
    rw [Tree.get?_put_of_ne, Tree.get?_erase_of_ne]
    · rintro rfl
      exact (List.nodup_cons.mp hnodup).1 hmem
    · rintro rfl
      exact hnot (List.mem_cons_of_mem _ hmem)
  refine ⟨hu.start, hu.drawn, ⟨v₀, hgrown, ?_, ?_, ?_⟩, ?_, ?_, ?_⟩
  · have hrest := hhidden.of_cons
    rw [List.map_append] at hrest
    exact hrest.of_append.mono hkeeps hsame
  · rintro d (_ | ⟨_, hd⟩)
    · refine ⟨hknows.mono hkeeps, fun b hb => (hhidden.known b ?_).mono hkeeps⟩
      rw [List.map_cons, List.map_append]
      exact List.mem_cons_of_mem _ (List.mem_append_left _ (hkept.backup_mem b hb))
    · exact (hknown d hd).mono hkeeps
  · rw [Tree.start_put, Tree.start_erase, Tree.get?_put_eq (Tree.ne_nil_of_ne_directory htarget),
      Tree.get?_erase_eq (Tree.ne_nil_of_file htemp), without_move ?_ hnot hnodup, ← hreplace]
    · exact Trail.cons htrail hcan
    · cases backup with
      | none => exact hkept.2
      | some b =>
        obtain ⟨c, x, hformer, rfl⟩ := hkept
        exact ⟨_, hformer, hu.holds (b, .file c x) (by simp), rfl⟩
  · intro e he
    rw [Tree.start_put, Tree.start_erase, hsame _ (List.mem_map_of_mem (List.mem_map_of_mem he))]
    exact hu.holds e (by simp [he])
  · intro p hp
    refine hu.names p ?_
    rw [List.map_cons, List.map_append]
    rcases List.mem_append.mp hp with hp | hp
    · simp [hp]
    · cases backup with
      | none => exact List.mem_append_right _ hp
      | some b =>
        rcases List.mem_cons.mp hp with rfl | hp
        · simp [hkept.backup_mem p rfl]
        · exact List.mem_append_right _ hp
  · rintro d (_ | ⟨_, hd⟩)
    · exact ⟨f, hf, rfl⟩
    · exact hu.targets d hd

end Underway

end ContractBuild.Host

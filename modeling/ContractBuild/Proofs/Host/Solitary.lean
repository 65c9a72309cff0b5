import Mathlib
import ContractBuild.Proofs.Host.Apart

/-!
Work on a host that nobody else uses. Where no step is refused, each does what its operation does to
the tree; and what is done to hidden files leaves the visible ones as they were.
-/

namespace ContractBuild

namespace Host

open ContractBuild.Disk

variable {T U : Tree → Prop}

/-! ### Steps -/

/-- Nobody else changes the files, and the tree is as `T` says; any step may be refused. -/
structure Unshared (T : Tree → Prop) (h : Host) : Prop where
  others : ∀ n t, h.change n t = t
  tree : T h.tree

lemma Unshared.mono (hTU : ∀ t, T t → U t) {h : Host} (hh : Unshared T h) : Unshared U h :=
  { hh with tree := hTU _ hh.tree }

lemma ensures_alter_unshared {op : Tree → Except Disk.Fault Tree}
    (hop : ∀ t t', T t → op t = .ok t' → U t') :
    Ensures (Unshared T) (alter op).run (Ends (Unshared T) fun _ => Unshared U) := by
  refine ensures_step_of (fun h f hh _ => ?_) fun h a t hh hok => ?_
  · rw [hh.others]
    exact ⟨hh.others, hh.tree⟩
  · rw [hh.others] at hok
    exact ⟨hh.others, hop _ _ hh.tree (alter_ok hok)⟩

lemma keeps_alter_unshared {op : Tree → Except Disk.Fault Tree}
    (hop : ∀ t t', T t → op t = .ok t' → T t') : Keeps (Unshared T) (alter op).run :=
  keeps_iff_ends.mpr (ensures_alter_unshared hop)

/-- Whatever part is written. -/
lemma keeps_writing_unshared {op : (Bytes → Bytes) → Tree → Except Disk.Fault Tree}
    (hop : ∀ part t t', T t → op part t = .ok t' → T t') :
    Keeps (Unshared T) (writing op).run := by
  have hkeep : ∀ (h : Host) part t, Unshared T h → op part (h.change h.steps h.tree) = .ok t →
      Unshared T { h with tree := t, steps := h.steps + 1 } := by
    intro h part t hh hok
    rw [hh.others] at hok
    exact ⟨hh.others, hop part _ t hh.tree hok⟩
  refine keeps_iff_ends.mpr (ensures_writing_of (fun h f hh _ => ?_)
    (fun h f n t hh _ _ hok => hkeep h _ t hh hok) fun h t hh hok => hkeep h _ t hh hok)
  rw [hh.others]
  exact ⟨hh.others, hh.tree⟩

/-- What counts is all that was to be written. -/
lemma ensures_writing_unshared {op : (Bytes → Bytes) → Tree → Except Disk.Fault Tree}
    (hop : ∀ t t', T t → op id t = .ok t' → U t') :
    Ensures (Unshared T) (writing op).run (Ends (fun _ => True) fun _ => Unshared U) := by
  refine ensures_writing_of (fun _ _ _ _ => trivial) (fun _ _ _ _ _ _ _ _ => trivial)
    fun h t hh hok => ?_
  rw [hh.others] at hok
  exact ⟨hh.others, hop _ t hh.tree hok⟩

lemma quiet_unshared : Quiet (Unshared T) := by
  intro α look
  refine keeps_iff_ends.mpr (ensures_step_of (fun h f hh _ => ?_) fun h a t hh hok => ?_)
  · rw [hh.others]
    exact ⟨hh.others, hh.tree⟩
  · rw [hh.others] at hok
    obtain ⟨-, rfl⟩ := inspect_ok hok
    exact ⟨hh.others, hh.tree⟩

/-- Besides, no refusal reads as if a file were missing. -/
structure Candid (T : Tree → Prop) (h : Host) : Prop extends Unshared T h where
  answers : ∀ n, h.refuse n ≠ some .notFound

lemma Candid.mono (hTU : ∀ t, T t → U t) {h : Host} (hh : Candid T h) : Candid U h :=
  { hh with tree := hTU _ hh.tree }

lemma ensures_alter_candid (op : Tree → Except Disk.Fault Tree) :
    Ensures (Candid T) (alter op).run (Meets
      (fun f => Candid fun t => T t ∧ (f = .notFound → op t = .error .notFound))
      fun _ => Candid fun t' => ∃ t, T t ∧ op t = .ok t') := by
  refine ensures_step_of (fun h f hh hf => ?_) fun h a t hh hok => ?_
  · rw [hh.others] at hf ⊢
    refine ⟨⟨hh.others, hh.tree, ?_⟩, hh.answers⟩
    rintro rfl
    exact alter_error (hf.resolve_left (hh.answers _))
  · rw [hh.others] at hok
    exact ⟨⟨hh.others, h.tree, hh.tree, alter_ok hok⟩, hh.answers⟩

/-- What is seen is there, and if the step is not refused, it is all there is to see. -/
lemma ensures_inspect_seen {α : Type} (look : Tree → Except Disk.Fault α) (seen : Prop) :
    Ensures (fun h => Candid T h ∧ (seen → h.refuse h.steps = none)) (inspect look).run fun r =>
      Candid fun t => T t ∧ (∀ a, r = .ok a → look t = .ok a) ∧ (seen → look t = r) := by
  refine (ensures_step_of (E := fun f => Candid fun t => T t ∧ (seen → look t = .error f))
    (Q := fun a => Candid fun t => T t ∧ look t = .ok a) ?_ ?_).mono fun r h hr => ?_
  · rintro h f ⟨hh, hseen⟩ hf
    rw [hh.others] at hf ⊢
    refine ⟨⟨hh.others, hh.tree, fun hs => ?_⟩, hh.answers⟩
    exact inspect_error (hf.resolve_left (by rw [hseen hs]; nofun))
  · rintro h a t ⟨hh, -⟩ hok
    rw [hh.others] at hok
    obtain ⟨hlook, rfl⟩ := inspect_ok hok
    exact ⟨⟨hh.others, hh.tree, hlook⟩, hh.answers⟩
  · cases r with
    | error f => exact hr.mono fun t ht => ⟨ht.1, nofun, ht.2⟩
    | ok a =>
      refine hr.mono fun t ht => ⟨ht.1, fun b hb => ?_, fun _ => ht.2⟩
      rw [← Except.ok.inj hb]
      exact ht.2

lemma ensures_inspect_candid {α : Type} (look : Tree → Except Disk.Fault α) :
    Ensures (Candid T) (inspect look).run fun r =>
      Candid fun t => T t ∧ ∀ a, r = .ok a → look t = .ok a :=
  ((ensures_inspect_seen look False).weaken fun _ hh => ⟨hh, False.elim⟩).mono
    fun _ _ hh => hh.mono fun _ ht => ⟨ht.1, ht.2.1⟩

lemma quiet_candid : Quiet (Candid T) := fun _ look =>
  (ensures_inspect_candid look).mono fun _ _ hh => hh.mono fun _ ht => ht.1

/-- A step between two moments has been refused. -/
def Lapses (h₀ h : Host) : Prop := ∃ n ≥ h₀.steps, n < h.steps ∧ h₀.refuse n ≠ none

/-- A while after the host was `h₀`: the tree is `t`, and unless a step has been refused since then,
it has been seen that `seen`. -/
structure Since (h₀ : Host) (t : Tree) (seen : Prop) (h : Host) : Prop where
  others : ∀ n t, h.change n t = t
  answers : ∀ n, h.refuse n ≠ some .notFound
  later : h₀.steps ≤ h.steps
  refusals : h.refuse = h₀.refuse
  tree : h.tree = t
  sees : Lapses h₀ h ∨ seen

section

variable {h₀ h : Host} {t t' : Tree} {seen seen' : Prop}

lemma Since.imp (hseen : seen → seen') (hh : Since h₀ t seen h) : Since h₀ t seen' h :=
  { hh with sees := hh.sees.imp_right hseen }

/-- After a step. -/
lemma Since.next (hh : Since h₀ t seen h) (t' : Tree) :
    Since h₀ t' seen { h with tree := t', steps := h.steps + 1 } := by
  refine ⟨hh.others, hh.answers, hh.later.trans (Nat.le_succ _), hh.refusals, rfl,
    hh.sees.imp_left ?_⟩
  rintro ⟨n, hn, hlt, hrefused⟩
  exact ⟨n, hn, hlt.trans (Nat.lt_succ_self _), hrefused⟩

/-- After a step that was refused. -/
lemma Since.refused (hh : Since h₀ t seen h) {f : Disk.Fault} (hf : h.refuse h.steps = some f) :
    Since h₀ t seen' { h with tree := t, steps := h.steps + 1 } := by
  refine { hh.next t with sees := .inl ⟨h.steps, hh.later, Nat.lt_succ_self _, ?_⟩ }
  rw [← hh.refusals, hf]
  nofun

lemma ensures_inspect_since {α : Type} (look : Tree → Except Disk.Fault α) :
    Ensures (Since h₀ t seen) (inspect look).run fun r h =>
      (∀ a, r = .ok a → look t = .ok a) ∧ Since h₀ t (seen ∧ look t = r) h := by
  refine (ensures_step_of (E := fun f h => Since h₀ t (seen ∧ look t = .error f) h)
    (Q := fun a h => look t = .ok a ∧ Since h₀ t seen h) (fun h f hh hf => ?_)
    fun h a t' hh hok => ?_).mono fun r h hr => ?_
  · rw [hh.others, hh.tree] at hf ⊢
    rcases hf with hrefused | hfailed
    · exact hh.refused hrefused
    · exact (hh.next t).imp fun hs => ⟨hs, inspect_error hfailed⟩
  · rw [hh.others, hh.tree] at hok
    obtain ⟨hlook, rfl⟩ := inspect_ok hok
    exact ⟨hlook, hh.next t'⟩
  · cases r with
    | error f => exact ⟨nofun, hr⟩
    | ok a =>
      refine ⟨fun b hb => ?_, hr.2.imp fun hs => ⟨hs, hr.1⟩⟩
      rw [← Except.ok.inj hb]
      exact hr.1

/-- What is not refused does what it does to the tree. -/
lemma ensures_alter_since (op : Tree → Except Disk.Fault Tree) :
    Ensures (Since h₀ t seen) (alter op).run (Meets
      (fun f h => (f = .notFound → op t = .error .notFound) ∧
        Since h₀ t (seen ∧ op t = .error f) h)
      fun _ h => ∃ t', op t = .ok t' ∧ Since h₀ t' seen h) := by
  refine ensures_step_of (fun h f hh hf => ?_) fun h a t' hh hok => ?_
  · rw [hh.others, hh.tree] at hf ⊢
    rcases hf with hrefused | hfailed
    · exact ⟨fun hf => absurd (hf ▸ hrefused) (hh.answers _), hh.refused hrefused⟩
    · have hop := alter_error hfailed
      exact ⟨fun hf => hf ▸ hop, (hh.next t).imp fun hs => ⟨hs, hop⟩⟩
  · rw [hh.others, hh.tree] at hok
    exact ⟨t', alter_ok hok, hh.next t'⟩

end

/-- Nobody else changes the files, no step is refused, and the tree is as `T` says. -/
structure Solitary (T : Tree → Prop) (h : Host) : Prop where
  others : ∀ n t, h.change n t = t
  willing : ∀ n, h.refuse n = none
  tree : T h.tree

lemma Solitary.mono (hTU : ∀ t, T t → U t) {h : Host} (hh : Solitary T h) : Solitary U h :=
  { hh with tree := hTU _ hh.tree }

lemma Candid.since {h : Host} (hh : Candid T h) : Since h h.tree True h :=
  ⟨hh.others, hh.answers, le_rfl, rfl, rfl, .inr trivial⟩

lemma Solitary.candid {h : Host} (hh : Solitary T h) : Candid T h :=
  ⟨⟨hh.others, hh.tree⟩, fun n => by rw [hh.willing]; nofun⟩

/-- Where no step is refused all is seen. -/
lemma Since.solitary {h₀ h : Host} {t : Tree} {seen : Prop} (hh : Since h₀ t seen h)
    (hwilling : ∀ n, h₀.refuse n = none) : seen ∧ Solitary (· = t) h := by
  refine ⟨hh.sees.resolve_left ?_, hh.others, fun n => hh.refusals ▸ hwilling n, hh.tree⟩
  rintro ⟨n, -, -, hrefused⟩
  exact hrefused (hwilling n)

/-- If no step is refused, none will be. -/
lemma lasting_willing : Lasting fun h => ∀ n, h.refuse n = none :=
  lasting_surroundings fun _ refuse => ∀ n, refuse n = none

/-- What is ensured whatever is refused is ensured if nothing is. -/
lemma ensures_solitary_of {ε α : Type} {act : Attempt ε α} {P E : Host → Prop}
    (h : Ensures P act.run (Ends E fun _ => Unshared U))
    (hwilling : Keeps (fun h => ∀ n, h.refuse n = none) act.run) :
    Ensures (fun h => P h ∧ ∀ n, h.refuse n = none) act.run (Ends E fun _ => Solitary U) := by
  rintro s ⟨hs, hs'⟩
  have hact := h s hs
  have hstill := hwilling s hs'
  revert hact hstill
  generalize (act.run s : Except ε α × Host) = p
  obtain ⟨r, s'⟩ := p
  intro hact hstill
  cases r with
  | error e => exact hact
  | ok a => exact ⟨hact.others, hstill, hact.tree⟩

lemma ensures_alter_solitary (op : Tree → Except Disk.Fault Tree) :
    Ensures (Solitary T) (alter op).run (Meets (fun f => Solitary fun t => T t ∧ op t = .error f)
      fun _ => Solitary fun t' => ∃ t, T t ∧ op t = .ok t') := by
  refine ensures_step_of (fun h f hh hf => ?_) fun h a t hh hok => ?_
  · rw [hh.others] at hf ⊢
    exact ⟨hh.others, hh.willing, hh.tree,
      alter_error (hf.resolve_left (by rw [hh.willing]; nofun))⟩
  · rw [hh.others] at hok
    exact ⟨hh.others, hh.willing, h.tree, hh.tree, alter_ok hok⟩

lemma ensures_inspect_solitary {α : Type} (look : Tree → Except Disk.Fault α) :
    Ensures (Solitary T) (inspect look).run fun r => Solitary fun t => T t ∧ look t = r := by
  refine (ensures_step_of (E := fun f => Solitary fun t => T t ∧ look t = .error f)
    (Q := fun a => Solitary fun t => T t ∧ look t = .ok a) (fun h f hh hf => ?_)
    fun h a t hh hok => ?_).mono fun r h hr => ?_
  · rw [hh.others] at hf ⊢
    have hlook := hf.resolve_left (by rw [hh.willing]; nofun)
    exact ⟨hh.others, hh.willing, hh.tree, inspect_error hlook⟩
  · rw [hh.others] at hok
    obtain ⟨hlook, rfl⟩ := inspect_ok hok
    exact ⟨hh.others, hh.willing, hh.tree, hlook⟩
  · cases r with
    | ok a => exact hr
    | error f => exact hr

lemma quiet_solitary : Quiet (Solitary T) := fun _ look =>
  (ensures_inspect_solitary look).mono fun _ _ hh => hh.mono fun _ ht => ht.1

/-! ### Visible files -/

/-- Nothing is new but where paths lead. -/
structure GrowsWherePathsLead (t t' : Tree) : Prop where
  start : t'.start = t.start
  leads : ∀ place, t'.get? place ≠ none →
    t.get? place ≠ none ∨ ∃ p : Path, place = p.destination t.start

/-- Directories stay, and so do visible files but at some places, where they may be changed. -/
structure KeepsVisible (changed : List Place) (t t' : Tree) : Prop extends
    GrowsWherePathsLead t t' where
  directory : ∀ place, t.get? place = some .directory → t'.get? place = some .directory
  file : ∀ place, IsVisible place → place ∉ changed → t'.file? place = t.file? place

variable {t t' t'' : Tree} {changed : List Place}

lemma leads_put (p : Path) (n : Node) (place : Place)
    (hget : (t.put (p.destination t.start) n).get? place ≠ none) :
    t.get? place ≠ none ∨ ∃ p : Path, place = p.destination t.start := by
  rw [Tree.get?_put] at hget
  split_ifs at hget with heq
  · exact .inr ⟨p, heq.1⟩
  · exact .inl hget

namespace KeepsVisible

lemma refl (changed : List Place) (t : Tree) : KeepsVisible changed t t :=
  ⟨⟨rfl, fun _ h => .inl h⟩, fun _ h => h, fun _ _ _ => rfl⟩

lemma mono {more : List Place} (h : KeepsVisible changed t t') (hsub : changed ⊆ more) :
    KeepsVisible more t t' :=
  ⟨h.toGrowsWherePathsLead, h.directory, fun place hvisible hplace =>
    h.file place hvisible fun hmem => hplace (hsub hmem)⟩

lemma keepsDirectories (h : KeepsVisible changed t t') : Tree.KeepsDirectories t t' :=
  ⟨h.start, h.directory⟩

/-- What can be read elsewhere still can be. -/
lemma read (h : KeepsVisible changed t t') {p : Path} (hvisible : IsVisible (p.destination t.start))
    (hp : p.destination t.start ∉ changed) {content : Bytes} (hread : t.read p = .ok content) :
    t'.read p = .ok content := by
  obtain ⟨hknows, x, hget⟩ := Tree.read_eq_ok_iff.mp hread
  refine Tree.read_eq_ok_iff.mpr ⟨hknows.mono h.keepsDirectories, x, ?_⟩
  rw [h.start, ← Tree.file?_eq_some, h.file _ hvisible hp, Tree.file?_eq_some]
  exact hget

/-- Elsewhere no visible file is new. -/
lemma was_there (h : KeepsVisible changed t t') {place : Place} (hvisible : IsVisible place)
    (hplace : place ∉ changed) {content : Bytes} {x : Bool}
    (hget : t'.get? place = some (.file content x)) : t.get? place = some (.file content x) := by
  rw [← Tree.file?_eq_some, ← h.file place hvisible hplace, Tree.file?_eq_some]
  exact hget

/-- A change that keeps directories and visible files elsewhere. -/
lemma next (h : KeepsVisible changed t t') (hkeeps : Tree.KeepsDirectories t' t'')
    (hleads : ∀ place, t''.get? place ≠ none →
      t'.get? place ≠ none ∨ ∃ p : Path, place = p.destination t'.start)
    (hfile : ∀ place, IsVisible place → place ∉ changed → t''.file? place = t'.file? place) :
    KeepsVisible changed t t'' := by
  refine ⟨⟨hkeeps.start.trans h.start, fun place hget => ?_⟩, fun place hdir => ?_,
    fun place hvisible hplace => ?_⟩
  · rcases hleads place hget with hold | ⟨p, hp⟩
    · exact h.leads place hold
    · exact .inr ⟨p, by rw [hp, h.start]⟩
  · exact hkeeps.directory place (h.directory place hdir)
  · rw [hfile place hvisible hplace, h.file place hvisible hplace]

lemma put (h : KeepsVisible changed t t') {p : Path} {n : Node}
    (hdir : t'.get? (p.destination t'.start) ≠ some .directory)
    (hp : IsVisible (p.destination t'.start) → p.destination t'.start ∈ changed) :
    KeepsVisible changed t (t'.put (p.destination t'.start) n) := by
  refine h.next (Tree.keepsDirectories_put hdir) (leads_put p n) fun place hvisible hplace => ?_
  refine Tree.file?_congr (Tree.get?_put_of_ne ?_)
  rintro rfl
  exact hplace (hp hvisible)

lemma erase (h : KeepsVisible changed t t') {gone : Place}
    (hdir : t'.get? gone ≠ some .directory) (hgone : IsVisible gone → gone ∈ changed) :
    KeepsVisible changed t (t'.erase gone) := by
  refine h.next (Tree.keepsDirectories_erase hdir) (fun place hget => ?_)
    fun place hvisible hplace => Tree.file?_congr (Tree.get?_erase_of_ne ?_)
  · rw [Tree.get?_erase] at hget
    split_ifs at hget
    · exact absurd rfl hget
    · exact .inl hget
  · rintro rfl
    exact hplace (hgone hvisible)

lemma makeDirectory (h : KeepsVisible changed t t') {p : Path}
    (hok : t'.makeDirectory p = .ok t'') : KeepsVisible changed t t'' := by
  refine h.next (Tree.keepsDirectories_makeDirectory hok) ?_ fun place _ _ =>
    Tree.file?_makeDirectory hok place
  rw [(Tree.makeDirectory_eq_ok hok).2]
  exact leads_put p .directory

lemma create (h : KeepsVisible [] t t') {p : Path} (hp : ¬ IsVisible (p.destination t'.start))
    (hok : t'.create p = .ok t'') : KeepsVisible [] t t'' := by
  obtain ⟨-, hfree, rfl⟩ := Tree.create_eq_ok hok
  exact h.put (by rw [hfree]; simp) fun hvisible => absurd hvisible hp

lemma append (h : KeepsVisible [] t t') {p : Path} (hp : ¬ IsVisible (p.destination t'.start))
    {more : Bytes} (hok : t'.append p more = .ok t'') : KeepsVisible [] t t'' := by
  rcases Tree.append_eq_ok hok with ⟨content, x, hget, rfl⟩ | ⟨-, rfl⟩
  · exact h.put (by rw [hget]; simp) fun hvisible => absurd hvisible hp
  · exact h

lemma removeFile (h : KeepsVisible [] t t') {p : Path} (hp : ¬ IsVisible (p.destination t'.start))
    (hok : t'.removeFile p = .ok t'') : KeepsVisible [] t t'' := by
  obtain ⟨-, hdir, rfl⟩ := Tree.removeFile_eq_ok hok
  exact h.erase hdir fun hvisible => absurd hvisible hp

/-- Moving a hidden file changes no visible file but the one it is moved over. -/
lemma rename (h : KeepsVisible [] t t') {p q : Path} (hp : ¬ IsVisible (p.destination t'.start))
    (hok : t'.rename p q = .ok t'') : KeepsVisible [q.destination t.start] t t'' := by
  obtain ⟨n, hget, hn, -, hdir, rfl⟩ := Tree.rename_eq_ok hok
  have herase : KeepsVisible [q.destination t.start] t (t'.erase (p.destination t'.start)) :=
    (h.mono (List.nil_subset _)).erase (by simpa [hget] using hn) fun hvisible =>
      absurd hvisible hp
  refine herase.put ?_ fun _ => List.mem_singleton.mpr (congrArg (q.destination ·) h.start)
  rw [Tree.get?_erase]
  split_ifs
  · simp
  · exact hdir

end KeepsVisible

end Host

end ContractBuild

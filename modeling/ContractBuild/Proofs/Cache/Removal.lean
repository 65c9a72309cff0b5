import Mathlib
import ContractBuild.Proofs.Cache.Represents

/-!
Pruning and clearing where steps fail. Entries go before the blobs they name, so wherever removing
stops, the directory still represents a map: what is left of the one before.
-/

namespace ContractBuild.Cache

open ContractBuild.Digest ContractBuild.Disk ContractBuild.Host ContractBuild.Text

-- no digest is computed here
attribute [local irreducible] sha256Hex

variable {c : Cache} {t t' : Tree} {T : Tree → Prop} {P : Host → Prop} {as : List Artifact}
  {f : Key → Option Artifact}

/-- The directory represents some map. -/
def IsIntact (c : Cache) (as : List Artifact) (t : Tree) : Prop := ∃ f, c.Represents as f t

lemma Represents.isIntact (h : c.Represents as f t) : c.IsIntact as t := ⟨f, h⟩

/-! ### One file -/

/-- A file is gone, or there was none. -/
def RemovesFile (p : Path) (t t' : Tree) : Prop :=
  t.removeFile p = .ok t' ∨ t.removeFile p = .error .notFound ∧ t' = t

lemma ensures_discard_candid (p : Path) : Ensures (Candid T) (discard p).run
    (Ends (Candid T) fun _ => Candid fun t' => ∃ t, T t ∧ RemovesFile p t t') := by
  refine ensures_result (ensures_alter_candid (·.removeFile p)) fun r => ?_
  cases r with
  | ok _ => exact Ensures.pure_ok fun h hh => hh.mono fun t' ⟨t, ht, hok⟩ => ⟨t, ht, .inl hok⟩
  | error fault =>
    dsimp only
    split_ifs with hfault
    · exact Ensures.pure_ok fun h hh => hh.mono fun t ⟨ht, hnone⟩ =>
        ⟨t, ht, .inr ⟨hnone hfault, rfl⟩⟩
    · exact fun h hh => hh.mono fun t ht => ht.1

lemma RemovesFile.removes {dir : Path} {name : String} (hname : IsName name)
    (h : RemovesFile (dir.joinName name) t t') : Tree.Removes (placesIn t dir [name]) t t' ∨
      (∀ content, t.read (dir.joinName name) ≠ .ok content) ∧ t' = t := by
  rcases h with hok | ⟨hnone, rfl⟩
  · left
    have hremoves := Tree.Removes.of_removeFile hok
    rwa [Path.destination_joinName _ _ hname] at hremoves
  · refine .inr ⟨fun content hread => ?_, rfl⟩
    obtain ⟨hknows, x, hget⟩ := Tree.read_eq_ok_iff.mp hread
    rw [Tree.removeFile_of_knows hknows hget] at hnone
    cases hnone

namespace Represents

variable {name : String}

lemma removesFile_entry (h : c.Represents as f t) (hname : IsName name)
    (hr : RemovesFile (c.entriesDir.joinName name) t t') :
    c.Represents as (without [name] f) t' := by
  rcases hr.removes hname with hremoves | ⟨hnone, rfl⟩
  · exact h.removes_entries hremoves
  · refine h.congr fun k => ?_
    rcases hk : f k with _ | a
    · simp [without, hk]
    · obtain ⟨now, -, hread⟩ := h.entry k a hk
      have hne : k.file ≠ name := by
        rintro rfl
        exact hnone _ hread
      simp [without, hk, hne]

lemma removesFile_blob (h : c.Represents as f t) (hname : IsName name)
    (hneeded : ∀ k a, f k = some a → name ∉ a.digests)
    (hr : RemovesFile (c.blobsDir.joinName name) t t') : c.Represents as f t' := by
  rcases hr.removes hname with hremoves | ⟨-, rfl⟩
  · refine h.removes_blobs hremoves fun k a hk digest hdigest hmem => ?_
    rw [List.mem_singleton.mp hmem] at hdigest
    exact hneeded k a hk hdigest
  · exact h

end Represents

/-! ### Listing and reading -/

lemma ensures_readEntry_candid (p : Path) : Ensures (Candid T) (readEntry p) fun r =>
    Candid fun t => T t ∧ ∀ e, r = some e → entryAt t p = some e := by
  refine (ensures_inspect_candid _).bind fun r => ?_
  cases r with
  | ok content =>
    refine Ensures.pure fun h hh => hh.mono fun t ht => ⟨ht.1, fun e he => ?_⟩
    rw [entryAt, ht.2 content rfl]
    exact he
  | error fault =>
    refine Ensures.pure fun h hh => hh.mono fun t ht => ⟨ht.1, fun e he => ?_⟩
    cases he

/-- What is listed is there, and if the first step is not refused, nothing is missed. -/
lemma ensures_filesIn_candid (dir : Path) (seen : Prop) :
    Ensures (fun h => Candid T h ∧ (seen → h.refuse h.steps = none)) (filesIn dir).run
      (Ends (Candid T) fun names => Candid fun t => T t ∧
        (∀ name ∈ names, name ∈ visibleFiles t dir) ∧ (seen → names = visibleFiles t dir)) := by
  refine ensures_result (ensures_inspect_seen (·.look dir) seen) fun r => ?_
  rcases r with fault | (⟨content, x⟩ | _ | _)
  · refine Ensures.pure_ok fun h hh => hh.mono ?_
    rintro t ⟨ht, -, hseen⟩
    exact ⟨ht, List.forall_mem_nil _, fun hs => by rw [visibleFiles, hseen hs]⟩
  · refine Ensures.pure_ok fun h hh => hh.mono ?_
    rintro t ⟨ht, -, hseen⟩
    exact ⟨ht, List.forall_mem_nil _, fun hs => by rw [visibleFiles, hseen hs]⟩
  · refine ensures_result (ensures_inspect_candid _) fun r => ?_
    cases r with
    | error fault => exact fun h hh => hh.mono fun t ht => ht.1.1
    | ok names =>
      refine fun h hh => hh.mono ?_
      rintro t ⟨⟨ht, hdir, -⟩, hnames⟩
      have hall : names = visibleFiles t dir :=
        Except.ok.inj ((hnames names rfl).symm.trans (list_published (hdir _ rfl)))
      exact ⟨ht, fun name hname => hall ▸ hname, fun _ => hall⟩
  · refine Ensures.pure_ok fun h hh => hh.mono ?_
    rintro t ⟨ht, -, hseen⟩
    exact ⟨ht, List.forall_mem_nil _, fun hs => by rw [visibleFiles, hseen hs]⟩

/-! ### Pruning -/

/-- The digests of each artifact are among those named, or its entry is one of those to come. -/
structure Covers (c : Cache) (as : List Artifact) (f : Key → Option Artifact)
    (named names : List String) (t : Tree) : Prop extends c.Represents as f t where
  named : ∀ k a, f k = some a → k.file ∈ names ∨ ∀ digest ∈ a.digests, digest ∈ named

namespace Covers

variable {name : String} {named names : List String}

/-- An entry is kept. -/
lemma keep (h : c.Covers as f named (name :: names) t) (has : AreStorable as) {e : Entry}
    (he : entryAt t (c.entriesDir.joinName name) = some e) :
    c.Covers as f (named ++ [e.raw.digest, e.optimized.digest]) names t := by
  refine ⟨h.toRepresents, fun k a hk => ?_⟩
  rcases h.named k a hk with hmem | hnamed
  · refine (List.mem_cons.mp hmem).symm.imp_right fun hfile digest hdigest => ?_
    obtain ⟨now, hentry⟩ := h.toRepresents.entryAt has hk
    have hpath : c.entriesDir.joinName name = c.entryPath k.text := by rw [← hfile]; rfl
    rw [hpath, hentry] at he
    rw [← Option.some.inj he]
    exact List.mem_append_right _ hdigest
  · exact .inr fun digest hdigest => List.mem_append_left _ (hnamed digest hdigest)

/-- An entry is removed. -/
lemma discard (h : c.Covers as f named (name :: names) t) (hname : IsName name)
    (hr : RemovesFile (c.entriesDir.joinName name) t t') :
    c.Covers as (without [name] f) named names t' := by
  refine ⟨h.toRepresents.removesFile_entry hname hr, fun k a hk => ?_⟩
  obtain ⟨hfile, hk⟩ := without_eq_some.mp hk
  refine (h.named k a hk).imp_left fun hmem => (List.mem_cons.mp hmem).resolve_left ?_
  exact fun heq => hfile (List.mem_singleton.mpr heq)

end Covers

lemma ensures_pruneEntries_candid (has : AreStorable as) (version : String) {named : List String}
    {removed : ℕ} {names : List String} (hnames : ∀ name ∈ names, IsName name) :
    Ensures (Candid fun t => ∃ f, c.Covers as f named names t)
      (c.pruneEntries version named removed names).run
      (Ends (Candid (c.IsIntact as)) fun r => Candid fun t => ∃ f, c.Covers as f r.1 [] t) := by
  induction names generalizing named removed with
  | nil => exact Ensures.pure_ok fun h hh => hh
  | cons name names ih =>
    obtain ⟨hname, hrest⟩ := List.forall_mem_cons.mp hnames
    refine Ensures.bind_ok (Ensures.lift (ensures_readEntry_candid _)) fun r => ?_
    rcases hkept : r.filter (·.toolchain == version) with _ | e
    · rw [hkept]
      refine Ensures.bind_ok ((ensures_discard_candid _).mono (Ends.imp (fun _ hh => ?_)
        fun _ _ hh => hh)) fun _ => (ih hrest).weaken fun h hh => ?_
      · exact hh.mono fun t ⟨⟨f, hf⟩, _⟩ => hf.isIntact
      · exact hh.mono fun t' ⟨t, ⟨⟨f, hf⟩, _⟩, hr⟩ => ⟨_, hf.discard hname hr⟩
    · have hr : r = some e := (Option.filter_eq_some_iff.mp hkept).1
      rw [hkept]
      exact (ih hrest).weaken fun h hh => hh.mono fun t ⟨⟨f, hf⟩, he⟩ =>
        ⟨f, hf.keep has (he e hr)⟩

lemma keeps_pruneBlobs {named : List String} {removed : ℕ} {names : List String}
    (hnames : ∀ name ∈ names, IsName name)
    (hneeded : ∀ k a, f k = some a → ∀ digest ∈ a.digests, digest ∈ named) :
    Keeps (Candid (c.Represents as f)) (c.pruneBlobs named removed names).run := by
  induction names generalizing removed with
  | nil => exact Keeps.pure_ok _
  | cons name names ih =>
    obtain ⟨hname, hrest⟩ := List.forall_mem_cons.mp hnames
    rw [pruneBlobs]
    split_ifs with hnamed
    · exact ih hrest
    · rw [List.contains_iff_mem] at hnamed
      refine Keeps.bind_ok (keeps_iff_ends.mpr ((ensures_discard_candid _).mono (Ends.imp
        (fun _ hh => hh) fun _ _ hh => hh.mono ?_))) fun _ => ih hrest
      rintro t' ⟨t, ht, hr⟩
      exact ht.removesFile_blob hname (fun k a hk hmem => hnamed (hneeded k a hk _ hmem)) hr

/-- Pruning leaves a map, whether it succeeds or not. -/
lemma ensures_prune_candid (has : AreStorable as) (version : String) :
    Ensures (fun h => Candid (c.IsIntact as) h ∧ h.refuse h.steps = none) (c.prune version).run
      fun _ => Candid (c.IsIntact as) := by
  have hentries : c.entriesDir.text.toList ≠ [] := Tree.text_joinName_ne_nil _ isName_entries
  have hblobs : c.blobsDir.text.toList ≠ [] := Tree.text_joinName_ne_nil _ isName_blobs
  refine ensures_same.mp (Ensures.bind_ok ((ensures_filesIn_candid c.entriesDir True).weaken
    fun h hh => ⟨hh.1, fun _ => hh.2⟩) fun names h hh => ?_)
  obtain ⟨⟨f, hf⟩, hsub, -⟩ := hh.tree
  have hnames : ∀ name ∈ names, IsName name := fun name hname =>
    ((mem_visibleFiles hentries hf.proper.entries).mp (hsub name hname)).1
  refine Ensures.bind_ok (ensures_pruneEntries_candid has version hnames) (fun r => ?_) h
    (hh.mono fun t ⟨⟨f, hf⟩, _, hall⟩ => ⟨f, hf, fun k a hk => .inl ?_⟩)
  · refine Ensures.bind_ok ((ensures_filesIn_candid c.blobsDir False).mono (Ends.imp
      (fun _ hh => hh.mono fun t ⟨f, hf⟩ => hf.isIntact) fun _ _ hh => hh) |>.weaken
        fun h hh => ⟨hh, False.elim⟩) fun names h hh => ?_
    obtain ⟨⟨f, hf⟩, hsub, -⟩ := hh.tree
    have hneeded : ∀ k a, f k = some a → ∀ digest ∈ a.digests, digest ∈ r.1 := fun k a hk =>
      (hf.named k a hk).resolve_left List.not_mem_nil
    have hnames : ∀ name ∈ names, IsName name := fun name hname =>
      ((mem_visibleFiles hblobs hf.proper.blobs).mp (hsub name hname)).1
    refine Ensures.bind_ok (keeps_iff_ends.mp (keeps_pruneBlobs hnames hneeded) |>.mono (Ends.imp
      (fun _ hh => hh.mono fun _ ht => ht.isIntact) fun _ _ hh => hh)) (fun _ => ?_) h ?_
    · exact Ensures.pure_ok fun h hh => hh.mono fun _ ht => ht.isIntact
    · exact { hh with tree := hf.toRepresents }
  · rw [hall trivial, hf.mem_entries]
    exact ⟨k, by rw [hk]; simp, rfl⟩

/-! ### Clearing -/

lemma keeps_filesIn (hP : Quiet P) (dir : Path) : Keeps P (filesIn dir).run := by
  refine ensures_result (hP _ _) fun r => ?_
  rcases r with fault | (⟨content, x⟩ | _ | _)
  · exact Keeps.pure_ok _
  · exact Keeps.pure_ok _
  · refine ensures_result (hP _ _) fun r => ?_
    cases r with
    | ok names => exact Keeps.pure_ok _
    | error fault => exact Keeps.throw _
  · exact Keeps.pure_ok _

lemma keeps_stats (hP : Quiet P) : Keeps P c.stats.run := by
  refine (keeps_filesIn hP _).bind_ok fun entries => (keeps_filesIn hP _).bind_ok fun blobs => ?_
  refine (Keeps.mapM_ok (fun name => Keeps.lift ?_) blobs).bind_ok fun sizes => Keeps.pure_ok _
  refine Keeps.bind (hP _ _) fun r => ?_
  cases r with
  | ok content => exact Keeps.pure _
  | error fault => exact Keeps.pure _

lemma ensures_removeTree_candid (dir : Path) : Ensures (Candid T) (removeTree dir).run
    (Ends (Candid T) fun _ => Candid fun t' => ∃ t, T t ∧ RemovesTree dir t t') := by
  refine ensures_result (ensures_alter_candid (·.removeDirectory dir)) fun r => ?_
  cases r with
  | ok _ =>
    exact Ensures.pure_ok fun h hh => hh.mono fun t' ⟨t, ht, hok⟩ =>
      ⟨t, ht, .inl (Tree.removeDirectory_eq_ok hok)⟩
  | error fault =>
    dsimp only
    split_ifs with hfault
    · exact Ensures.pure_ok fun h hh => hh.mono fun t ⟨ht, hnone⟩ =>
        ⟨t, ht, .inr ⟨Tree.look_of_removeDirectory (hnone hfault), rfl⟩⟩
    · exact fun h hh => hh.mono fun t ht => ht.1

/-- Clearing leaves a map, whether it succeeds or not. -/
lemma keeps_clear : Keeps (Candid (c.IsIntact as)) c.clear.run := by
  refine (keeps_stats quiet_candid).bind_ok fun before => keeps_iff_ends.mpr ?_
  have hentries : Ensures (Candid (c.IsIntact as)) (removeTree c.entriesDir).run
      (Ends (Candid (c.IsIntact as)) fun _ => Candid (c.Represents as fun _ => none)) :=
    (ensures_removeTree_candid _).mono (Ends.imp (fun _ hh => hh) fun _ _ hh =>
      hh.mono fun t' ⟨t, ⟨f, hf⟩, hr⟩ => hf.clears_entries hr)
  have hblobs : Ensures (Candid (c.Represents as fun _ => none)) (removeTree c.blobsDir).run
      (Ends (Candid (c.IsIntact as)) fun _ => Candid (c.IsIntact as)) :=
    (ensures_removeTree_candid _).mono (Ends.imp (fun _ hh => hh.mono fun _ ht => ht.isIntact)
      fun _ _ hh => hh.mono fun t' ⟨t, ht, hr⟩ => (ht.clears_blobs hr).isIntact)
  exact Ensures.bind_ok hentries fun _ => Ensures.bind_ok hblobs fun _ =>
    Ensures.pure_ok fun _ hh => hh

end ContractBuild.Cache

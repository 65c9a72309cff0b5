import Mathlib
import ContractBuild.Proofs.Cache.Interruption

/-!
Blobs that others have tampered with. An entry names its blobs by their digests, and nobody but a
store of its key writes it, so that whatever stands in the directory of the blobs, what was found
under a key is found again or is missing.
-/

namespace ContractBuild

open ContractBuild.Disk ContractBuild.Host ContractBuild.Text ContractBuild.Digest

-- no digest is computed here, and publishing is known by what it ensures
attribute [local irreducible] sha256Hex publish

namespace Disk.Tree

variable {t t' : Tree} {dir place : Place}

/-- Nothing is different but what stands at a place and below it. -/
structure ChangesBelow (place : Place) (t t' : Tree) : Prop where
  start : t'.start = t.start
  others : ∀ p, ¬ place <+: p → t'.get? p = t.get? p

lemma ChangesBelow.spares (h : ChangesBelow place t t')
    (hapart : ∀ name rest, ¬ place <+: dir ++ name :: rest) : Spares dir t t' :=
  ⟨h.start, fun name rest _ _ hget => by rwa [h.others _ (hapart name rest)] at hget⟩

lemma spares_eraseAll (dir place : Place) (t : Tree) : Spares dir t (t.eraseAll place) := by
  refine ⟨rfl, fun name rest content x h => ?_⟩
  by_cases hplace : place = []
  · subst hplace
    have hnone : (t.eraseAll []).get? (dir ++ name :: rest) = none := by simp [get?, eraseAll]
    rw [hnone] at h
    cases h
  · rw [get?_eraseAll t hplace] at h
    split_ifs at h
    exact h

end Disk.Tree

namespace Cache

variable {c : Cache} {P : Host → Prop}

/-! ### Removing -/

section

variable (hquiet : Quiet P) (hfile : ∀ p, Keeps P (removeFile p).run)

include hfile in
lemma keeps_discard (p : Path) : Keeps P (discard p).run := by
  refine ensures_result (hfile p) fun r => ?_
  cases r with
  | ok _ => exact Keeps.pure_ok _
  | error fault =>
    dsimp only
    split_ifs
    · exact Keeps.pure_ok _
    · exact Keeps.throw _

include hfile in
lemma keeps_pruneBlobs_of (named : List String) (removed : ℕ) (names : List String) :
    Keeps P (c.pruneBlobs named removed names).run := by
  induction names generalizing removed with
  | nil => exact Keeps.pure_ok _
  | cons name names ih =>
    rw [pruneBlobs]
    split_ifs
    · exact ih _
    · exact (keeps_discard hfile _).bind_ok fun _ => ih _

include hquiet hfile

lemma keeps_pruneEntries_of (version : String) (named : List String) (removed : ℕ)
    (names : List String) : Keeps P (c.pruneEntries version named removed names).run := by
  induction names generalizing named removed with
  | nil => exact Keeps.pure_ok _
  | cons name names ih =>
    refine (Keeps.lift (keeps_readEntry hquiet _)).bind_ok fun r => ?_
    split
    · exact ih _ _
    · exact (keeps_discard hfile _).bind_ok fun _ => ih _ _

/-- Pruning keeps what looking at files and removing them keeps. -/
lemma keeps_prune_of (version : String) : Keeps P (c.prune version).run := by
  refine (keeps_filesIn hquiet _).bind_ok fun entries => ?_
  refine (keeps_pruneEntries_of hquiet hfile version _ _ _).bind_ok fun r => ?_
  refine (keeps_filesIn hquiet _).bind_ok fun blobs => ?_
  exact (keeps_pruneBlobs_of hfile _ _ _).bind_ok fun removed => Keeps.pure_ok _

end

lemma keeps_removeTree {dir : Path} (h : Keeps P (alter (·.removeDirectory dir)).run) :
    Keeps P (removeTree dir).run := by
  refine ensures_result h fun r => ?_
  cases r with
  | ok _ => exact Keeps.pure_ok _
  | error fault =>
    dsimp only
    split_ifs
    · exact Keeps.pure_ok _
    · exact Keeps.throw _

/-- Clearing keeps what looking at files and removing directories keeps. -/
lemma keeps_clear_of (hquiet : Quiet P)
    (hdirectory : ∀ p, Keeps P (alter (·.removeDirectory p)).run) : Keeps P c.clear.run := by
  refine (keeps_stats hquiet).bind_ok fun before => ?_
  refine (keeps_removeTree (hdirectory _)).bind_ok fun _ => ?_
  exact (keeps_removeTree (hdirectory _)).bind_ok fun _ => Keeps.pure_ok _

/-! ### An entry that nobody writes -/

/-- The entry that stands in a tree under a key. -/
def HasEntry (c : Cache) (t₀ : Tree) (k : Key) (e : Entry) : Prop :=
  ∃ content x, t₀.get? (c.place t₀ ++ ["entries", k.file]) = some (.file content x) ∧
    Entry.decode? content = some e

lemma HasEntry.unique {t₀ : Tree} {k : Key} {e e' : Entry} (h : c.HasEntry t₀ k e)
    (h' : c.HasEntry t₀ k e') : e = e' := by
  obtain ⟨content, x, hget, hdecode⟩ := h
  obtain ⟨content', x', hget', hdecode'⟩ := h'
  rw [hget] at hget'
  obtain ⟨rfl, rfl⟩ : content = content' ∧ x = x' := by simpa using hget'
  exact Option.some.inj (hdecode.symm.trans hdecode')

/-- Among the entries, the file of a key holds what it holds in a tree. -/
def Retains (c : Cache) (t₀ : Tree) (k : Key) (place : Place) (content : Bytes) : Prop :=
  place = [k.file] → ∃ x, t₀.get? (c.place t₀ ++ ["entries", k.file]) = some (.file content x)

/-- Others write no entries, and that of the key, if there is one, is as it was. -/
abbrev Guarded (c : Cache) (t₀ : Tree) (k : Key) : Host → Prop :=
  Calm (c.place t₀ ++ ["entries"])
    (Tended (c.place t₀ ++ ["entries"]) (c.Retains t₀ k) t₀.start)

variable {t₀ : Tree} {k : Key}

lemma hides_retains : Hides (c.Retains t₀ k) := by
  intro place n content hhidden hplace
  obtain ⟨-, hn⟩ := List.append_inj' (hplace.trans (List.nil_append _).symm) rfl
  rw [List.cons.inj hn |>.1, k.isHidden_file] at hhidden
  cases hhidden

/-- Who changes blobs only leaves the entries. -/
lemma spares_entries {t t' : Tree} (h : Tree.ChangesBelow (c.place t₀ ++ ["blobs"]) t t') :
    Tree.Spares (c.place t₀ ++ ["entries"]) t t' := by
  refine h.spares fun name rest hprefix => ?_
  rw [List.append_assoc, List.prefix_append_right_inj] at hprefix
  obtain ⟨tail, htail⟩ := hprefix
  exact absurd (List.cons.inj htail).1 (by decide)

lemma guarded_self {h : Host}
    (hothers : ∀ n t, Tree.ChangesBelow (c.place h.tree ++ ["blobs"]) t (h.change n t)) :
    c.Guarded h.tree k h := by
  refine ⟨fun n t => spares_entries (hothers n t), fun name rest content x hget hplace => ?_, rfl⟩
  rw [hplace, List.append_assoc] at hget
  exact ⟨x, hget⟩

/-! ### Requests -/

lemma keeps_guarded_store {k' : Key} (hk : k ≠ k') (a : Artifact) :
    Keeps (c.Guarded t₀ k) (c.store k'.text a).run := by
  have hblob : ∀ content, Tree.Admits (c.place t₀ ++ ["entries"]) (c.Retains t₀ k)
      ((c.blobPath (sha256Hex content)).destination t₀.start) content := by
    intro content name rest hplace
    rw [place_blob, List.append_assoc, List.append_cancel_left_eq] at hplace
    exact absurd (List.cons.inj hplace).1 (by decide)
  refine keeps_tended_store hides_retains (hblob _) (hblob _) fun now name rest hplace => ?_
  rw [place_entry, List.append_assoc, List.append_cancel_left_eq] at hplace
  intro hkey
  have hfile : [k'.file] = [k.file] := (List.cons.inj hplace).2.trans hkey
  exact absurd (Key.file_injective (List.cons.inj hfile).1).symm hk

lemma keeps_guarded_removeDirectory (p : Path) :
    Keeps (c.Guarded t₀ k) (alter (·.removeDirectory p)).run := by
  refine keeps_alter stable_tended fun t t' ht hok => ?_
  rw [(Tree.removeDirectory_eq_ok hok).2]
  exact ht.spares (Tree.spares_eraseAll _ _ _)

lemma keeps_guarded_operation {o : Operation} (ho : ∀ a, o ≠ .store k a) :
    Keeps (c.Guarded t₀ k) (o.run c).run := by
  have hquiet : Quiet (c.Guarded t₀ k) := quiet_calm stable_tended
  cases o with
  | store k' a =>
    have hk : k ≠ k' := fun hk => ho a (hk ▸ rfl)
    exact (keeps_guarded_store hk a).bind_ok fun _ => Keeps.pure_ok _
  | prune version =>
    exact (keeps_prune_of hquiet keeps_removeFile version).bind_ok fun _ => Keeps.pure_ok _
  | clear =>
    exact (keeps_clear_of hquiet keeps_guarded_removeDirectory).bind_ok fun _ => Keeps.pure_ok _

/-- Requests that store nothing under the key leave its entry or remove it. -/
lemma keeps_guarded_tryAll {later : List Trial}
    (hlater : ∀ r ∈ later, ∀ a, r.operation ≠ .store k a) :
    Keeps (c.Guarded t₀ k) (tryAll c later) := by
  refine Keeps.forM fun r hr => Keeps.bind (fun h hh => ⟨hh.others, hh.tree⟩) fun _ => ?_
  exact (keeps_guarded_operation (hlater r hr)).bind fun _ => Keeps.pure _

/-! ### Looking up -/

/-- The artifact fits what the entry says of it. -/
structure Entry.Describes (e : Entry) (a : Artifact) : Prop where
  raw : sha256Hex a.raw = e.raw.digest
  optimized : sha256Hex a.optimized = e.optimized.digest
  mode : a.mode = e.mode
  toolchain : a.toolchain = e.toolchain

/-- An entry describes one artifact at most, if digests tell contents apart. -/
lemma Entry.Describes.eq {e : Entry} {a b : Artifact} (ha : e.Describes a) (hb : e.Describes b)
    (hdigest : ∀ x ∈ a.contents, ∀ y ∈ b.contents, sha256Hex x = sha256Hex y → x = y) : b = a := by
  have hraw : a.raw = b.raw := hdigest _ (by simp [Artifact.contents]) _
    (by simp [Artifact.contents]) (ha.raw.trans hb.raw.symm)
  have hoptimized : a.optimized = b.optimized := hdigest _ (by simp [Artifact.contents]) _
    (by simp [Artifact.contents]) (ha.optimized.trans hb.optimized.symm)
  have hmode : a.mode = b.mode := ha.mode.trans hb.mode.symm
  have htoolchain : a.toolchain = b.toolchain := ha.toolchain.trans hb.toolchain.symm
  cases a
  cases b
  simp_all

lemma ensures_readEntry_guarded : Ensures (c.Guarded t₀ k) (readEntry (c.entryPath k.text))
    fun r h => c.Guarded t₀ k h ∧ ∀ e, r = some e → c.HasEntry t₀ k e := by
  refine (ensures_read _).bind fun r => ?_
  cases r with
  | error fault => exact fun h hh => ⟨hh, nofun⟩
  | ok content =>
    intro h hh
    obtain ⟨htended, x, hget⟩ := hh.tree
    refine ⟨hh.mono fun t ht => ht.1, fun e he => ?_⟩
    have hplace : (c.entryPath k.text).destination t₀.start =
        c.place t₀ ++ ["entries"] ++ k.file :: [] := by
      rw [place_entry, List.append_assoc]
      rfl
    rw [hplace] at hget
    obtain ⟨x, hold⟩ := htended.sound _ _ _ _ hget rfl
    exact ⟨content, x, hold, he⟩

/-- Whatever stands there, a blob that is read fits its digest. -/
lemma ensures_readBlob_fits (hquiet : Quiet P) (b : Blob) : Ensures P (c.readBlob b) fun r h =>
    P h ∧ ∀ content, r = some content → sha256Hex content = b.digest := by
  refine Ensures.bind (Q := fun _ => P) (hquiet _ _) fun r => ?_
  cases r with
  | error fault => exact fun h hh => ⟨hh, nofun⟩
  | ok content =>
    refine fun h hh => ⟨hh, fun content' he => ?_⟩
    change (if content.length = b.size ∧ sha256Hex content = b.digest then some content else none) =
      some content' at he
    split_ifs at he with hfits
    cases he
    exact hfits.2

/-- What is found fits the entry of the key. -/
def Answers (c : Cache) (t₀ : Tree) (k : Key) (r : Option Artifact) (h : Host) : Prop :=
  c.Guarded t₀ k h ∧ ∀ a, r = some a → ∃ e, c.HasEntry t₀ k e ∧ e.Describes a

lemma ensures_lookup_guarded : Ensures (c.Guarded t₀ k) (c.lookup k.text) (c.Answers t₀ k) := by
  have hquiet : Quiet (c.Guarded t₀ k) := quiet_calm stable_tended
  refine ensures_readEntry_guarded.bind fun r => ?_
  cases r with
  | none => exact fun h hh => ⟨hh.1, nofun⟩
  | some e =>
    rintro h ⟨hh, he⟩
    dsimp only
    split_ifs
    · exact ⟨hh, nofun⟩
    refine Ensures.bind (ensures_readBlob_fits hquiet e.raw) (fun raw => ?_) h hh
    cases raw with
    | none => exact fun h hh => ⟨hh.1, nofun⟩
    | some raw =>
      rintro h ⟨hh, hraw⟩
      refine Ensures.bind (ensures_readBlob_fits hquiet e.optimized) (fun optimized => ?_) h hh
      cases optimized with
      | none => exact fun h hh => ⟨hh.1, nofun⟩
      | some optimized =>
        rintro h ⟨hh, hoptimized⟩
        refine ⟨hh, fun a ha => ⟨e, he e rfl, ?_⟩⟩
        obtain rfl := (Option.some.inj ha).symm
        exact ⟨hraw raw rfl, hoptimized optimized rfl, rfl, rfl⟩

/-- When what is found under a key was stored: looking up reads the entry first. -/
def storedAt (c : Cache) (k : Key) (h : Host) : Option String :=
  (readEntry (c.entryPath k.text) h : Option Entry × Host).1.map (·.createdAt)

/-- Something is found only if there is an entry. -/
lemma exists_entry_of_lookup {h : Host} {key : String} {a : Artifact}
    (hfound : (c.lookup key h : Option Artifact × Host).1 = some a) :
    ∃ e, (readEntry (c.entryPath key) h : Option Entry × Host).1 = some e := by
  have hensures : Ensures (· = h) (c.lookup key) fun r _ => r = some a →
      ∃ e, (readEntry (c.entryPath key) h : Option Entry × Host).1 = some e := by
    refine Ensures.bind (Q := fun r _ => (readEntry (c.entryPath key) h).1 = r) ?_ fun r => ?_
    · rintro _ rfl
      rfl
    · cases r with
      | none => exact fun _ _ => nofun
      | some e => exact fun _ he _ => ⟨e, he⟩
  exact hensures h rfl hfound

lemma storedAt_eq {h : Host} (hh : c.Guarded t₀ k h) {a : Artifact}
    (hfound : (c.lookup k.text h : Option Artifact × Host).1 = some a) {e : Entry}
    (he : c.HasEntry t₀ k e) : c.storedAt k h = some e.createdAt := by
  obtain ⟨e', hread⟩ := exists_entry_of_lookup hfound
  rw [storedAt, hread, ((ensures_readEntry_guarded h hh).2 e' hread).unique he]
  rfl

/-- **Damaged blobs are only missed.** Let something be found under a key, and then let requests be
made that store nothing under that key, while others do what they like with the directory of the
blobs, before any step. Then the key gives the same artifact, stored at the same time, or
nothing. -/
theorem lookup_of_tampered {h h₁ h₂ : Host} {a : Artifact} {later : List Trial}
    (hothers : ∀ n t, Tree.ChangesBelow (c.place h.tree ++ ["blobs"]) t (h.change n t))
    (hfound : (c.lookup k.text h : Option Artifact × Host) = (some a, h₁))
    (hlater : ∀ r ∈ later, ∀ b, r.operation ≠ .store k b)
    (hrun : (tryAll c later h₁ : Unit × Host) = ((), h₂))
    (hdigest : ∀ b, (c.lookup k.text h₂ : Option Artifact × Host).1 = some b →
      ∀ x ∈ a.contents, ∀ y ∈ b.contents, sha256Hex x = sha256Hex y → x = y) :
    (c.lookup k.text h₂ : Option Artifact × Host).1 = none ∨
      (c.lookup k.text h₂ : Option Artifact × Host).1 = some a ∧
        c.storedAt k h₂ = c.storedAt k h := by
  have hh : c.Guarded h.tree k h := guarded_self hothers
  have hanswers := ensures_lookup_guarded h hh
  rw [hfound] at hanswers
  obtain ⟨hh₁, hdescribes⟩ := hanswers
  have hh₂ : c.Guarded h.tree k h₂ := (keeps_guarded_tryAll hlater).of_eq hh₁ hrun
  obtain ⟨-, hdescribes'⟩ := ensures_lookup_guarded h₂ hh₂
  rcases hb : (c.lookup k.text h₂ : Option Artifact × Host).1 with _ | b
  · exact .inl rfl
  · obtain ⟨e, he, ha⟩ := hdescribes a rfl
    obtain ⟨e', he', hb'⟩ := hdescribes' b hb
    obtain rfl := he.unique he'
    refine .inr ⟨by rw [ha.eq hb' (hdigest b hb)], ?_⟩
    rw [storedAt_eq hh (by rw [hfound]) he, storedAt_eq hh₂ hb he]

/-- The host after a step that only looks. -/
def after (h : Host) : Host := { h with tree := h.change h.steps h.tree, steps := h.steps + 1 }

lemma run_read {h : Host} (hwilling : h.refuse h.steps = none) (p : Path) :
    (Host.read p).run h = ((after h).tree.read p, after h) := by
  change (step fun t => (t.read p).map (·, t)) h = _
  simp only [step, hwilling, after]
  rcases (h.change h.steps h.tree).read p with _ | _ <;> rfl

lemma run_readEntry {h : Host} (hwilling : h.refuse h.steps = none) (p : Path) :
    readEntry p h = (entryAt (after h).tree p, after h) := by
  have hrun := run_read hwilling p
  simp only [readEntry, entryAt, bind, StateT.bind, hrun]
  rcases (after h).tree.read p with _ | _ <;> rfl

lemma run_readBlob {h : Host} (hwilling : h.refuse h.steps = none) (b : Blob) :
    c.readBlob b h = (c.blobAt (after h).tree b, after h) := by
  have hrun := run_read hwilling (c.blobPath b.digest)
  simp only [readBlob, blobAt, bind, StateT.bind, hrun]
  rcases (after h).tree.read (c.blobPath b.digest) with _ | _
  · rfl
  · simp only [Except.toOption, Option.filter, decide_eq_true_eq]
    rfl

/-- What looking up gives while others change the files, if no step is refused. -/
lemma run_lookup {h : Host} (hwilling : ∀ n, h.steps ≤ n → h.refuse n = none) {key : String}
    {e : Entry} (he : entryAt (after h).tree (c.entryPath key) = some e) (hkey : e.key = key) :
    c.lookup key h =
      match c.blobAt (after (after h)).tree e.raw with
      | none => (none, after (after h))
      | some raw => ((c.blobAt (after (after (after h))).tree e.optimized).map fun optimized =>
          ⟨raw, optimized, e.mode, e.toolchain⟩, after (after (after h))) := by
  have hentry := run_readEntry (h := h) (hwilling _ le_rfl) (c.entryPath key)
  have hraw := run_readBlob (c := c) (h := after h) (hwilling _ (by simp [after])) e.raw
  have hoptimized := run_readBlob (c := c) (h := after (after h))
    (hwilling _ (by simp only [after]; omega)) e.optimized
  simp only [lookup, bind, StateT.bind, hentry, he, hkey, ne_eq, not_true_eq_false, if_false, hraw]
  rcases c.blobAt (after (after h)).tree e.raw with _ | raw
  · rfl
  · simp only [StateT.bind, hoptimized]
    rcases c.blobAt (after (after (after h))).tree e.optimized with _ | optimized <;> rfl

/-- An artifact that is one blob. -/
def stored : Artifact := ⟨[1], [1], .size, "1"⟩

def storedEntry : Entry := stored.entry left.text "2024-01-01T00:00:00Z"

def storedTree : Tree where
  nodes := [(["c"], .directory), (["c", "entries"], .directory), (["c", "blobs"], .directory),
    (["c", "entries", "l.json"], .file storedEntry.encode false),
    (["c", "blobs", sha256Hex [1]], .file [1] false)]

/-- After the artifact has been looked up once, its blob is overwritten and put back again. -/
def restored : Host where
  tree := storedTree
  change n t :=
    if n = 3 then t.put ["c", "blobs", sha256Hex [1]] (.file [2] false)
    else if n = 5 then t.put ["c", "blobs", sha256Hex [1]] (.file [1] false)
    else t

def restoredTree : Tree :=
  (storedTree.put ["c", "blobs", sha256Hex [1]] (.file [2] false)).put
    ["c", "blobs", sha256Hex [1]] (.file [1] false)

/-- In between the cache is to be cleared, but that is refused. -/
def refusedClear : Trial where
  now := "2024-01-02T00:00:00Z"
  operation := .clear
  refuse n := if n < 3 then some .accessDenied else none

lemma changesBelow_restored (n : ℕ) (t : Tree) :
    Tree.ChangesBelow ["c", "blobs"] t (restored.change n t) := by
  have hput : ∀ content, Tree.ChangesBelow ["c", "blobs"] t
      (t.put ["c", "blobs", sha256Hex [1]] (.file content false)) := by
    refine fun content => ⟨rfl, fun p hp => Tree.get?_put_of_ne ?_⟩
    rintro rfl
    exact hp ⟨[sha256Hex [1]], rfl⟩
  unfold restored
  dsimp only
  split_ifs
  · exact hput [2]
  · exact hput [1]
  · exact ⟨rfl, fun _ _ => rfl⟩

lemma entryAt_storedTree {t : Tree}
    (hplace : t.placeOf (entryPath ⟨⟨"/c"⟩⟩ left.text) = .ok ["c", "entries", "l.json"])
    (hget : t.get? ["c", "entries", "l.json"] = some (.file storedEntry.encode false)) :
    entryAt t (entryPath ⟨⟨"/c"⟩⟩ left.text) = some storedEntry := by
  have hdest := Path.destination_of_placeOf hplace
  have hread : t.read (entryPath ⟨⟨"/c"⟩⟩ left.text) = .ok storedEntry.encode :=
    Tree.read_eq_ok_iff.mpr ⟨⟨hdest ▸ hplace, by decide +kernel⟩, false, hdest ▸ hget⟩
  exact entryAt_of_read_encode hread (by decide +kernel) (by decide +kernel) (by decide +kernel)

/-- Where the tree stays as it is for three steps, a lookup finds the artifact. -/
lemma run_lookup_stored {h : Host} {t : Tree} (hwilling : ∀ n, h.steps ≤ n → h.refuse n = none)
    (htree : ∀ n < 3, (after^[n + 1] h).tree = t)
    (hentry : entryAt t (entryPath ⟨⟨"/c"⟩⟩ left.text) = some storedEntry)
    (hblob : blobAt ⟨⟨"/c"⟩⟩ t (Blob.of [1]) = some [1]) :
    lookup ⟨⟨"/c"⟩⟩ left.text h = (some stored, after^[3] h) := by
  have h0 : (after h).tree = t := htree 0 (by decide)
  have h1 : (after (after h)).tree = t := htree 1 (by decide)
  have h2 : (after (after (after h))).tree = t := htree 2 (by decide)
  have hraw : storedEntry.raw = Blob.of [1] := rfl
  have hoptimized : storedEntry.optimized = Blob.of [1] := rfl
  have hfirst : entryAt (after h).tree (entryPath ⟨⟨"/c"⟩⟩ left.text) = some storedEntry := by
    rw [h0]
    exact hentry
  have hrun := run_lookup hwilling hfirst rfl
  rw [h1, h2, hraw, hoptimized, hblob] at hrun
  exact hrun

/-- The host after the refused request. -/
def later : Host :=
  { restored with
    now := "2024-01-02T00:00:00Z"
    refuse := fun n => refusedClear.refuse (n - 3)
    tree := restoredTree
    steps := 6 }

lemma tryAll_restored :
    (tryAll ⟨⟨"/c"⟩⟩ [refusedClear] (after^[3] restored) : Unit × Host) = ((), later) := rfl

lemma lookup_restored : lookup ⟨⟨"/c"⟩⟩ left.text restored = (some stored, after^[3] restored) := by
  refine run_lookup_stored (t := storedTree) (fun _ _ => rfl) (fun n hn => ?_)
    (entryAt_storedTree (by decide +kernel) rfl) (by decide +kernel)
  interval_cases n <;> rfl

lemma lookup_later : lookup ⟨⟨"/c"⟩⟩ left.text later = (some stored, after^[3] later) := by
  have hget : restoredTree.get? ["c", "entries", "l.json"] =
      some (.file storedEntry.encode false) :=
    (Tree.get?_put_of_ne (by simp)).trans ((Tree.get?_put_of_ne (by simp)).trans rfl)
  refine run_lookup_stored (t := restoredTree) (fun n hn => ?_) (fun n hn => ?_)
    (entryAt_storedTree (by decide +kernel) hget) (by decide +kernel)
  · have hsteps : 6 ≤ n := hn
    have hrefuse : refusedClear.refuse (n - 3) = none := if_neg (by omega)
    exact hrefuse
  · interval_cases n <;> rfl

/-- The blob is found again when it is back. -/
theorem lookup_of_tampered_restored : ∃ h₁ h₂ : Host,
    lookup ⟨⟨"/c"⟩⟩ left.text restored = (some stored, h₁) ∧
      tryAll ⟨⟨"/c"⟩⟩ [refusedClear] h₁ = ((), h₂) ∧
        (lookup ⟨⟨"/c"⟩⟩ left.text h₂ : Option Artifact × Host).1 = some stored ∧
          storedAt ⟨⟨"/c"⟩⟩ left h₂ = storedAt ⟨⟨"/c"⟩⟩ left restored := by
  have hothers : ∀ r ∈ [refusedClear], ∀ b, r.operation ≠ .store left b := by
    simp [refusedClear]
  have hfound : (lookup ⟨⟨"/c"⟩⟩ left.text later : Option Artifact × Host).1 = some stored := by
    rw [lookup_later]
  have hsame : ∀ b, (lookup ⟨⟨"/c"⟩⟩ left.text later : Option Artifact × Host).1 = some b →
      ∀ x ∈ stored.contents, ∀ y ∈ b.contents, sha256Hex x = sha256Hex y → x = y := by
    rintro b hb x hx y hy -
    obtain rfl := Option.some.inj (hfound.symm.trans hb)
    have hone : ∀ z ∈ stored.contents, z = [1] := by decide
    rw [hone x hx, hone y hy]
  obtain hnone | ⟨-, hstored⟩ := lookup_of_tampered (c := ⟨⟨"/c"⟩⟩) (k := left)
    changesBelow_restored lookup_restored hothers tryAll_restored hsame
  · rw [hfound] at hnone
    cases hnone
  · exact ⟨_, _, lookup_restored, tryAll_restored, hfound, hstored⟩

end Cache

end ContractBuild

import Mathlib
import ContractBuild.Proofs.Cache.Contents

/-!
What pruning leaves of a cache directory, whatever it holds: the published entries of the version,
the published blobs that these name, and everything that is not a published file. To prune again
changes nothing. An entry that cannot be read goes, whatever it is; and what cannot be listed stays.
-/

namespace ContractBuild.Cache

open ContractBuild.Disk ContractBuild.Host ContractBuild.Text

variable {c : Cache} {t t' t'' : Tree} {version name : String} {dir : Path} {content : Bytes}

/-! ### Published files -/

/-- A file of a directory that is not hidden. -/
structure Publishes (t : Tree) (dir : Path) (name : String) (content : Bytes) : Prop where
  isName : IsName name
  visible : isHidden name = false
  read : t.read (dir.joinName name) = .ok content

/-- The published files of a directory that a change takes away. -/
def lost (dir : Path) (t t' : Tree) : Set String :=
  {name | (∃ content, Publishes t dir name content) ∧ ∀ content, ¬ Publishes t' dir name content}

lemma lost_eq_empty (h : ∀ name content, Publishes t dir name content →
    Publishes t' dir name content) : lost dir t t' = ∅ :=
  Set.eq_empty_of_forall_notMem fun name ⟨⟨content, hcontent⟩, hnot⟩ =>
    hnot content (h name content hcontent)

lemma mem_visibleFiles_iff (hdir : dir.text.toList ≠ [])
    (hproper : ∀ name, t.get? (dir.destination t.start ++ [name]) ≠ none → IsName name) :
    name ∈ visibleFiles t dir ↔ ∃ content, Publishes t dir name content := by
  rw [mem_visibleFiles hdir hproper]
  constructor
  · rintro ⟨hname, hvisible, content, hread⟩
    exact ⟨content, hname, hvisible, hread⟩
  · rintro ⟨content, h⟩
    exact ⟨h.isName, h.visible, content, h.read⟩

/-- Where a published file stands. -/
lemma Publishes.get? (h : Publishes t dir name content) :
    ∃ x, t.get? (dir.destination t.start ++ [name]) = some (.file content x) := by
  obtain ⟨-, x, hget⟩ := Tree.read_eq_ok_iff.mp h.read
  rw [Path.destination_joinName _ _ h.isName] at hget
  exact ⟨x, hget⟩

/-- Files that are removed are published no more, and all others stay. -/
lemma publishes_of_removes {gone : List Place} (hr : Tree.Removes gone t t') :
    Publishes t' dir name content ↔
      Publishes t dir name content ∧ dir.destination t.start ++ [name] ∉ gone := by
  constructor
  · intro h
    obtain ⟨hnot, hread⟩ := hr.read_iff.mp h.read
    rw [Path.destination_joinName _ _ h.isName] at hnot
    exact ⟨⟨h.isName, h.visible, hread⟩, hnot⟩
  · rintro ⟨h, hnot⟩
    refine ⟨h.isName, h.visible, hr.read_iff.mpr ⟨?_, h.read⟩⟩
    rwa [Path.destination_joinName _ _ h.isName]

/-! ### What stays -/

/-- The bytes of an entry that a version of the toolchain made. -/
def IsEntryOf (version : String) (content : Bytes) (e : Entry) : Prop :=
  Entry.decode? content = some e ∧ e.toolchain = version

/-- The names that pruning has come to know: the entries and the blobs that were listed, and the
entries that were read. -/
structure Seen where
  entries : Set String
  read : Set String
  blobs : Set String

/-- No name is missed. -/
def Seen.all : Seen := ⟨Set.univ, Set.univ, Set.univ⟩

/-- Published files are listed all or not at all, and only what is listed is read. -/
structure Seen.Fits (seen : Seen) (c : Cache) (t : Tree) : Prop where
  entries : seen.entries = ∅ ∨
    ∀ name content, Publishes t c.entriesDir name content → name ∈ seen.entries
  read : seen.read ⊆ seen.entries
  blobs : seen.blobs = ∅ ∨
    ∀ name content, Publishes t c.blobsDir name content → name ∈ seen.blobs

/-- A published entry of the version that was read names the digest. -/
def IsNamed (c : Cache) (t : Tree) (version : String) (read : Set String) (digest : String) : Prop :=
  ∃ name ∈ read, ∃ content e,
    Publishes t c.entriesDir name content ∧ IsEntryOf version content e ∧ digest ∈ e.digests

/-- One tree is the other one without the published files that pruning is to remove by what it has
seen. -/
structure IsPruned (c : Cache) (version : String) (seen : Seen) (t t' : Tree) : Prop where
  start : t'.start = t.start
  entries : ∀ name content, Publishes t' c.entriesDir name content ↔
    Publishes t c.entriesDir name content ∧
      (name ∈ seen.entries → name ∈ seen.read ∧ ∃ e, IsEntryOf version content e)
  blobs : ∀ name content, Publishes t' c.blobsDir name content ↔
    Publishes t c.blobsDir name content ∧ (name ∈ seen.blobs → c.IsNamed t version seen.read name)
  /-- What is left is as it was. -/
  unchanged : ∀ place n, t'.get? place = some n → t.get? place = some n
  /-- Only published files of the two directories are gone. -/
  others : ∀ place, t'.get? place ≠ t.get? place → ∃ name content,
    Publishes t c.entriesDir name content ∧ place = c.place t ++ ["entries", name] ∨
      Publishes t c.blobsDir name content ∧ place = c.place t ++ ["blobs", name]

/-- It is enough that no published file is missed. -/
lemma IsPruned.all {seen : Seen} (h : c.IsPruned version seen t t')
    (hentries : ∀ name content, Publishes t c.entriesDir name content →
      name ∈ seen.entries ∧ name ∈ seen.read)
    (hblobs : ∀ name content, Publishes t c.blobsDir name content → name ∈ seen.blobs) :
    c.IsPruned version .all t t' := by
  have hnamed : ∀ digest, c.IsNamed t version seen.read digest ↔
      c.IsNamed t version Set.univ digest := by
    refine fun digest => ⟨fun ⟨name, _, hname⟩ => ⟨name, Set.mem_univ _, hname⟩, ?_⟩
    rintro ⟨name, -, content, e, hname, he⟩
    exact ⟨name, (hentries name content hname).2, content, e, hname, he⟩
  refine { h with entries := fun name content => ?_, blobs := fun name content => ?_ }
  · rw [h.entries]
    refine and_congr_right fun hname => ?_
    simp [Seen.all, hentries name content hname]
  · rw [h.blobs]
    refine and_congr_right fun hname => ?_
    simp [Seen.all, hblobs name content hname, hnamed]

lemma destination_entries (c : Cache) (t : Tree) (name : String) :
    c.entriesDir.destination t.start ++ [name] = c.place t ++ ["entries", name] := by
  rw [destination_entriesDir rfl, List.append_assoc]
  rfl

lemma destination_blobs (c : Cache) (t : Tree) (name : String) :
    c.blobsDir.destination t.start ++ [name] = c.place t ++ ["blobs", name] := by
  rw [destination_blobsDir rfl, List.append_assoc]
  rfl

lemma keptAt_eq_some {e : Entry} (h : Publishes t c.entriesDir name content) :
    c.keptAt t version name = some e ↔ IsEntryOf version content e := by
  rw [keptAt, entryAt, h.read, Option.filter_eq_some_iff, beq_iff_eq]
  rfl

lemma mem_outdated (h : Publishes t c.entriesDir name content) {read names : List String} :
    name ∈ c.outdated t version read names ↔
      name ∈ names ∧ ¬ (name ∈ read ∧ ∃ e, IsEntryOf version content e) := by
  rw [outdated, List.mem_filter, Bool.not_eq_true', ← Bool.not_eq_true, Bool.and_eq_true,
    List.contains_iff_mem, Option.isSome_iff_exists]
  simp only [keptAt_eq_some h]

lemma HasProperNames.mem_entries (h : c.HasProperNames t) :
    name ∈ visibleFiles t c.entriesDir ↔ ∃ content, Publishes t c.entriesDir name content :=
  mem_visibleFiles_iff (Tree.text_joinName_ne_nil _ isName_entries) h.entries

lemma HasProperNames.mem_blobs (h : c.HasProperNames t) :
    name ∈ visibleFiles t c.blobsDir ↔ ∃ content, Publishes t c.blobsDir name content :=
  mem_visibleFiles_iff (Tree.text_joinName_ne_nil _ isName_blobs) h.blobs

lemma HasProperNames.mem_namedBy (h : c.HasProperNames t) {digest : String} {read : List String}
    (hread : read ⊆ visibleFiles t c.entriesDir) :
    digest ∈ c.namedBy t version read ↔ c.IsNamed t version {name | name ∈ read} digest := by
  simp only [namedBy, List.mem_flatMap, Option.mem_toList]
  constructor
  · rintro ⟨name, hname, e, he, hdigest⟩
    obtain ⟨content, hcontent⟩ := h.mem_entries.mp (hread hname)
    exact ⟨name, hname, content, e, hcontent, (keptAt_eq_some hcontent).mp he, hdigest⟩
  · rintro ⟨name, hname, content, e, hcontent, he, hdigest⟩
    exact ⟨name, hname, e, (keptAt_eq_some hcontent).mpr he, hdigest⟩

/-! ### Pruning once -/

section

variable {between : Tree}

/-- Entries and blobs have places of their own. -/
lemma entries_not_mem_placesIn_blobs (hstart : between.start = t.start) {names : List String} :
    c.entriesDir.destination t.start ++ [name] ∉ placesIn between c.blobsDir names := by
  simp [placesIn, hstart, destination_entries, destination_blobs]

lemma blobs_not_mem_placesIn_entries {names : List String} :
    c.blobsDir.destination t.start ++ [name] ∉ placesIn t c.entriesDir names := by
  simp [placesIn, destination_entries, destination_blobs]

/-- The names in a sight. -/
def Sight.toSeen (s : Sight) : Seen :=
  ⟨{name | name ∈ s.entries}, {name | name ∈ s.read}, {name | name ∈ s.blobs}⟩

lemma subset_of_listed {listed names : List String} (h : listed = names ∨ listed = []) :
    listed ⊆ names := by
  rcases h with rfl | rfl
  · exact List.Subset.refl _
  · exact List.nil_subset _

lemma nodup_of_listed {listed names : List String} (h : listed = names ∨ listed = [])
    (hnodup : names.Nodup) : listed.Nodup := by
  rcases h with rfl | rfl
  · exact hnodup
  · exact List.nodup_nil

namespace Sight.Fits

variable {s : Sight} (h : c.HasProperNames t) (hs : s.Fits c t between)

include h hs

/-- What is published is listed if anything is. -/
lemma exists_of_mem_entries (hname : name ∈ s.entries) :
    ∃ content, Publishes t c.entriesDir name content :=
  h.mem_entries.mp (subset_of_listed hs.entries hname)

lemma mem_namedBy {digest : String} : digest ∈ c.namedBy t version s.read ↔
    c.IsNamed t version {name | name ∈ s.read} digest :=
  h.mem_namedBy fun _ hname => subset_of_listed hs.entries (hs.read hname)

end Sight.Fits

namespace Prunes

variable {s : Sight} (h : c.HasProperNames t) (hs : s.Fits c t between)
  (hp : c.Prunes version s t between t')

include hp

lemma publishes_entries : Publishes t' c.entriesDir name content ↔
    Publishes t c.entriesDir name content ∧
      (name ∈ s.entries → name ∈ s.read ∧ ∃ e, IsEntryOf version content e) := by
  rw [publishes_of_removes (hp.entries.trans hp.blobs), List.mem_append, mem_placesIn,
    or_iff_left (entries_not_mem_placesIn_blobs hp.entries.start)]
  refine and_congr_right fun hname => ?_
  rw [mem_outdated hname, not_and_not_right]

/-- The first half of pruning leaves the blobs. -/
lemma publishes_blobs_between : Publishes between c.blobsDir name content ↔
    Publishes t c.blobsDir name content := by
  rw [publishes_of_removes hp.entries, and_iff_left blobs_not_mem_placesIn_entries]

include h hs

lemma publishes_blobs : Publishes t' c.blobsDir name content ↔
    Publishes t c.blobsDir name content ∧
      (name ∈ s.blobs → c.IsNamed t version {name | name ∈ s.read} name) := by
  rw [publishes_of_removes hp.blobs, mem_placesIn, publishes_blobs_between hp]
  refine and_congr_right fun hname => ?_
  rw [List.mem_filter, ← hs.mem_namedBy h]
  simp

lemma exists_of_mem_blobs (hname : name ∈ s.blobs) :
    ∃ content, Publishes t c.blobsDir name content := by
  obtain ⟨content, hcontent⟩ :=
    (h.of_removes hp.entries).mem_blobs.mp (subset_of_listed hs.blobs hname)
  exact ⟨content, (publishes_blobs_between hp).mp hcontent⟩

lemma fits : s.toSeen.Fits c t := by
  refine ⟨?_, fun _ hname => hs.read hname, ?_⟩
  · refine hs.entries.symm.imp (fun hnone => ?_) fun hall name content hname => ?_
    · simp [Sight.toSeen, hnone]
    · change name ∈ s.entries
      rw [hall]
      exact h.mem_entries.mpr ⟨content, hname⟩
  · refine hs.blobs.symm.imp (fun hnone => ?_) fun hall name content hname => ?_
    · simp [Sight.toSeen, hnone]
    · change name ∈ s.blobs
      rw [hall]
      exact (h.of_removes hp.entries).mem_blobs.mpr
        ⟨content, (publishes_blobs_between hp).mpr hname⟩

lemma isPruned : c.IsPruned version s.toSeen t t' := by
  have hr := hp.entries.trans hp.blobs
  refine ⟨hr.start, fun _ _ => publishes_entries hp, fun _ _ => publishes_blobs h hs hp,
    fun place n hget => (hr.get?_of_some hget).2, fun place hne => ?_⟩
  have hgone := not_imp_comm.mp (fun hnot => by rw [hr.view, View.without_of_not_mem hnot]) hne
  rcases List.mem_append.mp hgone with hgone | hgone
  · obtain ⟨name, hname, rfl⟩ := List.mem_map.mp hgone
    obtain ⟨content, hcontent⟩ := hs.exists_of_mem_entries h (List.mem_of_mem_filter hname)
    exact ⟨name, content, .inl ⟨hcontent, destination_entries c t name⟩⟩
  · obtain ⟨name, hname, rfl⟩ := List.mem_map.mp hgone
    obtain ⟨content, hcontent⟩ := exists_of_mem_blobs h hs hp (List.mem_of_mem_filter hname)
    refine ⟨name, content, .inr ⟨hcontent, ?_⟩⟩
    rw [hp.entries.start]
    exact destination_blobs c t name

/-- The entries that are removed. -/
lemma mem_lost_entries : name ∈ c.outdated t version s.read s.entries ↔
    name ∈ lost c.entriesDir t t' := by
  simp only [lost, Set.mem_ofPred_eq, publishes_entries hp, not_and]
  constructor
  · intro hname
    refine ⟨hs.exists_of_mem_entries h (List.mem_of_mem_filter hname), fun content hcontent => ?_⟩
    obtain ⟨hlisted, hnot⟩ := (mem_outdated hcontent).mp hname
    exact fun hkept => hnot (hkept hlisted)
  · rintro ⟨⟨content, hcontent⟩, hnot⟩
    exact (mem_outdated hcontent).mpr (Classical.not_imp.mp (hnot content hcontent))

/-- The blobs that are removed. -/
lemma mem_lost_blobs : name ∈ s.blobs.filter (!(c.namedBy t version s.read).contains ·) ↔
    name ∈ lost c.blobsDir t t' := by
  rw [List.mem_filter, Bool.not_eq_true', ← Bool.not_eq_true, List.contains_iff_mem,
    hs.mem_namedBy h]
  simp only [lost, Set.mem_ofPred_eq, publishes_blobs h hs hp, not_and]
  constructor
  · rintro ⟨hlisted, hnot⟩
    exact ⟨exists_of_mem_blobs h hs hp hlisted, fun _ _ hkept => hnot (hkept hlisted)⟩
  · rintro ⟨⟨content, hcontent⟩, hnot⟩
    exact Classical.not_imp.mp (hnot content hcontent)

end Prunes

end

lemma encard_of_mem_iff {α : Type} {s : Set α} {l : List α} (hl : l.Nodup)
    (h : ∀ a, a ∈ l ↔ a ∈ s) : s.encard = l.length := by
  classical
  have hs : s = l.toFinset := Set.ext fun a => by rw [List.coe_toFinset, ← h]; rfl
  rw [hs, Set.encard_coe_eq_coe_finsetCard, List.toFinset_card_of_nodup hl]

lemma IsPruned.proper {seen : Seen} (h : c.IsPruned version seen t t')
    (hproper : c.HasProperNames t) : c.HasProperNames t' := by
  have hold : ∀ place, t'.get? place ≠ none → t.get? place ≠ none := fun place hget => by
    obtain ⟨n, hn⟩ := Option.ne_none_iff_exists'.mp hget
    rw [h.unchanged place n hn]
    simp
  refine ⟨fun name hget => ?_, fun name hget => ?_⟩
  · rw [h.start] at hget
    exact hproper.entries name (hold _ hget)
  · rw [h.start] at hget
    exact hproper.blobs name (hold _ hget)

/-- What pruning does if it succeeds. -/
structure Comes (c : Cache) (version : String) (report : Pruned) (seen : Seen) (h h' : Host) :
    Prop where
  fits : seen.Fits c h.tree
  pruned : c.IsPruned version seen h.tree h'.tree
  entries : (lost c.entriesDir h.tree h'.tree).encard = report.entries
  blobs : (lost c.blobsDir h.tree h'.tree).encard = report.blobs
  sees : ¬ Lapses h h' → seen = .all

/-- Pruning removes what it is to remove, and counts it. -/
lemma comes_of_prune {h h' : Host} {report : Pruned} (hh : Candid c.HasProperNames h)
    (hrun : (c.prune version).run h = (.ok report, h')) :
    (∃ seen, c.Comes version report seen h h') ∧ Candid c.HasProperNames h' := by
  have hend := c.ensures_prune_since version hh.tree h hh.since
  rw [hrun] at hend
  obtain ⟨s, between, hs, hp, hentries, hblobs, hh'⟩ := hend
  have hpruned := hp.isPruned hh.tree hs
  have hlost : (lost c.entriesDir h.tree h'.tree).encard = report.entries ∧
      (lost c.blobsDir h.tree h'.tree).encard = report.blobs := by
    rw [hentries, hblobs]
    exact ⟨encard_of_mem_iff ((nodup_of_listed hs.entries (nodup_visibleFiles _ _)).filter _)
        fun _ => hp.mem_lost_entries hh.tree hs,
      encard_of_mem_iff ((nodup_of_listed hs.blobs (nodup_visibleFiles _ _)).filter _)
        fun _ => hp.mem_lost_blobs hh.tree hs⟩
  refine ⟨?_, ⟨⟨hh'.others, hpruned.proper hh.tree⟩, hh'.answers⟩⟩
  by_cases hlapses : Lapses h h'
  · exact ⟨s.toSeen, hp.fits hh.tree hs, hpruned, hlost.1, hlost.2, absurd hlapses⟩
  · obtain rfl := hh'.sees.resolve_left hlapses
    refine ⟨.all, ⟨.inr fun _ _ _ => Set.mem_univ _, Set.subset_univ _,
      .inr fun _ _ _ => Set.mem_univ _⟩, ?_, hlost.1, hlost.2, fun _ => rfl⟩
    have hentry : ∀ name content, Publishes h.tree c.entriesDir name content →
        name ∈ visibleFiles h.tree c.entriesDir := fun name content hname =>
      hh.tree.mem_entries.mpr ⟨content, hname⟩
    refine hpruned.all (fun name content hname => ⟨hentry name content hname,
      hentry name content hname⟩) fun name content hname => ?_
    exact (hh.tree.of_removes hp.entries).mem_blobs.mpr
      ⟨content, (hp.publishes_blobs_between).mpr hname⟩

/-! ### Pruning again -/

namespace IsPruned

variable (h : c.IsPruned version .all t t') (h' : c.IsPruned version .all t' t'')

include h h'

lemma publishes_again_entries : Publishes t'' c.entriesDir name content ↔
    Publishes t' c.entriesDir name content := by
  rw [h'.entries, h.entries, and_assoc, and_self]

/-- What names a blob that is left is left itself. -/
lemma publishes_again_blobs : Publishes t'' c.blobsDir name content ↔
    Publishes t' c.blobsDir name content := by
  rw [h'.blobs, and_iff_left_iff_imp]
  intro hname _
  obtain ⟨file, hread, bytes, e, hfile, he, hdigest⟩ :=
    ((h.blobs name content).mp hname).2 (Set.mem_univ _)
  exact ⟨file, hread, bytes, e,
    (h.entries file bytes).mpr ⟨hfile, fun _ => ⟨hread, e, he⟩⟩, he, hdigest⟩

lemma get?_again (place : Place) : t''.get? place = t'.get? place := by
  by_contra hne
  -- what is gone was published, and what is published is left
  have hleft : ∀ {dir : Path} {name content}, Publishes t'' dir name content →
      dir.destination t''.start ++ [name] ≠ place := by
    rintro dir name content hcontent rfl
    obtain ⟨x, hget⟩ := hcontent.get?
    exact hne (by rw [hget, h'.unchanged _ _ hget])
  have hplace : c.place t'' = c.place t' := by rw [Cache.place, h'.start, ← Cache.place]
  obtain ⟨name, content, ⟨hcontent, rfl⟩ | ⟨hcontent, rfl⟩⟩ := h'.others place hne
  · refine hleft ((publishes_again_entries h h').mpr hcontent) ?_
    rw [destination_entries, hplace]
  · refine hleft ((publishes_again_blobs h h').mpr hcontent) ?_
    rw [destination_blobs, hplace]

end IsPruned

/-- An entry of a version that names two blobs, with its members in order. -/
def naming (version raw optimized : String) : Bytes :=
  Utf8.encode
    s!"[\"\",[\"{raw}\",1],[\"{optimized}\",1],\"size\",\"{version}\",\"2024-01-01T00:00:00Z\"]"

/-- Entries of two versions that share a blob, one that is cut short, a blob that nothing names, and
in both directories a hidden file and another directory. -/
def mixed : Host where
  tree.nodes := [
    (["c"], .directory), (["c", "entries"], .directory), (["c", "blobs"], .directory),
    (["c", "entries", "new"], .file (naming "2" "x" "y") false),
    (["c", "entries", "old.json"], .file (naming "1" "x" "z") false),
    (["c", "entries", "cut.json"], .file ((naming "2" "w" "w").take 9) false),
    (["c", "entries", ".new.json.tmp"], .file [] false),
    (["c", "entries", "sub"], .directory),
    (["c", "blobs", "x"], .file [1] false), (["c", "blobs", "y"], .file [] false),
    (["c", "blobs", "z"], .file [3] false), (["c", "blobs", "w"], .file [4] false),
    (["c", "blobs", "v"], .file [5] false), (["c", "blobs", ".x.tmp"], .file [1] false),
    (["c", "blobs", "old"], .directory)]

/-- An entry of the version goes if it may not be read. -/
example : ((prune ⟨⟨"/c"⟩⟩ "2").run { mixed with
    refuse := fun n => if n = 2 then some .accessDenied else none }).2.tree.names ["c", "entries"] =
      [".new.json.tmp", "sub"] := by
  decide +kernel

end ContractBuild.Cache

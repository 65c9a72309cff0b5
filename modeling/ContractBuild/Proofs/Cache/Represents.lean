import Mathlib
import ContractBuild.Proofs.Cache.Contents

/-!
Cache directories that represent finite maps from keys to artifacts: storing inserts, pruning keeps
the artifacts of a toolchain version, and clearing empties. Blobs are shared between artifacts and
may outlive them, but no operation takes a blob away that an artifact of the map needs.
-/

namespace ContractBuild.Cache

open ContractBuild.Digest ContractBuild.Disk ContractBuild.Host ContractBuild.Text

-- no digest is computed here, and publishing is known by what it ensures
attribute [local irreducible] sha256Hex publish

variable {c : Cache} {t t' : Tree}

/-! ### A tree that represents a map -/

namespace Artifact

def contents (a : Artifact) : List Bytes := [a.raw, a.optimized]

/-- The entry that is written for an artifact. -/
def entry (a : Artifact) (key now : String) : Entry :=
  ⟨key, .of a.raw, .of a.optimized, a.mode, a.toolchain, now⟩

end Artifact

/-- The sizes of the artifacts fit into words, and digests tell their contents apart. -/
structure AreStorable (as : List Artifact) : Prop where
  fits : ∀ a ∈ as, ∀ content ∈ a.contents, content.length < wordLimit
  digest : ∀ a ∈ as, ∀ b ∈ as, ∀ x ∈ a.contents, ∀ y ∈ b.contents,
    sha256Hex x = sha256Hex y → x = y

/-- A content can be read under its digest. -/
def HasBlob (c : Cache) (t : Tree) (content : Bytes) : Prop :=
  t.read (c.blobPath (sha256Hex content)) = .ok content

/-- The directory holds the artifacts that a map gives for its keys, and no entries besides. -/
structure Represents (c : Cache) (as : List Artifact) (f : Key → Option Artifact) (t : Tree) :
    Prop where
  start : t.start.IsProper
  proper : c.HasProperNames t
  stored : ∀ k a, f k = some a → a ∈ as
  entry : ∀ k a, f k = some a → ∃ now, Timestamp.isTimestamp now = true ∧
    t.read (c.entryPath k.text) = .ok (a.entry k.text now).encode
  blobs : ∀ k a, f k = some a → ∀ content ∈ a.contents, c.HasBlob t content
  only : ∀ name content x, isHidden name = false →
    t.get? (c.place t ++ ["entries", name]) = some (.file content x) →
      ∃ k, f k ≠ none ∧ name = k.file

variable {as : List Artifact} {f : Key → Option Artifact}

lemma blobAt_of_hasBlob {content : Bytes} (h : c.HasBlob t content) :
    c.blobAt t (.of content) = some content := by
  have hread : t.read (c.blobPath (Blob.of content).digest) = .ok content := h
  rw [blobAt, hread]
  simp [Except.toOption, Option.filter, Blob.of]

namespace Represents

lemma entryAt (h : c.Represents as f t) (has : AreStorable as) {k : Key} {a : Artifact}
    (hk : f k = some a) : ∃ now, entryAt t (c.entryPath k.text) = some (a.entry k.text now) := by
  obtain ⟨now, hnow, hread⟩ := h.entry k a hk
  have hfits := has.fits a (h.stored k a hk)
  exact ⟨now, entryAt_of_read_encode hread (hfits a.raw (by simp [Artifact.contents]))
    (hfits a.optimized (by simp [Artifact.contents])) hnow⟩

/-- What can be read at the path of a key is there because the map has the key. -/
lemma ne_none_of_read (h : c.Represents as f t) {k : Key} {content : Bytes}
    (hread : t.read (c.entryPath k.text) = .ok content) : f k ≠ none := by
  obtain ⟨-, x, hget⟩ := Tree.read_eq_ok_iff.mp hread
  rw [place_entry] at hget
  obtain ⟨k', hk', hfile⟩ := h.only k.file content x k.isHidden_file hget
  rwa [Key.file_injective hfile]

/-- Looking up gives what the map gives. -/
lemma find?_eq (h : c.Represents as f t) (has : AreStorable as) (k : Key) :
    c.find? t k.text = f k := by
  rcases hk : f k with _ | a
  · have hnone : Cache.entryAt t (c.entryPath k.text) = none := by
      rcases hread : t.read (c.entryPath k.text) with fault | content
      · rw [Cache.entryAt, hread]
        rfl
      · exact absurd hk (h.ne_none_of_read hread)
    rw [find?, hnone]
    rfl
  · obtain ⟨now, hentry⟩ := h.entryAt has hk
    have hraw := blobAt_of_hasBlob (h.blobs k a hk a.raw (by simp [Artifact.contents]))
    have hoptimized := blobAt_of_hasBlob (h.blobs k a hk a.optimized (by simp [Artifact.contents]))
    simp [find?, hentry, Artifact.entry, hraw, hoptimized]

lemma mem_entries (h : c.Represents as f t) {name : String} :
    name ∈ visibleFiles t c.entriesDir ↔ ∃ k, f k ≠ none ∧ name = k.file := by
  have hdir : c.entriesDir.text.toList ≠ [] := Tree.text_joinName_ne_nil _ isName_entries
  rw [mem_visibleFiles hdir h.proper.entries]
  constructor
  · rintro ⟨hname, hhidden, content, hread⟩
    obtain ⟨-, x, hget⟩ := Tree.read_eq_ok_iff.mp hread
    rw [Path.destination_joinName _ _ hname, destination_entriesDir rfl, List.append_assoc] at hget
    exact h.only name content x hhidden hget
  · rintro ⟨k, hk, rfl⟩
    obtain ⟨a, ha⟩ := Option.ne_none_iff_exists'.mp hk
    obtain ⟨now, -, hread⟩ := h.entry k a ha
    exact ⟨k.isName_file, k.isHidden_file, _, hread⟩

end Represents

/-! ### Storing -/

lemma entry_ne_blob (c : Cache) (t : Tree) (k : Key) (content : Bytes) :
    (c.entryPath k.text).destination t.start ≠
      (c.blobPath (sha256Hex content)).destination t.start := by
  rw [place_entry, place_blob]
  simp

/-- Every key has an entry of its own. -/
lemma key_of_entry (c : Cache) {k k' : Key}
    (h : (c.entryPath k.text).destination t.start = (c.entryPath k'.text).destination t.start) :
    k = k' := by
  rw [place_entry, place_entry] at h
  exact Key.file_injective (by simpa using h)

lemma isVisible_entry (c : Cache) (t : Tree) (k : Key) :
    IsVisible ((c.entryPath k.text).destination t.start) := by
  rw [place_entry]
  exact isVisible_below k.isHidden_file

lemma isVisible_blob (c : Cache) (t : Tree) (content : Bytes) :
    IsVisible ((c.blobPath (sha256Hex content)).destination t.start) := by
  rw [place_blob]
  exact isVisible_below (isHidden_digest content)

/-- A blob stays when a file is published that is not under its digest or has its content. -/
lemma HasBlob.replaces {target : Path} {content x : Bytes} (h : c.HasBlob t x)
    (hr : Replaces target content t t')
    (hsame : target.destination t.start = (c.blobPath (sha256Hex x)).destination t.start →
      target = c.blobPath (sha256Hex x) ∧ content = x) : c.HasBlob t' x := by
  by_cases heq : target.destination t.start = (c.blobPath (sha256Hex x)).destination t.start
  · obtain ⟨rfl, rfl⟩ := hsame heq
    exact hr.reads
  · exact hr.read (c.isVisible_blob t x) (Ne.symm heq) h

lemma HasBlob.replaces_blob {x y : Bytes} (h : c.HasBlob t x)
    (hr : Replaces (c.blobPath (sha256Hex y)) y t t') (hxy : sha256Hex x = sha256Hex y → x = y) :
    c.HasBlob t' x := by
  refine h.replaces hr fun heq => ?_
  rw [place_blob, place_blob] at heq
  have hdigest : sha256Hex y = sha256Hex x := by simpa using heq
  exact ⟨by rw [hdigest], (hxy hdigest.symm).symm⟩

lemma HasProperNames.grows (h : c.HasProperNames t) (hstart : t.start.IsProper)
    (hg : GrowsWherePathsLead t t') : c.HasProperNames t' := by
  have hnew : ∀ (dir : Place) (name : String), t'.get? (dir ++ [name]) ≠ none →
      t.get? (dir ++ [name]) ≠ none ∨ IsName name := by
    intro dir name hget
    refine (hg.leads _ hget).imp_right fun ⟨p, hp⟩ => ?_
    exact isProper_destination hstart p name (by rw [← hp]; simp)
  refine ⟨fun name hget => ?_, fun name hget => ?_⟩
  · rw [hg.start] at hget
    exact (hnew _ name hget).elim (h.entries name) id
  · rw [hg.start] at hget
    exact (hnew _ name hget).elim (h.blobs name) id

namespace Represents

/-- Where no visible file changes, the map stays as it is. -/
lemma kept (h : c.Represents as f t) (hk : KeepsVisible [] t t') : c.Represents as f t' := by
  refine ⟨hk.start ▸ h.start, h.proper.grows h.start hk.toGrowsWherePathsLead, h.stored,
    fun k b hb => ?_, fun k b hb x hx => ?_, fun name content x hhidden hget => ?_⟩
  · obtain ⟨now, hnow, hread⟩ := h.entry k b hb
    exact ⟨now, hnow, hk.read (c.isVisible_entry t k) List.not_mem_nil hread⟩
  · exact hk.read (c.isVisible_blob t x) List.not_mem_nil (h.blobs k b hb x hx)
  · rw [place, hk.start] at hget
    exact h.only name content x hhidden
      (hk.was_there (isVisible_below hhidden) List.not_mem_nil hget)

lemma replaces_blob (h : c.Represents as f t) (has : AreStorable as) {a : Artifact} (ha : a ∈ as)
    {y : Bytes} (hy : y ∈ a.contents) (hr : Replaces (c.blobPath (sha256Hex y)) y t t') :
    c.Represents as f t' := by
  have hstart := hr.start
  refine ⟨hstart ▸ h.start, h.proper.grows h.start hr.toGrowsWherePathsLead, h.stored, fun k b hk => ?_,
    fun k b hk x hx => ?_, fun name content x hhidden hget => ?_⟩
  · obtain ⟨now, hnow, hread⟩ := h.entry k b hk
    exact ⟨now, hnow, hr.read (c.isVisible_entry t k) (c.entry_ne_blob t k y) hread⟩
  · exact (h.blobs k b hk x hx).replaces_blob hr
      (has.digest b (h.stored k b hk) a ha x hx y hy)
  · rw [place, hstart] at hget
    have hold := hr.was_there (isVisible_below hhidden) (by rw [place_blob]; simp [place]) hget
    exact h.only name content x hhidden hold

lemma replaces_entry (h : c.Represents as f t) {a : Artifact} (ha : a ∈ as) {k : Key}
    {now : String} (hnow : Timestamp.isTimestamp now = true)
    (hblobs : ∀ content ∈ a.contents, c.HasBlob t content)
    (hr : Replaces (c.entryPath k.text) (a.entry k.text now).encode t t') :
    c.Represents as (Function.update f k (some a)) t' := by
  have hstart := hr.start
  have hblob : ∀ x, c.HasBlob t x → c.HasBlob t' x := fun x hx =>
    hx.replaces hr fun heq => absurd heq (c.entry_ne_blob t k x)
  have hcases : ∀ k' b, Function.update f k (some a) k' = some b →
      k' = k ∧ b = a ∨ k' ≠ k ∧ f k' = some b := by
    intro k' b hk'
    by_cases hkk : k' = k
    · subst hkk
      rw [Function.update_self] at hk'
      exact .inl ⟨rfl, (Option.some.inj hk').symm⟩
    · rw [Function.update_of_ne hkk] at hk'
      exact .inr ⟨hkk, hk'⟩
  refine ⟨hstart ▸ h.start, h.proper.grows h.start hr.toGrowsWherePathsLead, fun k' b hk' => ?_,
    fun k' b hk' => ?_, fun k' b hk' x hx => ?_, fun name content x hhidden hget => ?_⟩
  · rcases hcases k' b hk' with ⟨rfl, rfl⟩ | ⟨-, hk'⟩
    · exact ha
    · exact h.stored k' b hk'
  · rcases hcases k' b hk' with ⟨rfl, rfl⟩ | ⟨hkk, hk'⟩
    · exact ⟨now, hnow, hr.reads⟩
    · obtain ⟨now', hnow', hread⟩ := h.entry k' b hk'
      refine ⟨now', hnow', hr.read (c.isVisible_entry t k') ?_ hread⟩
      exact fun heq => hkk (c.key_of_entry heq)
  · rcases hcases k' b hk' with ⟨rfl, rfl⟩ | ⟨-, hk'⟩
    · exact hblob x (hblobs x hx)
    · exact hblob x (h.blobs k' b hk' x hx)
  · rw [place, hstart] at hget
    by_cases hname : name = k.file
    · exact ⟨k, by rw [Function.update_self]; simp, hname⟩
    · have hold := hr.was_there (isVisible_below hhidden)
        (by rw [place_entry]; simp [place, hname]) hget
      obtain ⟨k', hk', hfile⟩ := h.only name content x hhidden hold
      have hkk : k' ≠ k := by
        rintro rfl
        exact hname hfile
      exact ⟨k', by rwa [Function.update_of_ne hkk], hfile⟩

end Represents

/-- The directory represents a map, and the entry of each key was made at its time. -/
structure Records (c : Cache) (as : List Artifact) (f : Key → Option Artifact)
    (times : Key → String) (t : Tree) : Prop extends c.Represents as f t where
  dated : ∀ k a, f k = some a → t.read (c.entryPath k.text) = .ok (a.entry k.text (times k)).encode

variable {times : Key → String}

lemma Represents.records (h : c.Represents as f t) : ∃ times, c.Records as f times t := by
  have hdated : ∀ k, ∃ now, ∀ a, f k = some a →
      t.read (c.entryPath k.text) = .ok (a.entry k.text now).encode := by
    intro k
    rcases hk : f k with _ | a
    · exact ⟨"", nofun⟩
    · obtain ⟨now, -, hread⟩ := h.entry k a hk
      refine ⟨now, fun b hb => ?_⟩
      obtain rfl := Option.some.inj hb
      exact hread
  choose times htimes using hdated
  exact ⟨times, h, htimes⟩

namespace Records

variable {a : Artifact}

lemma kept (h : c.Records as f times t) (hk : KeepsVisible [] t t') :
    c.Records as f times t' :=
  ⟨h.toRepresents.kept hk, fun k a ha =>
    hk.read (c.isVisible_entry t k) List.not_mem_nil (h.dated k a ha)⟩

lemma replaces_blob (h : c.Records as f times t) (has : AreStorable as) (ha : a ∈ as) {y : Bytes}
    (hy : y ∈ a.contents) (hr : Replaces (c.blobPath (sha256Hex y)) y t t') :
    c.Records as f times t' :=
  ⟨h.toRepresents.replaces_blob has ha hy hr, fun k b hb =>
    hr.read (c.isVisible_entry t k) (c.entry_ne_blob t k y) (h.dated k b hb)⟩

lemma replaces_entry (h : c.Records as f times t) (ha : a ∈ as) {k : Key} {now : String}
    (hnow : Timestamp.isTimestamp now = true) (hblobs : ∀ content ∈ a.contents, c.HasBlob t content)
    (hr : Replaces (c.entryPath k.text) (a.entry k.text now).encode t t') :
    c.Records as (Function.update f k (some a)) (Function.update times k now) t' := by
  refine ⟨h.toRepresents.replaces_entry ha hnow hblobs hr, fun k' b hb => ?_⟩
  by_cases hkk : k' = k
  · subst hkk
    rw [Function.update_self] at hb ⊢
    obtain rfl := Option.some.inj hb
    exact hr.reads
  · rw [Function.update_of_ne hkk] at hb ⊢
    exact hr.read (c.isVisible_entry t k') (fun heq => hkk (c.key_of_entry heq)) (h.dated k' b hb)

end Records

lemma ensures_put {T : Tree → Prop} (p : Path) (content : Bytes) :
    Ensures (Unshared T) (put p content).run
      (Ends (Unshared fun t' => ∃ t, T t ∧ KeepsVisible [] t t') fun _ =>
        Unshared fun t' => ∃ t, T t ∧ Replaces p content t t') := by
  refine ensures_result (ensures_publish_unshared p content) fun r => ?_
  cases r with
  | ok _ => exact fun h hh => hh
  | error f => exact fun h hh => hh

section Store

variable {a : Artifact} {now : String}

lemma ensures_get {ε : Type} {P E : Host → Prop} :
    Ensures P (get : Attempt ε Host).run (Ends E fun h₀ h => h₀ = h ∧ P h) :=
  fun _ hh => ⟨rfl, hh⟩

lemma store_eq (c : Cache) (key : String) (a : Artifact) : c.store key a = (do
    let h ← get
    put (c.blobPath (sha256Hex a.raw)) a.raw
    if sha256Hex a.optimized ≠ sha256Hex a.raw then
      put (c.blobPath (sha256Hex a.optimized)) a.optimized
    put (c.entryPath key) (a.entry key h.now).encode
    return a.entry key h.now) := rfl

/-- The first blob that is stored. -/
lemma ensures_put_raw (has : AreStorable as) (ha : a ∈ as) :
    Ensures (Unshared (c.Records as f times)) (put (c.blobPath (sha256Hex a.raw)) a.raw).run
      (Ends (Unshared (c.Records as f times)) fun _ =>
        Unshared fun t => c.Records as f times t ∧ c.HasBlob t a.raw) := by
  refine (ensures_put _ _).mono (Ends.imp (fun _ hh => ?_) fun _ _ hh => ?_)
  · exact hh.mono fun t' ⟨t, ht, hk⟩ => ht.kept hk
  · refine hh.mono fun t' ⟨t, ht, hr⟩ => ⟨ht.replaces_blob has ha ?_ hr, hr.reads⟩
    simp [Artifact.contents]

/-- The second blob that is stored. -/
lemma ensures_put_optimized (has : AreStorable as) (ha : a ∈ as) :
    Ensures (Unshared fun t => c.Records as f times t ∧ c.HasBlob t a.raw)
      (put (c.blobPath (sha256Hex a.optimized)) a.optimized).run
      (Ends (Unshared (c.Records as f times)) fun _ =>
        Unshared fun t => c.Records as f times t ∧ ∀ content ∈ a.contents, c.HasBlob t content) := by
  have hraw : a.raw ∈ a.contents := by simp [Artifact.contents]
  have hoptimized : a.optimized ∈ a.contents := by simp [Artifact.contents]
  refine (ensures_put _ _).mono (Ends.imp (fun _ hh => ?_) fun _ _ hh => ?_)
  · exact hh.mono fun t' ⟨t, ht, hk⟩ => ht.1.kept hk
  · refine hh.mono fun t' ⟨t, ⟨ht, hblob⟩, hr⟩ =>
      ⟨ht.replaces_blob has ha hoptimized hr, fun x hx => ?_⟩
    rcases List.mem_pair.mp hx with rfl | rfl
    · exact hblob.replaces_blob hr (has.digest a ha a ha _ hraw _ hoptimized)
    · exact hr.reads

/-- The entry that is stored after the blobs. -/
lemma ensures_put_entry (ha : a ∈ as) (k : Key) (hnow : Timestamp.isTimestamp now = true) :
    Ensures (Unshared fun t => c.Records as f times t ∧ ∀ content ∈ a.contents, c.HasBlob t content)
      (put (c.entryPath k.text) (a.entry k.text now).encode).run
      (Ends (Unshared (c.Records as f times)) fun _ =>
        Unshared (c.Records as (Function.update f k (some a)) (Function.update times k now))) :=
  (ensures_put _ _).mono (Ends.imp (fun _ hh => hh.mono fun _ ⟨_, ht, hk⟩ => ht.1.kept hk)
    fun _ _ hh => hh.mono fun _ ⟨_, ⟨ht, hblobs⟩, hr⟩ => ht.replaces_entry ha hnow hblobs hr)

/-- Storing an artifact inserts it, or fails and changes nothing. -/
lemma ensures_store (has : AreStorable as) (ha : a ∈ as) (k : Key)
    (hnow : Timestamp.isTimestamp now = true) :
    Ensures (fun h => Unshared (c.Records as f times) h ∧ h.now = now) (c.store k.text a).run
      (Ends (Unshared (c.Records as f times)) fun _ =>
        Unshared (c.Records as (Function.update f k (some a)) (Function.update times k now))) := by
  rw [store_eq]
  refine Ensures.bind_ok ensures_get fun h₀ => ?_
  rintro h ⟨rfl, hh, rfl⟩
  refine Ensures.bind_ok (ensures_put_raw has ha) (fun _ => ?_) h₀ hh
  split_ifs with hdigest
  · exact Ensures.bind_ok (ensures_put_optimized has ha) fun _ =>
      Ensures.bind_ok (ensures_put_entry ha k hnow) fun _ => Ensures.pure_ok fun _ hh => hh
  · -- one blob is both
    have hsame : a.optimized = a.raw := has.digest a ha a ha _ (by simp [Artifact.contents]) _
      (by simp [Artifact.contents]) (not_not.mp hdigest)
    refine Ensures.bind_ok (Ensures.weaken (ensures_put_entry ha k hnow) fun h hh =>
      hh.mono fun t ht => ⟨ht.1, fun x hx => ?_⟩) fun _ => Ensures.pure_ok fun _ hh => hh
    rcases List.mem_pair.mp hx with rfl | rfl
    · exact ht.2
    · rw [hsame]
      exact ht.2

lemma keeps_willing_store (key : String) :
    Keeps (fun h => ∀ n, h.refuse n = none) (c.store key a).run :=
  keeps_store_of ((lasting_willing.withstands _).publish _)
    ((lasting_willing.withstands _).publish _) fun _ => (lasting_willing.withstands _).publish _

/-- Where no step is refused. -/
lemma ensures_store_inserts (has : AreStorable as) (ha : a ∈ as) (k : Key) :
    Ensures (fun h => Solitary (c.Represents as f) h ∧ Timestamp.isTimestamp h.now = true)
      (c.store k.text a).run
      (Ends (fun _ => True) fun _ =>
        Solitary (c.Represents as (Function.update f k (some a)))) := by
  rintro h ⟨hh, hnow⟩
  obtain ⟨times, htimes⟩ := hh.tree.records
  exact Ends.imp (fun _ _ => trivial) (fun _ _ hh => hh.mono fun t ht => ht.toRepresents) _ _
    (ensures_solitary_of (ensures_store has ha k hnow) (keeps_willing_store k.text) h
      ⟨⟨⟨hh.others, htimes⟩, rfl⟩, hh.willing⟩)

end Store

/-! ### Pruning -/

/-- The digests of what an artifact holds. -/
def Artifact.digests (a : Artifact) : List String := a.contents.map sha256Hex

/-- The artifacts of a version. -/
def ofVersion (version : String) (f : Key → Option Artifact) : Key → Option Artifact :=
  fun k => (f k).filter (·.toolchain == version)

lemma ofVersion_eq_some {version : String} {k : Key} {a : Artifact} :
    ofVersion version f k = some a ↔ f k = some a ∧ a.toolchain = version := by
  simp [ofVersion, Option.filter_eq_some_iff]

lemma entry_mem_placesIn {k : Key} {names : List String} :
    (c.entryPath k.text).destination t.start ∈ placesIn t c.entriesDir names ↔ k.file ∈ names := by
  rw [place_entry, ← mem_placesIn, destination_entriesDir rfl, List.append_assoc]
  rfl

lemma blob_mem_placesIn {x : Bytes} {names : List String} :
    (c.blobPath (sha256Hex x)).destination t.start ∈ placesIn t c.blobsDir names ↔
      sha256Hex x ∈ names := by
  rw [place_blob, ← mem_placesIn, destination_blobsDir rfl, List.append_assoc]
  rfl

lemma entry_not_mem_placesIn {k : Key} {names : List String} :
    (c.entryPath k.text).destination t.start ∉ placesIn t c.blobsDir names := by
  have hdir : c.blobsDir.destination t.start = c.place t ++ ["blobs"] := destination_blobsDir rfl
  simp [placesIn, place_entry, hdir]

lemma blob_not_mem_placesIn {x : Bytes} {names : List String} :
    (c.blobPath (sha256Hex x)).destination t.start ∉ placesIn t c.entriesDir names := by
  have hdir : c.entriesDir.destination t.start = c.place t ++ ["entries"] :=
    destination_entriesDir rfl
  simp [placesIn, place_blob, hdir]

/-- The map without the keys of some entries. -/
def without (names : List String) (f : Key → Option Artifact) : Key → Option Artifact :=
  fun k => if k.file ∈ names then none else f k

lemma without_eq_some {names : List String} {k : Key} {a : Artifact} :
    without names f k = some a ↔ k.file ∉ names ∧ f k = some a := by
  unfold without
  split_ifs with hk
  · simp [hk]
  · simp [hk]

namespace Represents

variable {version : String}

lemma congr {g : Key → Option Artifact} (h : c.Represents as f t) (hfg : ∀ k, f k = g k) :
    c.Represents as g t := by
  rwa [← funext hfg]

lemma removes_entries (h : c.Represents as f t) {names : List String}
    (hr : Tree.Removes (placesIn t c.entriesDir names) t t') :
    c.Represents as (without names f) t' := by
  refine ⟨hr.start ▸ h.start, h.proper.of_removes hr,
    fun k a hk => h.stored k a (without_eq_some.mp hk).2, fun k a hk => ?_, fun k a hk x hx => ?_,
    fun name content x hhidden hget => ?_⟩
  · obtain ⟨hfile, hk⟩ := without_eq_some.mp hk
    obtain ⟨now, hnow, hread⟩ := h.entry k a hk
    exact ⟨now, hnow, hr.read_iff.mpr ⟨mt entry_mem_placesIn.mp hfile, hread⟩⟩
  · exact hr.read_iff.mpr
      ⟨blob_not_mem_placesIn, h.blobs k a (without_eq_some.mp hk).2 x hx⟩
  · obtain ⟨hnot, hold⟩ := hr.get?_of_some hget
    rw [place, hr.start] at hnot hold
    obtain ⟨k, hk, rfl⟩ := h.only name content x hhidden hold
    rw [← Cache.place, ← place_entry, entry_mem_placesIn] at hnot
    exact ⟨k, by rwa [without, if_neg hnot], rfl⟩

/-- Blobs may go that no artifact needs. -/
lemma removes_blobs (h : c.Represents as f t) {names : List String}
    (hr : Tree.Removes (placesIn t c.blobsDir names) t t')
    (hneeded : ∀ k a, f k = some a → ∀ digest ∈ a.digests, digest ∉ names) :
    c.Represents as f t' := by
  refine ⟨hr.start ▸ h.start, h.proper.of_removes hr, h.stored, fun k a hk => ?_,
    fun k a hk x hx => ?_, fun name content x hhidden hget => ?_⟩
  · obtain ⟨now, hnow, hread⟩ := h.entry k a hk
    exact ⟨now, hnow, hr.read_iff.mpr ⟨entry_not_mem_placesIn, hread⟩⟩
  · refine hr.read_iff.mpr ⟨?_, h.blobs k a hk x hx⟩
    rw [blob_mem_placesIn]
    exact hneeded k a hk _ (List.mem_map_of_mem hx)
  · have hold := (hr.get?_of_some hget).2
    rw [place, hr.start] at hold
    exact h.only name content x hhidden hold

lemma keptAt (h : c.Represents as f t) (has : AreStorable as) (version : String) {k : Key}
    {a : Artifact} (hk : f k = some a) : ∃ now, c.keptAt t version k.file =
      if a.toolchain = version then some (a.entry k.text now) else none := by
  obtain ⟨now, hentry⟩ := h.entryAt has hk
  have hpath : c.entriesDir.joinName k.file = c.entryPath k.text := rfl
  refine ⟨now, ?_⟩
  rw [Cache.keptAt, hpath, hentry]
  simp [Option.filter, Artifact.entry]

lemma mem_namedBy (h : c.Represents as f t) (has : AreStorable as) {name : String} :
    name ∈ c.namedBy t version (visibleFiles t c.entriesDir) ↔
      ∃ k a, ofVersion version f k = some a ∧ name ∈ a.digests := by
  simp only [namedBy, List.mem_flatMap, h.mem_entries, ofVersion_eq_some]
  constructor
  · rintro ⟨file, ⟨k, hk, rfl⟩, e, he, hname⟩
    obtain ⟨a, ha⟩ := Option.ne_none_iff_exists'.mp hk
    obtain ⟨now, hkept⟩ := h.keptAt has version ha
    rw [hkept] at he
    split_ifs at he with hversion
    · obtain rfl : e = a.entry k.text now := by simpa using he
      exact ⟨k, a, ⟨ha, hversion⟩, hname⟩
    · cases he
  · rintro ⟨k, a, ⟨ha, hversion⟩, hname⟩
    obtain ⟨now, hkept⟩ := h.keptAt has version ha
    rw [if_pos hversion] at hkept
    exact ⟨k.file, ⟨k, by rw [ha]; simp, rfl⟩, a.entry k.text now, by simp [hkept], hname⟩

lemma mem_outdated (h : c.Represents as f t) (has : AreStorable as) {k : Key} {a : Artifact}
    (hk : f k = some a) :
    k.file ∈ c.outdated t version (visibleFiles t c.entriesDir) (visibleFiles t c.entriesDir) ↔
      a.toolchain ≠ version := by
  obtain ⟨now, hkept⟩ := h.keptAt has version hk
  have hmem : k.file ∈ visibleFiles t c.entriesDir :=
    h.mem_entries.mpr ⟨k, by rw [hk]; simp, rfl⟩
  rw [outdated, List.mem_filter, hkept, and_iff_right hmem, List.contains_iff_mem.mpr hmem]
  by_cases hversion : a.toolchain = version
  · simp [hversion]
  · simp [hversion]

lemma without_outdated (h : c.Represents as f t) (has : AreStorable as) (k : Key) :
    without (c.outdated t version (visibleFiles t c.entriesDir) (visibleFiles t c.entriesDir)) f k =
      ofVersion version f k := by
  rcases hk : f k with _ | a
  · simp [without, ofVersion, hk]
  · by_cases hversion : a.toolchain = version
    · rw [without, if_neg fun hout => (h.mem_outdated has hk).mp hout hversion, hk,
        ofVersion_eq_some.mpr ⟨hk, hversion⟩]
    · rw [without, if_pos ((h.mem_outdated has hk).mpr hversion), ofVersion, hk]
      simp [Option.filter, hversion]

lemma prunes (h : c.Represents as f t) (has : AreStorable as) {between : Tree}
    (hp : c.Prunes version (.full c t between) t between t') :
    c.Represents as (ofVersion version f) t' := by
  have hbetween : c.Represents as (ofVersion version f) between :=
    (h.removes_entries hp.entries).congr (h.without_outdated has)
  -- a blob stays if an entry is left that names it
  refine hbetween.removes_blobs hp.blobs fun k a hk digest hdigest hmem => ?_
  have hnot : (!(c.namedBy t version (visibleFiles t c.entriesDir)).contains digest) = true :=
    (List.mem_filter.mp hmem).2
  rw [List.contains_iff_mem.mpr ((h.mem_namedBy has).mpr ⟨k, a, hk, hdigest⟩)] at hnot
  cases hnot

/-- After pruning, the blobs are those that the artifacts left over need. -/
lemma mem_blobs_of_prunes (h : c.Represents as f t) (has : AreStorable as) {between : Tree}
    (hp : c.Prunes version (.full c t between) t between t') {name : String} :
    name ∈ visibleFiles t' c.blobsDir ↔
      ∃ k a, ofVersion version f k = some a ∧ name ∈ a.digests := by
  have hdir : c.blobsDir.text.toList ≠ [] := Tree.text_joinName_ne_nil _ isName_blobs
  have hpruned := h.prunes has hp
  have hproper := (h.proper.of_removes hp.entries).blobs
  rw [mem_visibleFiles hdir hpruned.proper.blobs]
  constructor
  · rintro ⟨hname, hhidden, content, hread⟩
    obtain ⟨hnot, hread⟩ := hp.blobs.read_iff.mp hread
    rw [Path.destination_joinName _ _ hname, mem_placesIn, List.mem_filter] at hnot
    have hmem := (mem_visibleFiles hdir hproper).mpr ⟨hname, hhidden, content, hread⟩
    rw [← h.mem_namedBy has]
    by_contra hnamed
    refine hnot ⟨hmem, ?_⟩
    rw [Bool.not_eq_true', ← Bool.not_eq_true, List.contains_iff_mem]
    exact hnamed
  · rintro ⟨k, a, hk, hname⟩
    obtain ⟨x, hx, rfl⟩ := List.mem_map.mp hname
    exact ⟨isName_digest x, isHidden_digest x, x, hpruned.blobs k a hk x hx⟩

end Represents

/-! ### Clearing -/

namespace RemovesTree

variable {dir : Path}

lemma start_eq (h : RemovesTree dir t t') : t'.start = t.start := by
  rcases h with ⟨-, rfl⟩ | ⟨-, rfl⟩
  · rfl
  · rfl

lemma get?_of_some (h : RemovesTree dir t t') (hdir : dir.destination t.start ≠ []) {place : Place}
    {n : Node} (hget : t'.get? place = some n) : t.get? place = some n := by
  rcases h with ⟨-, rfl⟩ | ⟨-, rfl⟩
  · rw [Tree.get?_eraseAll t hdir] at hget
    split_ifs at hget
    exact hget
  · exact hget

/-- Nothing is left in a directory that could be found. -/
lemma get?_below (h : RemovesTree dir t t') (hdir : dir.destination t.start ≠ [])
    (hlook : t.look dir = .ok .directory) {place : Place}
    (hplace : dir.destination t.start <+: place) : t'.get? place = none := by
  rcases h with ⟨-, rfl⟩ | ⟨hnone, -⟩
  · rw [Tree.get?_eraseAll t hdir, if_pos hplace]
  · rw [hlook] at hnone
    cases hnone

lemma visibleFiles_eq_nil (h : RemovesTree dir t t') (hdir : dir.destination t.start ≠ []) :
    visibleFiles t' dir = [] := by
  have hlook : t'.look dir ≠ .ok .directory := by
    intro hlook
    have hget := Tree.look_destination hlook
    rcases h with ⟨-, rfl⟩ | ⟨hnone, rfl⟩
    · rw [Tree.get?_eraseAll t hdir] at hget
      exact absurd hget (by simp [Tree.eraseAll])
    · rw [hlook] at hnone
      cases hnone
  unfold visibleFiles
  split
  · next hdirectory => exact absurd hdirectory hlook
  · rfl

end RemovesTree

lemma HasProperNames.removesTree (h : c.HasProperNames t) {dir : Path}
    (hdir : dir.destination t.start ≠ []) (hr : RemovesTree dir t t') : c.HasProperNames t' := by
  have hold : ∀ place, t'.get? place ≠ none → t.get? place ≠ none := by
    intro place hget
    obtain ⟨n, hn⟩ := Option.ne_none_iff_exists'.mp hget
    rw [hr.get?_of_some hdir hn]
    simp
  refine ⟨fun name hget => h.entries name ?_, fun name hget => h.blobs name ?_⟩
  · rw [← hr.start_eq]
    exact hold _ hget
  · rw [← hr.start_eq]
    exact hold _ hget

lemma destination_entriesDir_ne_nil (c : Cache) (t : Tree) :
    c.entriesDir.destination t.start ≠ [] := by
  rw [destination_entriesDir rfl]
  simp

lemma destination_blobsDir_ne_nil (c : Cache) (t : Tree) :
    c.blobsDir.destination t.start ≠ [] := by
  rw [destination_blobsDir rfl]
  simp

namespace Represents

lemma clears_entries (h : c.Represents as f t) (hr : RemovesTree c.entriesDir t t') :
    c.Represents as (fun _ => none) t' := by
  have hne := c.destination_entriesDir_ne_nil t
  refine ⟨hr.start_eq ▸ h.start, h.proper.removesTree hne hr, nofun, nofun, nofun,
    fun name content x hhidden hget => ?_⟩
  -- an entry that was there could be found, so its directory is gone
  have hplace : c.place t' = c.place t := by rw [place, hr.start_eq, place]
  rw [hplace] at hget
  obtain ⟨k, hk, rfl⟩ := h.only name content x hhidden (hr.get?_of_some hne hget)
  obtain ⟨a, ha⟩ := Option.ne_none_iff_exists'.mp hk
  obtain ⟨now, -, hread⟩ := h.entry k a ha
  have hlook : t.look c.entriesDir = .ok .directory :=
    Tree.look_of_placeOf_joinName (Tree.text_joinName_ne_nil _ isName_entries) k.isName_file
      (Tree.read_eq_ok_iff.mp hread).1.place
  have hbelow : c.entriesDir.destination t.start <+: c.place t ++ ["entries", k.file] :=
    ⟨[k.file], by rw [destination_entriesDir rfl, List.append_assoc]; rfl⟩
  rw [hr.get?_below hne hlook hbelow] at hget
  cases hget

lemma clears_blobs (h : c.Represents as (fun _ => none) t) (hr : RemovesTree c.blobsDir t t') :
    c.Represents as (fun _ => none) t' := by
  have hne := c.destination_blobsDir_ne_nil t
  refine ⟨hr.start_eq ▸ h.start, h.proper.removesTree hne hr, nofun, nofun, nofun,
    fun name content x hhidden hget => h.only name content x hhidden ?_⟩
  rw [place, ← hr.start_eq]
  exact hr.get?_of_some hne hget

lemma clears (h : c.Represents as f t) {between : Tree}
    (hentries : RemovesTree c.entriesDir t between) (hblobs : RemovesTree c.blobsDir between t') :
    c.Represents as (fun _ => none) t' :=
  (h.clears_entries hentries).clears_blobs hblobs

end Represents

end ContractBuild.Cache

import Mathlib
import ContractBuild.Proofs.Cache.Represents

/-!
A cache is a finite map: after any requests that succeed one after the other, it gives for every key
what the map has that is made by inserting, filtering and emptying.
-/

namespace ContractBuild.Cache

open ContractBuild.Digest ContractBuild.Disk ContractBuild.Host ContractBuild.Text

-- no digest is computed here, and publishing is known by what it ensures
attribute [local irreducible] sha256Hex publish

variable {c : Cache} {t : Tree} {as : List Artifact} {f : Key → Option Artifact}

/-! ### Requests -/

/-- What can be asked of a cache. -/
inductive Operation where
  | store (key : Key) (a : Artifact)
  | prune (version : String)
  | clear

namespace Operation

def run (c : Cache) : Operation → Attempt Fault Unit
  | .store key a => do let _ ← c.store key.text a
  | .prune version => do let _ ← c.prune version
  | .clear => do let _ ← c.clear

/-- What becomes of a map. -/
def apply : Operation → Std.HashMap Key Artifact → Std.HashMap Key Artifact
  | .store key a, m => m.insert key a
  | .prune version, m => m.filter fun _ a => a.toolchain == version
  | .clear, _ => ∅

/-- Blobs that are no longer needed are removed. -/
def Collects : Operation → Prop
  | .store .. => False
  | .prune _ => True
  | .clear => True

end Operation

/-- An operation at a time. -/
structure Request where
  now : String
  operation : Operation

def Request.run (c : Cache) (r : Request) : Attempt Fault Unit := do
  modify fun h => { h with now := r.now }
  r.operation.run c

/-- Requests one after the other, as long as they succeed. -/
def runAll (c : Cache) (requests : List Request) : Attempt Fault Unit :=
  requests.forM (Request.run c)

/-- The artifacts that are stored by requests. -/
def artifacts (requests : List Request) : List Artifact :=
  requests.filterMap fun r =>
    match r.operation with
    | .store _ a => some a
    | _ => none

/-- The map after some requests. -/
def mapAfter (requests : List Request) (m : Std.HashMap Key Artifact) : Std.HashMap Key Artifact :=
  requests.foldl (fun m r => r.operation.apply m) m

/-- The blobs are exactly those that the artifacts of a map need. -/
def HasExactBlobs (c : Cache) (m : Std.HashMap Key Artifact) (t : Tree) : Prop :=
  ∀ name, name ∈ visibleFiles t c.blobsDir ↔
    ∃ (k : Key) (a : Artifact), m[k]? = some a ∧ name ∈ a.digests

variable {m : Std.HashMap Key Artifact}

/-- One operation on the directory does to the map what it should. -/
lemma ensures_operation (has : AreStorable as) {o : Operation}
    (ho : ∀ k a, o = .store k a → a ∈ as) :
    Ensures (fun h => Solitary (c.Represents as (m[·]?)) h ∧ Timestamp.isTimestamp h.now = true)
      (o.run c).run (Ends (fun _ => True) fun _ => Solitary fun t =>
        c.Represents as ((o.apply m)[·]?) t ∧ (o.Collects → c.HasExactBlobs (o.apply m) t)) := by
  cases o with
  | store k a =>
    refine Ensures.bind_ok (ensures_store_inserts has (ho k a rfl) k) fun _ => ?_
    refine Ensures.pure_ok fun h hh => hh.mono fun t ht => ⟨ht.congr fun k' => ?_, False.elim⟩
    rw [Operation.apply, Std.HashMap.getElem?_insert, Function.update_apply]
    by_cases hkk : k' = k
    · simp [hkk]
    · simp [hkk, Ne.symm hkk]
  | prune version =>
    have hmap : ∀ k, ofVersion version (m[·]?) k = ((Operation.prune version).apply m)[k]? :=
      fun k => by rw [Operation.apply, Std.HashMap.getElem?_filter', ofVersion]
    refine Ensures.bind_ok (Q := fun _ => Solitary fun t =>
      c.Represents as (((Operation.prune version).apply m)[·]?) t ∧
        c.HasExactBlobs ((Operation.prune version).apply m) t) (fun h hh => ?_) fun _ =>
          Ensures.pure_ok fun h hh => hh.mono fun t ht => ⟨ht.1, fun _ => ht.2⟩
    have hrep := hh.1.tree
    refine (c.ensures_prune version hrep.proper).mono (Ends.imp (fun _ hh' => hh'.elim)
      fun _ h' hh' => hh'.mono fun t' ht' => ?_) h { hh.1 with tree := rfl }
    obtain ⟨_, hp⟩ := ht'
    refine ⟨(hrep.prunes has hp).congr hmap, fun name => ?_⟩
    rw [hrep.mem_blobs_of_prunes has hp]
    simp only [hmap]
  | clear =>
    refine Ensures.bind_ok (Ensures.weaken c.ensures_clear fun h hh => hh.1) fun _ => ?_
    refine Ensures.pure_ok fun h hh => hh.mono fun t' ht' => ?_
    obtain ⟨t, between, ht, hentries, hblobs⟩ := ht'
    refine ⟨(ht.clears hentries hblobs).congr fun k => ?_, fun _ name => ?_⟩
    · simp [Operation.apply]
    · rw [hblobs.visibleFiles_eq_nil (c.destination_blobsDir_ne_nil between)]
      simp [Operation.apply]

lemma ensures_request (has : AreStorable as) {r : Request}
    (hnow : Timestamp.isTimestamp r.now = true) (hr : ∀ k a, r.operation = .store k a → a ∈ as) :
    Ensures (Solitary (c.Represents as (m[·]?))) (r.run c).run
      (Ends (fun _ => True) fun _ => Solitary fun t =>
        c.Represents as ((r.operation.apply m)[·]?) t ∧
          (r.operation.Collects → c.HasExactBlobs (r.operation.apply m) t)) := by
  refine Ensures.bind_ok (Q := fun _ h => Solitary (c.Represents as (m[·]?)) h ∧
    Timestamp.isTimestamp h.now = true) ?_ fun _ => ensures_operation has hr
  exact fun h hh => ⟨⟨hh.others, hh.willing, hh.tree⟩, hnow⟩

/-- After requests one after the other, the directory represents the map after them. -/
lemma ensures_runAll (has : AreStorable as) {requests : List Request}
    (hnow : ∀ r ∈ requests, Timestamp.isTimestamp r.now = true)
    (hstored : ∀ a ∈ artifacts requests, a ∈ as) :
    Ensures (Solitary (c.Represents as (m[·]?))) (runAll c requests).run
      (Ends (fun _ => True) fun _ => Solitary fun t =>
        c.Represents as ((mapAfter requests m)[·]?) t ∧
          ∀ r ∈ requests.getLast?, r.operation.Collects →
            c.HasExactBlobs (mapAfter requests m) t) := by
  induction requests generalizing m with
  | nil => exact Ensures.pure_ok fun h hh => hh.mono fun t ht => ⟨ht, nofun⟩
  | cons r requests ih =>
    have hr : ∀ k a, r.operation = .store k a → a ∈ as := fun k a ho =>
      hstored a (List.mem_filterMap.mpr ⟨r, List.mem_cons_self, by rw [ho]⟩)
    have hrest : ∀ a ∈ artifacts requests, a ∈ as := fun a ha => by
      obtain ⟨q, hq, hqa⟩ := List.mem_filterMap.mp ha
      exact hstored a (List.mem_filterMap.mpr ⟨q, List.mem_cons_of_mem _ hq, hqa⟩)
    refine Ensures.bind_ok (ensures_request has (hnow r List.mem_cons_self) hr) fun _ => ?_
    cases requests with
    | nil =>
      refine Ensures.pure_ok fun h hh => hh.mono fun t ht => ⟨ht.1, fun q hq => ?_⟩
      obtain rfl : r = q := by simpa using hq
      exact ht.2
    | cons q requests =>
      refine Ensures.weaken ?_ fun h hh => hh.mono fun t ht => ht.1
      rw [List.getLast?_cons_cons]
      exact ih (fun p hp => hnow p (List.mem_cons_of_mem _ hp)) hrest

/-- The cache directory is missing or empty. -/
def IsEmpty (c : Cache) (t : Tree) : Prop :=
  ∀ name rest, t.get? (c.place t ++ name :: rest) = none

lemma represents_empty (as : List Artifact) (hstart : t.start.IsProper) (hempty : c.IsEmpty t) :
    c.Represents as ((∅ : Std.HashMap Key Artifact)[·]?) t := by
  have hnone : ∀ folder name, t.get? (c.place t ++ [folder] ++ [name]) = none := by
    intro folder name
    rw [List.append_assoc]
    exact hempty folder [name]
  have hentries : c.entriesDir.destination t.start = c.place t ++ ["entries"] :=
    destination_entriesDir rfl
  have hblobs : c.blobsDir.destination t.start = c.place t ++ ["blobs"] := destination_blobsDir rfl
  refine ⟨hstart, ⟨fun name hget => ?_, fun name hget => ?_⟩, by simp, by simp, by simp,
    fun name content x _ hget => ?_⟩
  · rw [hentries, hnone] at hget
    exact absurd rfl hget
  · rw [hblobs, hnone] at hget
    exact absurd rfl hget
  · rw [hempty] at hget
    cases hget

/-- There are as many entries as keys. -/
lemma length_entries (h : c.Represents as (m[·]?) t) :
    (visibleFiles t c.entriesDir).length = m.size := by
  have hperm : (visibleFiles t c.entriesDir).Perm (m.keys.map Key.file) := by
    refine (List.perm_ext_iff_of_nodup (nodup_visibleFiles _ _)
      (Std.HashMap.nodup_keys.map fun _ _ => Key.file_injective)).mpr fun name => ?_
    rw [h.mem_entries, List.mem_map]
    refine exists_congr fun k => and_congr ?_ eq_comm
    rw [Std.HashMap.mem_keys, ← Std.HashMap.isSome_getElem?_iff_mem, Option.isSome_iff_ne_none]
  rw [hperm.length_eq, List.length_map, Std.HashMap.length_keys]

/-- Pruning succeeds after any requests. -/
lemma run_prune_after {requests : List Request} {h h' : Host}
    (hh : Solitary (fun t => t.start.IsProper ∧ c.IsEmpty t) h)
    (hnow : ∀ r ∈ requests, Timestamp.isTimestamp r.now = true)
    (hstorable : AreStorable (artifacts requests))
    (hrun : (runAll c requests).run h = (.ok (), h')) (now version : String) :
    ∃ h'', (runAll c (requests ++ [⟨now, .prune version⟩])).run h = (.ok (), h'') := by
  have hend := ensures_runAll (c := c) (m := ∅) hstorable hnow (fun _ ha => ha) h
    (hh.mono fun t ht => represents_empty _ ht.1 ht.2)
  rw [hrun] at hend
  obtain ⟨r, h'', hprune, -⟩ := (c.ensures_prune version hend.tree.1.proper).succeeds
    (s := { h' with now }) ⟨hend.others, hend.willing, rfl⟩
  have hsplit : runAll c (requests ++ [⟨now, .prune version⟩]) =
      runAll c requests >>= fun _ => runAll c [⟨now, .prune version⟩] := List.forM_append
  refine ⟨h'', ?_⟩
  rw [hsplit, run_bind_of_ok hrun]
  exact run_bind_of_ok (run_bind_of_ok rfl |>.trans (run_bind_of_ok hprune))

/-- **A cache is a finite map.** Let requests be made of an empty cache, one after the other, on a
host that nobody disturbs, and let all of them succeed. Then every key gives the artifact that the
map has for it, there are as many entries as keys, and if blobs were removed last, those left are
the ones that the artifacts of the map need. -/
theorem cache_refines_map {requests : List Request} {h h' : Host}
    (hh : Solitary (fun t => t.start.IsProper ∧ c.IsEmpty t) h)
    (hnow : ∀ r ∈ requests, Timestamp.isTimestamp r.now = true)
    (hstorable : AreStorable (artifacts requests))
    (hrun : (runAll c requests).run h = (.ok (), h')) :
    (∀ k : Key, (c.lookup k.text h' : Option Artifact × Host).1 = (mapAfter requests ∅)[k]?) ∧
      (∃ s h'', c.stats.run h' = (.ok s, h'') ∧ s.entries = (mapAfter requests ∅).size) ∧
      ∀ r ∈ requests.getLast?, r.operation.Collects → ∃ blobs h'',
        (filesIn c.blobsDir).run h' = (.ok blobs, h'') ∧ blobs.Nodup ∧
          ∀ name, name ∈ blobs ↔
            ∃ (k : Key) (a : Artifact), (mapAfter requests ∅)[k]? = some a ∧ name ∈ a.digests := by
  have hend := ensures_runAll (c := c) (m := ∅) hstorable hnow (fun _ ha => ha) h
    (hh.mono fun t ht => represents_empty _ ht.1 ht.2)
  rw [hrun] at hend
  refine ⟨fun k => ?_, ?_, fun r hr hcollects => ?_⟩
  · obtain ⟨⟨hrep, -⟩, hfound⟩ := (c.ensures_lookup_solitary k.text h' hend).tree
    rw [hfound, hrep.find?_eq hstorable]
  · obtain ⟨s, h'', hstats, hs⟩ := c.ensures_stats.succeeds hend
    obtain ⟨⟨hrep, -⟩, hentries, -⟩ := hs.tree
    exact ⟨s, h'', hstats, by rw [hentries, length_entries hrep]⟩
  · obtain ⟨blobs, h'', hfiles, hb⟩ := (ensures_filesIn c.blobsDir).succeeds hend
    obtain ⟨⟨-, hexact⟩, rfl⟩ := hb.tree
    exact ⟨_, h'', hfiles, nodup_visibleFiles _ _, hexact r hr hcollects⟩

/-- A host with no files. -/
def bare : Host := { tree := { nodes := [] } }

def left : Key := ⟨"l", by decide, 'l', by decide, by decide⟩

def right : Key := ⟨"r", by decide, 'r', by decide, by decide⟩

/-- One binary for two keys, made by two versions of the toolchain. -/
def twoVersions : List Request := [
  ⟨"2024-01-01T00:00:00Z", .store left ⟨[1], [1], .size, "1"⟩⟩,
  ⟨"2024-01-02T00:00:00Z", .store right ⟨[1], [1], .size, "2"⟩⟩]

def twoVersionsPruned : List Request :=
  twoVersions ++ [⟨"2024-01-03T00:00:00Z", .prune "2"⟩]

lemma map_twoVersionsPruned (k : Key) : (mapAfter twoVersionsPruned ∅)[k]? =
    if k = right then some ⟨[1], [1], .size, "2"⟩ else none := by
  simp only [mapAfter, twoVersionsPruned, twoVersions, List.cons_append, List.nil_append,
    List.foldl_cons, List.foldl_nil, Operation.apply, Std.HashMap.getElem?_filter',
    Std.HashMap.getElem?_insert, beq_iff_eq, eq_comm (a := k)]
  split_ifs <;> simp

/-- What the first version made is gone, and the blob stays for the second. -/
theorem cache_refines_map_twoVersionsPruned :
    ∃ h h' : Host, (runAll ⟨⟨"/c"⟩⟩ twoVersionsPruned).run bare = (.ok (), h) ∧
      (lookup ⟨⟨"/c"⟩⟩ "l" h : Option Artifact × Host).1 = none ∧
      (lookup ⟨⟨"/c"⟩⟩ "r" h : Option Artifact × Host).1 = some ⟨[1], [1], .size, "2"⟩ ∧
      (filesIn ⟨"/c/blobs"⟩).run h = (.ok [sha256Hex [1]], h') := by
  have hbare : Solitary (fun t => t.start.IsProper ∧ Cache.IsEmpty ⟨⟨"/c"⟩⟩ t) bare :=
    ⟨fun _ _ => rfl, fun _ => rfl, nofun, fun _ _ => rfl⟩
  have hsame : ∀ a ∈ artifacts twoVersionsPruned, ∀ x ∈ a.contents, x = [1] := by decide
  have hstorable : AreStorable (artifacts twoVersionsPruned) :=
    ⟨fun a ha x hx => by rw [hsame a ha x hx]; decide,
      fun a ha b hb x hx y hy _ => (hsame a ha x hx).trans (hsame b hb y hy).symm⟩
  have hnow : ∀ r ∈ twoVersionsPruned, Timestamp.isTimestamp r.now = true := by decide +kernel
  have hstored : ((runAll ⟨⟨"/c"⟩⟩ twoVersions).run bare).1 = .ok () := by decide +kernel
  obtain ⟨h, hrun⟩ := run_prune_after hbare (fun r hr => hnow r (List.mem_append_left _ hr))
    hstorable (Prod.ext hstored rfl) "2024-01-03T00:00:00Z" "2"
  obtain ⟨hlookup, -, hblobs⟩ := cache_refines_map hbare hnow hstorable hrun
  obtain ⟨blobs, h', hfiles, hnodup, hmem⟩ := hblobs _ rfl trivial
  have hone : blobs = [sha256Hex [1]] := by
    refine List.perm_singleton.mp ((List.perm_ext_iff_of_nodup hnodup (List.nodup_singleton _)).mpr
      fun name => ?_)
    rw [hmem]
    simp [map_twoVersionsPruned, Artifact.digests, Artifact.contents]
  refine ⟨h, h', hrun, ?_, ?_, ?_⟩
  · exact (hlookup left).trans (map_twoVersionsPruned left)
  · exact (hlookup right).trans (map_twoVersionsPruned right)
  · rw [← hone]
    exact hfiles
end ContractBuild.Cache

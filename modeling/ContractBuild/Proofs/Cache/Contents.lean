import Mathlib
import ContractBuild.Proofs.Cache.Store
import ContractBuild.Proofs.Host.Replace

/-!
What a cache directory holds, read off its files: a host that nobody disturbs looks up, counts and
prunes by what stands in the tree, and by nothing else.
-/

namespace ContractBuild

section

variable {σ ε α β : Type} {P : σ → Prop}

/-- Work that cannot fail can be done for every item. -/
lemma ensures_mapM_lift {f : α → StateM σ β} (hf : ∀ a, Keeps P (f a)) (as : List α) :
    Ensures P (as.mapM fun a => (liftM (f a) : ExceptT ε (StateM σ) β)).run
      (Meets (fun _ _ => False) fun _ => P) := by
  induction as with
  | nil => exact fun s hs => hs
  | cons a as ih =>
    rw [List.mapM_cons]
    refine Ensures.bind_meets (Q := fun _ => P) (hf a) fun b => ?_
    exact Ensures.bind_meets ih fun bs s hs => hs

end

namespace Cache

open ContractBuild.Digest ContractBuild.Disk ContractBuild.Host ContractBuild.Text

variable {c : Cache} {t t' : Tree} {T : Tree → Prop}

/-! ### Keys -/

/-- A key: a text whose entry is a visible file of its own. -/
structure Key where
  text : String
  slash : '/' ∉ text.toList
  visible : ∃ first ∈ text.toList.head?, first ≠ '.'
  deriving DecidableEq

instance : Hashable Key := ⟨fun k => hash k.text⟩

/-- The digest of some inputs is a key. -/
def Inputs.toKey (i : Inputs) : Key where
  text := i.key
  slash h := absurd (mem_hexDigits_of_mem_sha256Hex h) (by decide)
  visible := by
    have hhex : ∀ c ∈ i.key.toList, c ∈ hexDigits := fun _ => mem_hexDigits_of_mem_sha256Hex
    have hlen : i.key.toList.length = 64 := length_sha256Hex _
    rcases hc : i.key.toList with _ | ⟨c, r⟩
    · rw [hc] at hlen
      cases hlen
    · refine ⟨c, rfl, ?_⟩
      rintro rfl
      exact absurd (hhex '.' (by rw [hc]; exact List.mem_cons_self)) (by decide)

namespace Key

/-- The name of the entry of a key. -/
def file (k : Key) : String := k.text ++ ".json"

lemma file_injective {k k' : Key} (h : k.file = k'.file) : k = k' := by
  have htext : k.text = k'.text := by
    have := congrArg String.toList h
    rw [file, file, String.toList_append, String.toList_append] at this
    exact String.toList_inj.mp (List.append_cancel_right this)
  rcases k with ⟨text, _, _⟩
  rcases k' with ⟨text', _, _⟩
  simp only at htext
  subst htext
  rfl

lemma isHidden_file (k : Key) : isHidden k.file = false := by
  obtain ⟨first, hfirst, hdot⟩ := k.visible
  rw [isHidden, file, String.toList_append, List.head?_append, hfirst]
  simpa using hdot

lemma isName_file (k : Key) : IsName k.file := by
  have hhidden := k.isHidden_file
  refine ⟨?_, ?_, ?_, ?_⟩
  · rw [file, String.toList_append]
    simp
  · rw [file, String.toList_append, List.mem_append, not_or]
    exact ⟨k.slash, by decide⟩
  · intro h
    rw [h] at hhidden
    exact absurd hhidden (by decide)
  · intro h
    rw [h] at hhidden
    exact absurd hhidden (by decide)

end Key

/-! ### Places -/

/-- Where the directory is. -/
def place (c : Cache) (t : Tree) : Place := c.dir.destination t.start

lemma place_entry (c : Cache) (t : Tree) (k : Key) :
    (c.entryPath k.text).destination t.start = c.place t ++ ["entries", k.file] := by
  have hfile : s!"{k.text}.json" = k.file := rfl
  rw [entryPath, hfile, Path.destination_joinName _ _ k.isName_file, destination_entriesDir rfl,
    List.append_assoc]
  rfl

lemma place_blob (c : Cache) (t : Tree) (content : Bytes) :
    (c.blobPath (sha256Hex content)).destination t.start =
      c.place t ++ ["blobs", sha256Hex content] :=
  destination_blobPath rfl content

lemma isVisible_below {dir : Place} {folder name : String} (h : isHidden name = false) :
    IsVisible (dir ++ [folder, name]) := by
  intro n hn
  have hlast : (dir ++ [folder, name]).getLast? = some name := by simp
  rw [hlast] at hn
  obtain rfl := Option.some.inj hn
  exact h

/-! ### Listing -/

/-- The files of a directory that are not hidden. -/
def visibleFiles (t : Tree) (dir : Path) : List String :=
  match t.look dir with
  | .ok .directory => filesIn.published dir t (t.names (dir.destination t.start))
  | _ => []

lemma list_published {t : Tree} {dir : Path} (hlook : t.look dir = .ok .directory) :
    (t.list dir).map (filesIn.published dir t) = .ok (visibleFiles t dir) := by
  rw [Tree.list_of_look hlook, visibleFiles, hlook]
  rfl

lemma ensures_filesIn (dir : Path) :
    Ensures (Solitary T) (filesIn dir).run (Meets (fun _ _ => False) fun names =>
      Solitary fun t => T t ∧ names = visibleFiles t dir) := by
  refine ensures_result (ensures_inspect_solitary _) fun r => ?_
  rcases r with f | (⟨content, x⟩ | _ | _)
  · exact fun h hh => hh.mono fun t ht => ⟨ht.1, by rw [visibleFiles, ht.2]⟩
  · exact fun h hh => hh.mono fun t ht => ⟨ht.1, by rw [visibleFiles, ht.2]⟩
  · refine ensures_result (ensures_inspect_solitary _) fun r => ?_
    cases r with
    | error f =>
      intro h hh
      have ht := hh.tree
      rw [list_published ht.1.2] at ht
      exact absurd ht.2 nofun
    | ok names =>
      refine fun h hh => hh.mono fun t ht => ⟨ht.1.1, ?_⟩
      rw [list_published ht.1.2] at ht
      exact (Except.ok.inj ht.2).symm
  · exact fun h hh => hh.mono fun t ht => ⟨ht.1, by rw [visibleFiles, ht.2]⟩

lemma nodup_visibleFiles (t : Tree) (dir : Path) : (visibleFiles t dir).Nodup := by
  unfold visibleFiles
  split
  · exact (t.nodup_names _).filter _
  · exact List.nodup_nil

/-- Where the names of a directory lead downwards, the files are those that can be read. -/
lemma mem_visibleFiles {dir : Path} (hdir : dir.text.toList ≠ [])
    (hproper : ∀ name, t.get? (dir.destination t.start ++ [name]) ≠ none → IsName name)
    {name : String} : name ∈ visibleFiles t dir ↔ IsName name ∧ isHidden name = false ∧
      ∃ content, t.read (dir.joinName name) = .ok content := by
  constructor
  · intro h
    unfold visibleFiles at h
    split at h
    · obtain ⟨hmem, hfilter⟩ := List.mem_filter.mp h
      rw [Bool.and_eq_true, Bool.not_eq_true'] at hfilter
      exact ⟨hproper name (Tree.mem_names.mp hmem), hfilter.1, Tree.isFile_iff.mp hfilter.2⟩
    · cases h
  · rintro ⟨hname, hhidden, content, hread⟩
    obtain ⟨hknows, x, hget⟩ := Tree.read_eq_ok_iff.mp hread
    rw [visibleFiles, Tree.look_of_placeOf_joinName hdir hname hknows.place]
    refine List.mem_filter.mpr ⟨Tree.mem_names.mpr ?_, ?_⟩
    · rw [← Path.destination_joinName _ _ hname, hget]
      simp
    · rw [Bool.and_eq_true, Bool.not_eq_true']
      exact ⟨hhidden, Tree.isFile_iff.mpr ⟨content, hread⟩⟩

lemma ensures_stats (c : Cache) :
    Ensures (Solitary T) c.stats.run (Meets (fun _ _ => False) fun s => Solitary fun t =>
      T t ∧ s.entries = (visibleFiles t c.entriesDir).length ∧
        s.blobs = (visibleFiles t c.blobsDir).length) := by
  refine Ensures.bind_meets (ensures_filesIn _) fun entries => ?_
  refine Ensures.bind_meets (ensures_filesIn _) fun blobs => ?_
  refine Ensures.bind_meets (ensures_mapM_lift (fun name => ?_) blobs) fun sizes => ?_
  · refine Keeps.bind (quiet_solitary _ _) fun r => ?_
    cases r with
    | ok content => exact Keeps.pure _
    | error f => exact Keeps.pure _
  · exact fun h hh => hh.mono fun t ⟨⟨ht, hentries⟩, hblobs⟩ =>
      ⟨ht, congrArg List.length hentries, congrArg List.length hblobs⟩

/-! ### Looking up -/

/-- The entry in a file. -/
def entryAt (t : Tree) (p : Path) : Option Entry := (t.read p).toOption.bind Entry.decode?

/-- An entry that was written is read again. -/
lemma entryAt_of_read_encode {e : Entry} {p : Path} (hread : t.read p = .ok e.encode)
    (hraw : e.raw.size < wordLimit) (hoptimized : e.optimized.size < wordLimit)
    (hcreated : Timestamp.isTimestamp e.createdAt = true) : entryAt t p = some e := by
  simp only [entryAt, hread, Except.toOption, Option.bind_some, Entry.decode?_encode]
  exact if_pos ⟨hraw, hoptimized, hcreated⟩

/-- The content of a blob, if it fits its digest. -/
def blobAt (c : Cache) (t : Tree) (b : Blob) : Option Bytes :=
  (t.read (c.blobPath b.digest)).toOption.filter fun content =>
    content.length = b.size ∧ sha256Hex content = b.digest

/-- What is found under a key. -/
def find? (c : Cache) (t : Tree) (key : String) : Option Artifact := do
  let e ← entryAt t (c.entryPath key)
  if e.key ≠ key then none
  else
    let raw ← c.blobAt t e.raw
    let optimized ← c.blobAt t e.optimized
    return ⟨raw, optimized, e.mode, e.toolchain⟩

lemma ensures_readEntry_solitary (p : Path) :
    Ensures (Solitary T) (readEntry p) fun r => Solitary fun t => T t ∧ r = entryAt t p := by
  refine (ensures_inspect_solitary _).bind fun r => ?_
  cases r with
  | ok content =>
    exact Ensures.pure fun h hh => hh.mono fun t ht => ⟨ht.1, by rw [entryAt, ht.2]; rfl⟩
  | error f =>
    exact Ensures.pure fun h hh => hh.mono fun t ht => ⟨ht.1, by rw [entryAt, ht.2]; rfl⟩

lemma ensures_readBlob_solitary (c : Cache) (b : Blob) :
    Ensures (Solitary T) (c.readBlob b) fun r => Solitary fun t => T t ∧ r = c.blobAt t b := by
  refine (ensures_inspect_solitary _).bind fun r => ?_
  cases r with
  | ok content =>
    refine Ensures.pure fun h hh => hh.mono fun t ht => ⟨ht.1, ?_⟩
    rw [blobAt, ht.2]
    simp [Except.toOption, Option.filter]
  | error f =>
    exact Ensures.pure fun h hh => hh.mono fun t ht => ⟨ht.1, by rw [blobAt, ht.2]; rfl⟩

lemma ensures_lookup_solitary (c : Cache) (key : String) :
    Ensures (Solitary T) (c.lookup key) fun r => Solitary fun t => T t ∧ r = c.find? t key := by
  refine (ensures_readEntry_solitary _).bind fun e => ?_
  cases e with
  | none =>
    refine Ensures.pure fun h hh => hh.mono fun t ⟨ht, he⟩ => ⟨ht, ?_⟩
    simp [find?, ← he]
  | some e =>
    dsimp only
    split_ifs with hkey
    · refine Ensures.pure fun h hh => hh.mono fun t ⟨ht, he⟩ => ⟨ht, ?_⟩
      simp [find?, ← he, hkey]
    obtain rfl : e.key = key := not_not.mp hkey
    refine (ensures_readBlob_solitary c _).bind fun raw => ?_
    cases raw with
    | none =>
      refine Ensures.pure fun h hh => hh.mono fun t ⟨⟨ht, he⟩, hraw⟩ => ⟨ht, ?_⟩
      simp [find?, ← he, ← hraw]
    | some raw =>
      refine (ensures_readBlob_solitary c _).bind fun optimized => ?_
      cases optimized with
      | none =>
        refine Ensures.pure fun h hh => hh.mono fun t ⟨⟨⟨ht, he⟩, hraw⟩, hopt⟩ => ⟨ht, ?_⟩
        simp [find?, ← he, ← hraw, ← hopt]
      | some optimized =>
        refine Ensures.pure fun h hh => hh.mono fun t ⟨⟨⟨ht, he⟩, hraw⟩, hopt⟩ => ⟨ht, ?_⟩
        simp [find?, ← he, ← hraw, ← hopt]

/-! ### Pruning -/

section

variable {h₀ : Host} {seen : Prop}

/-- What is listed is all there is or nothing. -/
lemma ensures_filesIn_since (dir : Path) :
    Ensures (Since h₀ t seen) (filesIn dir).run (Ends (Lapses h₀) fun names h =>
      (names = visibleFiles t dir ∨ names = []) ∧
        Since h₀ t (seen ∧ names = visibleFiles t dir) h) := by
  have hnone : ∀ h, Since h₀ t (seen ∧ [] = visibleFiles t dir) h →
      ([] = visibleFiles t dir ∨ ([] : List String) = []) ∧
        Since h₀ t (seen ∧ [] = visibleFiles t dir) h := fun h hh => ⟨.inr rfl, hh⟩
  refine ensures_result (ensures_inspect_since (·.look dir)) fun r => ?_
  rcases r with f | (⟨content, x⟩ | _ | _)
  · exact fun h hh => hnone h (hh.2.imp fun hs => ⟨hs.1, by rw [visibleFiles, hs.2]⟩)
  · exact fun h hh => hnone h (hh.2.imp fun hs => ⟨hs.1, by rw [visibleFiles, hs.2]⟩)
  · rintro h ⟨hlook, hh⟩
    refine ensures_result (ensures_inspect_since fun t => (t.list dir).map (filesIn.published dir t))
      (fun r => ?_) h (hh.imp And.left)
    have hlist := list_published (hlook _ rfl)
    cases r with
    | error f =>
      rintro h ⟨-, hh⟩
      exact hh.sees.resolve_right fun hs => by cases hs.2.symm.trans hlist
    | ok names =>
      rintro h ⟨hnames, hh⟩
      have hall : names = visibleFiles t dir :=
        Except.ok.inj ((hnames names rfl).symm.trans hlist)
      exact ⟨.inl hall, hh.imp fun hs => ⟨hs.1, hall⟩⟩
  · exact fun h hh => hnone h (hh.2.imp fun hs => ⟨hs.1, by rw [visibleFiles, hs.2]⟩)

/-- An entry that is not read counts as none. -/
lemma ensures_readEntry_since (p : Path) :
    Ensures (Since h₀ t seen) (readEntry p) fun r h =>
      (r = entryAt t p ∨ r = none) ∧ Since h₀ t (seen ∧ r = entryAt t p) h := by
  refine (ensures_inspect_since _).bind fun r => ?_
  cases r with
  | ok content =>
    refine Ensures.pure fun h hh => ?_
    have hentry : Entry.decode? content = entryAt t p := by
      rw [entryAt, hh.1 content rfl]
      rfl
    exact ⟨.inl hentry, hh.2.imp fun hs => ⟨hs.1, hentry⟩⟩
  | error f =>
    refine Ensures.pure fun h hh => ⟨.inr rfl, hh.2.imp fun hs => ⟨hs.1, ?_⟩⟩
    rw [entryAt, hs.2]
    rfl

lemma ensures_discard {p : Path} {content : Bytes} (hread : t.read p = .ok content) :
    Ensures (Since h₀ t seen) (discard p).run (Ends (Lapses h₀) fun _ h =>
      Tree.Removes [p.destination t.start] t h.tree ∧ Since h₀ h.tree seen h) := by
  obtain ⟨hknows, x, hget⟩ := Tree.read_eq_ok_iff.mp hread
  have hremove := Tree.removeFile_of_knows hknows hget
  refine ensures_result (ensures_alter_since (·.removeFile p)) fun r => ?_
  cases r with
  | ok _ =>
    refine Ensures.pure_ok ?_
    rintro h ⟨t', hok, hh⟩
    obtain rfl := hh.tree
    exact ⟨Tree.Removes.of_removeFile hok, hh⟩
  | error f =>
    rintro h ⟨hnone, hh⟩
    have hf : f ≠ .notFound := fun hf => by cases (hnone hf).symm.trans hremove
    dsimp only
    rw [if_neg hf]
    exact hh.sees.resolve_right fun hs => by cases hs.2.symm.trans hremove

end

/-- The entry in a file, if it was made by a version of the toolchain. -/
def keptAt (c : Cache) (t : Tree) (version name : String) : Option Entry :=
  (entryAt t (c.entriesDir.joinName name)).filter (·.toolchain == version)

/-- The digests that an entry names. -/
def Entry.digests (e : Entry) : List String := [e.raw.digest, e.optimized.digest]

/-- The digests that the entries of a version name. -/
def namedBy (c : Cache) (t : Tree) (version : String) (names : List String) : List String :=
  names.flatMap fun name => (c.keptAt t version name).toList.flatMap Entry.digests

/-- The files that are no entries of a version, as far as they have been read. -/
def outdated (c : Cache) (t : Tree) (version : String) (read names : List String) : List String :=
  names.filter fun name => !(read.contains name && (c.keptAt t version name).isSome)

/-- Names of files of a directory, each once. -/
structure AreReadable (t : Tree) (dir : Path) (names : List String) : Prop where
  isName : ∀ name ∈ names, IsName name
  read : ∀ name ∈ names, ∃ content, t.read (dir.joinName name) = .ok content
  nodup : names.Nodup

/-- The places of names in a directory. -/
def placesIn (t : Tree) (dir : Path) (names : List String) : List Place :=
  names.map fun name => dir.destination t.start ++ [name]

lemma mem_placesIn {dir : Path} {names : List String} {name : String} :
    dir.destination t.start ++ [name] ∈ placesIn t dir names ↔ name ∈ names := by
  unfold placesIn
  constructor
  · intro h
    obtain ⟨n, hn, heq⟩ := List.mem_map.mp h
    obtain rfl : n = name := by simpa using heq
    exact hn
  · exact fun h => List.mem_map.mpr ⟨name, h, rfl⟩

section

variable {dir : Path} {names : List String} {name : String}

/-- Removing one of the files leaves the others. -/
lemma AreReadable.read_of_removes (h : AreReadable t dir (name :: names))
    (hr : Tree.Removes [(dir.joinName name).destination t.start] t t') {n : String}
    (hn : n ∈ names) {content : Bytes} :
    t'.read (dir.joinName n) = .ok content ↔ t.read (dir.joinName n) = .ok content := by
  have hne : n ≠ name := fun heq => (List.nodup_cons.mp h.nodup).1 (heq ▸ hn)
  rw [hr.read_iff, Path.destination_joinName _ _ (h.isName n (List.mem_cons_of_mem _ hn)),
    Path.destination_joinName _ _ (h.isName name List.mem_cons_self)]
  simp [hne]

lemma AreReadable.of_cons (h : AreReadable t dir (name :: names)) : AreReadable t dir names :=
  ⟨fun n hn => h.isName n (List.mem_cons_of_mem _ hn),
    fun n hn => h.read n (List.mem_cons_of_mem _ hn), (List.nodup_cons.mp h.nodup).2⟩

lemma AreReadable.of_removes (h : AreReadable t dir (name :: names))
    (hr : Tree.Removes [(dir.joinName name).destination t.start] t t') :
    AreReadable t' dir names := by
  refine ⟨h.of_cons.isName, fun n hn => ?_, h.of_cons.nodup⟩
  obtain ⟨content, hread⟩ := h.of_cons.read n hn
  exact ⟨content, (h.read_of_removes hr hn).mpr hread⟩

end

/-- Removing one of the files does not change what the others are. -/
lemma keptAt_of_removes (version : String) {names : List String} {name : String}
    (hnames : AreReadable t c.entriesDir (name :: names))
    (hr : Tree.Removes [(c.entriesDir.joinName name).destination t.start] t t') {n : String}
    (hn : n ∈ names) : c.keptAt t' version n = c.keptAt t version n := by
  obtain ⟨content, hread⟩ := hnames.of_cons.read n hn
  rw [keptAt, keptAt, entryAt, entryAt, hread, (hnames.read_of_removes hr hn).mpr hread]

/-- What pruning makes of entries of which some have been read. -/
structure Sweeps (c : Cache) (version : String) (named : List String) (removed : ℕ)
    (read names : List String) (t t' : Tree) (r : List String × ℕ) : Prop where
  sub : read ⊆ names
  digests : r.1 = named ++ c.namedBy t version read
  count : r.2 = removed + (c.outdated t version read names).length
  removes : Tree.Removes (placesIn t c.entriesDir (c.outdated t version read names)) t t'

namespace Sweeps

variable {version name : String} {named names read read' : List String} {removed : ℕ}
  {r : List String × ℕ} {t₁ : Tree}

lemma outdated_cons_read (hname : name ∉ names) :
    c.outdated t version (name :: read) names = c.outdated t version read names := by
  refine List.filter_congr fun n hn => ?_
  have hne : n ≠ name := by rintro rfl; exact hname hn
  simp [hne]

/-- An entry is kept. -/
lemma keep (hnames : AreReadable t c.entriesDir (name :: names)) {e : Entry}
    (he : c.keptAt t version name = some e)
    (h : c.Sweeps version (named ++ e.digests) removed read names t t' r) :
    c.Sweeps version named removed (name :: read) (name :: names) t t' r := by
  have hcons : c.outdated t version (name :: read) (name :: names) =
      c.outdated t version read names := by
    rw [← outdated_cons_read (List.nodup_cons.mp hnames.nodup).1]
    exact List.filter_cons_of_neg (by simp [he])
  refine ⟨List.cons_subset_cons name h.sub, ?_, by rw [hcons, h.count], hcons ▸ h.removes⟩
  rw [h.digests, Cache.namedBy, Cache.namedBy, List.flatMap_cons, he]
  simp

/-- A file goes. -/
lemma discard (hnames : AreReadable t c.entriesDir (name :: names))
    (hr : Tree.Removes [(c.entriesDir.joinName name).destination t.start] t t₁)
    (h : c.Sweeps version named (removed + 1) read names t₁ t' r) (hsub : read' ⊆ name :: names)
    (hdigests : c.namedBy t version read' = c.namedBy t version read)
    (hcons : c.outdated t version read' (name :: names) =
      name :: c.outdated t version read names) :
    c.Sweeps version named removed read' (name :: names) t t' r := by
  have hsame : c.outdated t₁ version read names = c.outdated t version read names :=
    List.filter_congr fun n hn => by rw [keptAt_of_removes version hnames hr hn]
  have hnamed : c.namedBy t₁ version read = c.namedBy t version read :=
    List.flatMap_congr fun n hn => by rw [keptAt_of_removes version hnames hr (h.sub hn)]
  refine ⟨hsub, by rw [h.digests, hnamed, hdigests], ?_, ?_⟩
  · rw [h.count, hsame, hcons, List.length_cons, Nat.add_right_comm]
    rfl
  · have hremoves := h.removes
    rw [hsame, placesIn, hr.start] at hremoves
    rw [Path.destination_joinName _ _ (hnames.isName name List.mem_cons_self)] at hr
    rw [hcons]
    exact hr.trans hremoves

/-- A file goes that has not been read. -/
lemma discard_unread (hnames : AreReadable t c.entriesDir (name :: names))
    (hr : Tree.Removes [(c.entriesDir.joinName name).destination t.start] t t₁)
    (h : c.Sweeps version named (removed + 1) read names t₁ t' r) :
    c.Sweeps version named removed read (name :: names) t t' r := by
  have hunread : name ∉ read := fun hmem => (List.nodup_cons.mp hnames.nodup).1 (h.sub hmem)
  exact h.discard hnames hr (List.subset_cons_of_subset name h.sub) rfl
    (List.filter_cons_of_pos (by simp [hunread]))

/-- A file goes that is no entry. -/
lemma discard_none (hnames : AreReadable t c.entriesDir (name :: names))
    (hr : Tree.Removes [(c.entriesDir.joinName name).destination t.start] t t₁)
    (hnone : c.keptAt t version name = none)
    (h : c.Sweeps version named (removed + 1) read names t₁ t' r) :
    c.Sweeps version named removed (name :: read) (name :: names) t t' r := by
  refine h.discard hnames hr (List.cons_subset_cons name h.sub) ?_ ?_
  · rw [Cache.namedBy, Cache.namedBy, List.flatMap_cons, hnone]
    rfl
  · rw [← outdated_cons_read (List.nodup_cons.mp hnames.nodup).1]
    exact List.filter_cons_of_pos (by simp [hnone])

end Sweeps

lemma ensures_pruneEntries (c : Cache) (version : String) {h₀ : Host} {seen : Prop}
    {named : List String} {removed : ℕ} {names : List String}
    (hnames : AreReadable t c.entriesDir names) :
    Ensures (Since h₀ t seen) (c.pruneEntries version named removed names).run
      (Ends (Lapses h₀) fun r h => ∃ read, c.Sweeps version named removed read names t h.tree r ∧
        Since h₀ h.tree (seen ∧ read = names) h) := by
  induction names generalizing t named removed seen with
  | nil =>
    refine Ensures.pure_ok fun h hh => ?_
    obtain rfl := hh.tree
    exact ⟨[], ⟨List.nil_subset _, by simp [namedBy], by simp [outdated], Tree.Removes.refl _⟩,
      hh.imp fun hs => ⟨hs, rfl⟩⟩
  | cons name names ih =>
    refine Ensures.bind_ok (Ensures.lift (ensures_readEntry_since _)) fun r => ?_
    rintro h ⟨hr, hh⟩
    rcases hkept : r.filter (·.toolchain == version) with _ | e
    · rw [hkept]
      obtain ⟨content, hread⟩ := hnames.read name List.mem_cons_self
      refine Ensures.bind_ok (ensures_discard hread) (fun _ h₁ hh₁ => ?_) h hh
      obtain ⟨hremoves, hh₁⟩ := hh₁
      refine (ih (hnames.of_removes hremoves)).mono (Ends.imp (fun _ hl => hl) ?_) h₁ hh₁
      rintro r' h₂ ⟨read, hsweeps, hh₂⟩
      -- the entry has been read if what came of reading is what is there
      by_cases hentry : r = entryAt t (c.entriesDir.joinName name)
      · refine ⟨name :: read, hsweeps.discard_none hnames hremoves ?_,
          hh₂.imp fun ⟨hs, hread⟩ => ⟨hs.1, by rw [hread]⟩⟩
        rw [keptAt, ← hentry, hkept]
      · exact ⟨read, hsweeps.discard_unread hnames hremoves,
          hh₂.imp fun ⟨hs, _⟩ => absurd hs.2 hentry⟩
    · have hentry : r = entryAt t (c.entriesDir.joinName name) := hr.resolve_right fun hnone => by
        rw [hnone] at hkept
        cases hkept
      have hkept' : c.keptAt t version name = some e := by rw [keptAt, ← hentry, hkept]
      rw [hkept]
      refine (ih hnames.of_cons).mono (Ends.imp (fun _ hl => hl) ?_) h (hh.imp And.left)
      rintro r' h₂ ⟨read, hsweeps, hh₂⟩
      exact ⟨name :: read, hsweeps.keep hnames hkept',
        hh₂.imp fun ⟨hs, hread⟩ => ⟨hs, by rw [hread]⟩⟩

lemma ensures_pruneBlobs (c : Cache) (named : List String) {h₀ : Host} {seen : Prop} {removed : ℕ}
    {names : List String} (hnames : AreReadable t c.blobsDir names) :
    Ensures (Since h₀ t seen) (c.pruneBlobs named removed names).run
      (Ends (Lapses h₀) fun r h => r = removed + (names.filter (!named.contains ·)).length ∧
        Tree.Removes (placesIn t c.blobsDir (names.filter (!named.contains ·))) t h.tree ∧
          Since h₀ h.tree seen h) := by
  induction names generalizing t removed with
  | nil =>
    refine Ensures.pure_ok fun h hh => ?_
    obtain rfl := hh.tree
    exact ⟨rfl, Tree.Removes.refl _, hh⟩
  | cons name names ih =>
    rw [pruneBlobs]
    split_ifs with hnamed
    · rw [List.filter_cons_of_neg (by simpa using hnamed)]
      exact ih hnames.of_cons
    · obtain ⟨content, hread⟩ := hnames.read name List.mem_cons_self
      rw [List.filter_cons_of_pos (by simpa using hnamed)]
      refine Ensures.bind_ok (ensures_discard hread) fun _ h₁ hh₁ => ?_
      obtain ⟨hremoves, hh₁⟩ := hh₁
      refine (ih (hnames.of_removes hremoves)).mono (Ends.imp (fun _ hl => hl) ?_) h₁ hh₁
      rintro r h₂ ⟨hr, hrest, hh₂⟩
      refine ⟨?_, ?_, hh₂⟩
      · rw [hr, List.length_cons, Nat.add_right_comm]
        rfl
      · rw [placesIn, hremoves.start] at hrest
        rw [Path.destination_joinName _ _ (hnames.isName name List.mem_cons_self)] at hremoves
        exact hremoves.trans hrest

/-- The names in the two directories of a cache lead downwards. -/
structure HasProperNames (c : Cache) (t : Tree) : Prop where
  entries : ∀ name, t.get? (c.entriesDir.destination t.start ++ [name]) ≠ none → IsName name
  blobs : ∀ name, t.get? (c.blobsDir.destination t.start ++ [name]) ≠ none → IsName name

lemma areReadable_visibleFiles {dir : Path} (hdir : dir.text.toList ≠ [])
    (hproper : ∀ name, t.get? (dir.destination t.start ++ [name]) ≠ none → IsName name) :
    AreReadable t dir (visibleFiles t dir) :=
  ⟨fun _ hn => ((mem_visibleFiles hdir hproper).mp hn).1,
    fun _ hn => ((mem_visibleFiles hdir hproper).mp hn).2.2, nodup_visibleFiles t dir⟩

lemma HasProperNames.of_removes (h : c.HasProperNames t) {gone : List Place}
    (hr : Tree.Removes gone t t') : c.HasProperNames t' := by
  refine ⟨fun name hget => ?_, fun name hget => ?_⟩
  · obtain ⟨n, hn⟩ := Option.ne_none_iff_exists'.mp hget
    rw [hr.start] at hn
    exact h.entries name (by rw [(hr.get?_of_some hn).2]; simp)
  · obtain ⟨n, hn⟩ := Option.ne_none_iff_exists'.mp hget
    rw [hr.start] at hn
    exact h.blobs name (by rw [(hr.get?_of_some hn).2]; simp)

/-- What pruning has seen: the entries that were listed, those of them that could be read, and the
blobs that were listed. -/
structure Sight where
  entries : List String
  read : List String
  blobs : List String

/-- Everything there is to see. -/
def Sight.full (c : Cache) (t between : Tree) : Sight :=
  ⟨visibleFiles t c.entriesDir, visibleFiles t c.entriesDir, visibleFiles between c.blobsDir⟩

/-- Files are listed all or not at all. -/
structure Sight.Fits (s : Sight) (c : Cache) (t between : Tree) : Prop where
  entries : s.entries = visibleFiles t c.entriesDir ∨ s.entries = []
  read : s.read ⊆ s.entries
  blobs : s.blobs = visibleFiles between c.blobsDir ∨ s.blobs = []

/-- The entries that were seen and are not of a version go, and then the blobs that were seen and
that the others do not name. -/
structure Prunes (c : Cache) (version : String) (s : Sight) (t between t' : Tree) : Prop where
  entries : Tree.Removes (placesIn t c.entriesDir (c.outdated t version s.read s.entries)) t between
  blobs : Tree.Removes (placesIn between c.blobsDir
    (s.blobs.filter (!(c.namedBy t version s.read).contains ·))) between t'

/-- Pruning removes what it has to by what it has seen, and counts it. It sees everything and succeeds
if no step is refused. -/
lemma ensures_prune_since (c : Cache) (version : String) {h₀ : Host} (hproper : c.HasProperNames t) :
    Ensures (Since h₀ t True) (c.prune version).run (Ends (Lapses h₀) fun report h =>
      ∃ s between, s.Fits c t between ∧ c.Prunes version s t between h.tree ∧
        report.entries = (c.outdated t version s.read s.entries).length ∧
        report.blobs = (s.blobs.filter (!(c.namedBy t version s.read).contains ·)).length ∧
        Since h₀ h.tree (s = .full c t between) h) := by
  have hentries : c.entriesDir.text.toList ≠ [] := Tree.text_joinName_ne_nil _ isName_entries
  have hblobs : c.blobsDir.text.toList ≠ [] := Tree.text_joinName_ne_nil _ isName_blobs
  refine Ensures.bind_ok (ensures_filesIn_since _) fun entries => ?_
  rintro h ⟨hlisted, hh⟩
  have hreadable : AreReadable t c.entriesDir entries := by
    rcases hlisted with rfl | rfl
    · exact areReadable_visibleFiles hentries hproper.entries
    · exact ⟨by simp, by simp, List.nodup_nil⟩
  refine Ensures.bind_ok (c.ensures_pruneEntries version hreadable) (fun r => ?_) h hh
  rintro h₁ ⟨read, hsweeps, hh₁⟩
  refine Ensures.bind_ok (ensures_filesIn_since _) (fun blobs => ?_) h₁ hh₁
  rintro h₂ ⟨hlisted₁, hh₂⟩
  have hreadable₁ : AreReadable h₁.tree c.blobsDir blobs := by
    rcases hlisted₁ with rfl | rfl
    · exact areReadable_visibleFiles hblobs (hproper.of_removes hsweeps.removes).blobs
    · exact ⟨by simp, by simp, List.nodup_nil⟩
  refine Ensures.bind_ok (c.ensures_pruneBlobs _ hreadable₁) (fun removed => ?_) h₂ hh₂
  refine Ensures.pure_ok ?_
  rintro h₃ ⟨hremoved, hremoves, hh₃⟩
  have hdigests : r.1 = c.namedBy t version read := hsweeps.digests
  rw [hdigests] at hremoved hremoves
  refine ⟨⟨entries, read, blobs⟩, h₁.tree, ⟨hlisted, hsweeps.sub, hlisted₁⟩,
    ⟨hsweeps.removes, hremoves⟩, ?_, ?_, hh₃.imp ?_⟩
  · rw [hsweeps.count, Nat.zero_add]
  · rw [hremoved, Nat.zero_add]
  · rintro ⟨⟨⟨-, rfl⟩, rfl⟩, rfl⟩
    rfl

/-- Pruning succeeds where no step is refused, whatever the directory holds. -/
lemma ensures_prune (c : Cache) (version : String) (hproper : c.HasProperNames t) :
    Ensures (Solitary (· = t)) (c.prune version).run (Ends (fun _ => False) fun _ =>
      Solitary fun t' => ∃ between, c.Prunes version (.full c t between) t between t') := by
  intro h hh
  have hsince : Since h t True h := hh.tree ▸ hh.candid.since
  have hend := c.ensures_prune_since version hproper h hsince
  revert hend
  generalize (c.prune version).run h = p
  obtain ⟨r, h'⟩ := p
  intro hend
  cases r with
  | error f =>
    obtain ⟨n, -, -, hrefused⟩ := hend
    exact hrefused (hh.willing n)
  | ok report =>
    obtain ⟨s, between, -, hprunes, -, -, hsees⟩ := hend
    obtain ⟨rfl, hh'⟩ := hsees.solitary hh.willing
    exact hh'.mono fun t' ht' => ⟨between, ht' ▸ hprunes⟩

/-! ### Clearing -/

/-- A directory is gone with everything in it, or there was none. -/
def RemovesTree (dir : Path) (t t' : Tree) : Prop :=
  t.look dir = .ok .directory ∧ t' = t.eraseAll (dir.destination t.start) ∨
    t.look dir = .error .notFound ∧ t' = t

lemma ensures_removeTree (dir : Path) :
    Ensures (Solitary T) (removeTree dir).run (Ends (fun _ => True) fun _ =>
      Solitary fun t' => ∃ t, T t ∧ RemovesTree dir t t') := by
  refine ensures_result (ensures_alter_solitary (·.removeDirectory dir)) fun r => ?_
  cases r with
  | ok _ =>
    exact Ensures.pure_ok fun h hh => hh.mono fun t' ⟨t, ht, hok⟩ =>
      ⟨t, ht, .inl (Tree.removeDirectory_eq_ok hok)⟩
  | error f =>
    dsimp only
    split_ifs with hf
    · exact Ensures.pure_ok fun h hh => hh.mono fun t ⟨ht, herror⟩ =>
        ⟨t, ht, .inr ⟨Tree.look_of_removeDirectory (hf ▸ herror), rfl⟩⟩
    · exact fun _ _ => trivial

lemma ensures_clear (c : Cache) :
    Ensures (Solitary T) c.clear.run (Ends (fun _ => True) fun _ => Solitary fun t' =>
      ∃ t between, T t ∧ RemovesTree c.entriesDir t between ∧
        RemovesTree c.blobsDir between t') := by
  have hstats : Ensures (Solitary T) c.stats.run (Ends (fun _ => True) fun _ => Solitary T) :=
    c.ensures_stats.mono (Meets.imp (fun _ _ h => h.elim) fun _ _ hh => hh.mono fun t ht => ht.1)
  refine Ensures.bind_ok hstats fun before => ?_
  refine Ensures.bind_ok (ensures_removeTree _) fun _ => ?_
  refine Ensures.bind_ok (ensures_removeTree _) fun _ => ?_
  exact Ensures.pure_ok fun h hh => hh.mono fun t' ⟨between, ⟨t, ht, hentries⟩, hblobs⟩ =>
    ⟨t, between, ht, hentries, hblobs⟩

end Cache

end ContractBuild

import Mathlib
import ContractBuild.Proofs.Cache.Entry
import ContractBuild.Proofs.Cache.Key
import ContractBuild.Proofs.Host.Apart
import ContractBuild.Proofs.Host.Publish

/-!
The files of a cache that is filled with what builds give: each entry names the output of the
inputs its key was made from, and each blob is an output. Storing a build keeps it so, and looking
one up gives the output of its own inputs.
-/

namespace ContractBuild.Cache

open ContractBuild.Digest ContractBuild.Disk ContractBuild.Host

/-! ### Places -/

lemma isName_of_hex {s : String} (tail : String) (hs : s.toList.length = 64)
    (hhex : ∀ c ∈ s.toList, c ∈ hexDigits) (htail : '/' ∉ tail.toList) : IsName (s ++ tail) := by
  have hlen : 64 ≤ (s ++ tail).toList.length := by
    rw [String.toList_append, List.length_append]
    omega
  refine ⟨?_, ?_, ?_, ?_⟩
  · intro h
    rw [h] at hlen
    exact absurd hlen (by decide)
  · rw [String.toList_append, List.mem_append, not_or]
    exact ⟨fun h => absurd (hhex _ h) (by decide), htail⟩
  · intro h
    rw [h] at hlen
    exact absurd hlen (by decide)
  · intro h
    rw [h] at hlen
    exact absurd hlen (by decide)

lemma isHidden_of_hex {s : String} (tail : String) (hs : s.toList.length = 64)
    (hhex : ∀ c ∈ s.toList, c ∈ hexDigits) : isHidden (s ++ tail) = false := by
  rw [isHidden, String.toList_append]
  rcases hc : s.toList with _ | ⟨c, r⟩
  · rw [hc] at hs
    cases hs
  · have hdot : c ≠ '.' := by
      rintro rfl
      exact absurd (hhex '.' (by rw [hc]; exact List.mem_cons_self)) (by decide)
    simpa using hdot

lemma isName_digest (message : Bytes) : IsName (sha256Hex message) := by
  have := isName_of_hex "" (length_sha256Hex message)
    (fun _ => mem_hexDigits_of_mem_sha256Hex) (by decide)
  rwa [String.append_empty] at this

lemma isHidden_digest (message : Bytes) : isHidden (sha256Hex message) = false := by
  have := isHidden_of_hex "" (length_sha256Hex message) (fun _ => mem_hexDigits_of_mem_sha256Hex)
  rwa [String.append_empty] at this

/-- The name of the entry of some inputs. -/
def Inputs.file (i : Inputs) : String := i.key ++ ".json"

lemma Inputs.isName_file (i : Inputs) : IsName i.file :=
  isName_of_hex ".json" (length_sha256Hex _) (fun _ => mem_hexDigits_of_mem_sha256Hex) (by decide)

lemma Inputs.isHidden_file (i : Inputs) : isHidden i.file = false :=
  isHidden_of_hex ".json" (length_sha256Hex _) (fun _ => mem_hexDigits_of_mem_sha256Hex)

lemma Inputs.key_of_file {i j : Inputs} (h : i.file = j.file) : i.key = j.key := by
  have := congrArg String.toList h
  rw [file, file, String.toList_append, String.toList_append] at this
  exact String.toList_inj.mp (List.append_cancel_right this)

variable {c : Cache} {dir start : Place}

lemma isName_entries : IsName "entries" := ⟨by decide, by decide, by decide, by decide⟩

lemma isName_blobs : IsName "blobs" := ⟨by decide, by decide, by decide, by decide⟩

lemma destination_entriesDir (hc : c.dir.destination start = dir) :
    c.entriesDir.destination start = dir ++ ["entries"] := by
  rw [entriesDir, Path.destination_joinName start _ isName_entries, hc]

lemma destination_blobsDir (hc : c.dir.destination start = dir) :
    c.blobsDir.destination start = dir ++ ["blobs"] := by
  rw [blobsDir, Path.destination_joinName start _ isName_blobs, hc]

lemma destination_entryPath (hc : c.dir.destination start = dir) (i : Inputs) :
    (c.entryPath i.key).destination start = dir ++ ["entries", i.file] := by
  have hfile : s!"{i.key}.json" = i.file := rfl
  rw [entryPath, hfile, Path.destination_joinName start _ i.isName_file,
    destination_entriesDir hc, List.append_assoc]
  rfl

lemma destination_blobPath (hc : c.dir.destination start = dir) (message : Bytes) :
    (c.blobPath (sha256Hex message)).destination start = dir ++ ["blobs", sha256Hex message] := by
  rw [blobPath, Path.destination_joinName start _ (isName_digest message),
    destination_blobsDir hc, List.append_assoc]
  rfl

/-! ### What the files hold -/

/-- What builds give for the inputs they are made from, and which inputs there are. -/
structure Ledger where
  raw : Inputs → Bytes
  optimized : Inputs → Bytes
  used : Inputs → Prop

namespace Ledger

variable (L : Ledger)

/-- The content is an output. -/
def IsOutput (content : Bytes) : Prop :=
  ∃ i, L.used i ∧ (content = L.raw i ∨ content = L.optimized i)

/-- A file, at its place in the cache, that storing builds can have left there. -/
structure Admits (place : Place) (content : Bytes) : Prop where
  entry : ∀ name, place = ["entries", name] → isHidden name = false →
    ∃ i e, L.used i ∧ name = i.file ∧ content = Entry.encode e ∧
      e.optimized.digest = sha256Hex (L.optimized i)
  blob : ∀ name, place = ["blobs", name] → isHidden name = false → L.IsOutput content

lemma hides : Hides L.Admits := by
  have hlast : ∀ {place : Place} {n folder name : String}, place ++ [n] = [folder, name] →
      n = name := by
    intro place n folder name h
    have := congrArg List.getLast? h
    simpa using this
  intro place n content hhidden
  refine ⟨fun name h hn => ?_, fun name h hn => ?_⟩
  · rw [hlast h, hn] at hhidden
    cases hhidden
  · rw [hlast h, hn] at hhidden
    cases hhidden

/-- No two byte strings that are hashed have the same digest: the bytes under the keys, and the
outputs. -/
structure IsCollisionFree : Prop where
  key : ∀ i j, L.used i → L.used j → i.key = j.key → i = j
  output : ∀ content content', L.IsOutput content → L.IsOutput content' →
    sha256Hex content = sha256Hex content' → content = content'

end Ledger

variable {L : Ledger}

/-- A cache directory with nothing in it but what builds have left. -/
abbrev Clean (dir : Place) (L : Ledger) (start : Place) : Host → Prop :=
  Calm dir (Tended dir L.Admits start)

/-! ### Storing -/

lemma keeps_put {P : Host → Prop} {p : Path} {content : Bytes}
    (h : Keeps P (publish p content).run) : Keeps P (put p content).run := by
  refine ensures_result h fun r => ?_
  cases r with
  | ok _ => exact Keeps.pure_ok _
  | error f => exact Keeps.throw _

/-- Storing publishes the blobs and the entry, and no more. -/
lemma keeps_store_of {P : Host → Prop} {key : String} {a : Artifact}
    (hraw : Keeps P (publish (c.blobPath (sha256Hex a.raw)) a.raw).run)
    (hoptimized : Keeps P (publish (c.blobPath (sha256Hex a.optimized)) a.optimized).run)
    (hentry : ∀ now, Keeps P (publish (c.entryPath key) (Entry.encode
      ⟨key, .of a.raw, .of a.optimized, a.mode, a.toolchain, now⟩)).run) :
    Keeps P (c.store key a).run := by
  refine Keeps.bind_ok (fun h hh => hh) fun h => ?_
  refine (keeps_put hraw).bind_ok fun _ => ?_
  split_ifs
  · exact (keeps_put hoptimized).bind_ok fun _ =>
      (keeps_put (hentry _)).bind_ok fun _ => Keeps.pure_ok _
  · exact (keeps_put (hentry _)).bind_ok fun _ => Keeps.pure_ok _

lemma admits_blob (hc : c.dir.destination start = dir) {content : Bytes}
    (hcontent : L.IsOutput content) :
    Tree.Admits dir L.Admits ((c.blobPath (sha256Hex content)).destination start) content := by
  intro name rest hplace
  rw [destination_blobPath hc] at hplace
  rw [← List.append_cancel_left hplace]
  exact ⟨fun name h => absurd (List.cons.inj h).1 (by decide), fun _ _ _ => hcontent⟩

lemma admits_entry (hc : c.dir.destination start = dir) {i : Inputs} (hi : L.used i) {e : Entry}
    (he : e.optimized.digest = sha256Hex (L.optimized i)) :
    Tree.Admits dir L.Admits ((c.entryPath i.key).destination start) e.encode := by
  intro name rest hplace
  rw [destination_entryPath hc] at hplace
  rw [← List.append_cancel_left hplace]
  refine ⟨fun name h _ => ⟨i, e, hi, ?_, rfl, he⟩, fun name h => ?_⟩
  · exact (List.cons.inj (List.cons.inj h).2).1.symm
  · exact absurd (List.cons.inj h).1 (by decide)

/-- Storing keeps the directory tended if the blobs and the entry are admitted. -/
lemma keeps_tended_store {I : Place → Bytes → Prop} (hI : Hides I) {key : String} {a : Artifact}
    (hraw : Tree.Admits dir I ((c.blobPath (sha256Hex a.raw)).destination start) a.raw)
    (hoptimized : Tree.Admits dir I ((c.blobPath (sha256Hex a.optimized)).destination start)
      a.optimized)
    (hentry : ∀ now, Tree.Admits dir I ((c.entryPath key).destination start) (Entry.encode
      ⟨key, .of a.raw, .of a.optimized, a.mode, a.toolchain, now⟩)) :
    Keeps (Calm dir (Tended dir I start)) (c.store key a).run :=
  keeps_store_of (keeps_publish hI hraw) (keeps_publish hI hoptimized) fun now =>
    keeps_publish hI (hentry now)

/-- A build of the inputs that the key is made from may be stored. -/
lemma keeps_store (hc : c.dir.destination start = dir) {i : Inputs} (hi : L.used i) (mode : Mode)
    (toolchain : String) :
    Keeps (Clean dir L start) (c.store i.key ⟨L.raw i, L.optimized i, mode, toolchain⟩).run :=
  keeps_tended_store L.hides (admits_blob hc ⟨i, hi, .inl rfl⟩) (admits_blob hc ⟨i, hi, .inr rfl⟩)
    fun _ => admits_entry hc hi rfl

/-! ### Files elsewhere -/

lemma isClear_of_below {ps : List Path} {target : Path} {folder name : String}
    (hps : ∀ p ∈ ps, ¬ dir <+: (p.destination start).dropLast)
    (htarget : target.destination start = dir ++ [folder, name]) : IsClear ps start target := by
  have hapart : ∀ p ∈ ps, ∀ n, p.destination start ≠ dir ++ [folder, n] := by
    intro p hp n heq
    refine hps p hp ?_
    rw [heq, List.dropLast_append_of_ne_nil (by simp)]
    exact List.prefix_append _ _
  refine ⟨fun p hp => ?_, fun n place hplace p hp => ?_⟩
  · rw [htarget]
    exact hapart p hp name
  · obtain ⟨folder', name', kind, -, hsame, rfl⟩ := hplace
    have hsplit : dir ++ [folder, name] = (dir ++ [folder]) ++ [name] := by simp
    rw [htarget, hsplit] at hsame
    obtain ⟨rfl, -⟩ := List.append_inj' hsame rfl
    rw [List.append_assoc]
    exact hapart p hp _

/-- Storing keeps the files that are not in the directory. -/
lemma keeps_store_apart {ps : List Path} {t₀ : Tree} (hc : c.dir.destination t₀.start = dir)
    (hps : ∀ p ∈ ps, ¬ dir <+: (p.destination t₀.start).dropLast) (i : Inputs) (a : Artifact) :
    Keeps (Keeping ps t₀) (c.store i.key a).run :=
  keeps_store_of (keeps_publish_apart (isClear_of_below hps (destination_blobPath hc _)) _)
    (keeps_publish_apart (isClear_of_below hps (destination_blobPath hc _)) _)
    fun _ => keeps_publish_apart (isClear_of_below hps (destination_entryPath hc i)) _

/-! ### Looking up -/

lemma ensures_read {I : Place → Bytes → Prop} (p : Path) :
    Ensures (Calm dir (Tended dir I start)) (Host.read p).run
      (Ends (Calm dir (Tended dir I start)) fun content =>
        Calm dir fun t => Tended dir I start t ∧
          ∃ x, t.get? (p.destination start) = some (.file content x)) := by
  refine ensures_step stable_tended fun t content t' ht hok => ?_
  dsimp only at hok
  rcases hr : t.read p with f | bytes
  · rw [hr] at hok; cases hok
  · rw [hr] at hok
    cases hok
    obtain ⟨place, x, hplace, hget⟩ := Tree.read_eq_ok hr
    obtain rfl := Path.destination_of_placeOf hplace
    rw [ht.start] at hget
    exact ⟨ht, x, hget⟩

/-- The entry of a key was made from the inputs of that key. -/
lemma ensures_readEntry (hc : c.dir.destination start = dir) (i : Inputs) :
    Ensures (Clean dir L start) (readEntry (c.entryPath i.key)) fun r h => Clean dir L start h ∧
      ∀ e, r = some e →
        ∃ j, L.used j ∧ i.key = j.key ∧ e.optimized.digest = sha256Hex (L.optimized j) := by
  refine (ensures_read _).bind fun r => ?_
  cases r with
  | error f => exact fun h hh => ⟨hh, fun e he => nomatch he⟩
  | ok content =>
    intro h hh
    obtain ⟨htended, x, hget⟩ := hh.tree
    refine ⟨hh.mono fun t ht => ht.1, fun e he => ?_⟩
    rw [destination_entryPath hc] at hget
    have hadmits : L.Admits ["entries", i.file] content := htended.sound _ _ _ _ hget
    obtain ⟨j, e', hj, hfile, hcontent, hdigest⟩ := hadmits.entry i.file rfl i.isHidden_file
    have hdecode : Entry.decode? content = some e := he
    rw [hcontent] at hdecode
    obtain rfl := Entry.eq_of_decode? hdecode
    exact ⟨j, hj, Inputs.key_of_file hfile, hdigest⟩

/-- A blob is an output of its digest. -/
lemma ensures_readBlob (hc : c.dir.destination start = dir) (b : Blob) :
    Ensures (Clean dir L start) (c.readBlob b) fun r h => Clean dir L start h ∧
      ∀ content message, r = some content → b.digest = sha256Hex message →
        L.IsOutput content ∧ sha256Hex content = sha256Hex message := by
  refine (ensures_read _).bind fun r => ?_
  cases r with
  | error f => exact fun h hh => ⟨hh, fun content message he => nomatch he⟩
  | ok content =>
    intro h hh
    obtain ⟨htended, x, hget⟩ := hh.tree
    refine ⟨hh.mono fun t ht => ht.1, fun content' message he hdigest => ?_⟩
    change (if content.length = b.size ∧ sha256Hex content = b.digest then some content else none) =
      some content' at he
    split_ifs at he with hfits
    cases he
    rw [hdigest, destination_blobPath hc] at hget
    have hadmits : L.Admits ["blobs", sha256Hex message] content := htended.sound _ _ _ _ hget
    refine ⟨hadmits.blob _ rfl (isHidden_digest message), ?_⟩
    rw [hfits.2, hdigest]

/-- The cache is clean, and what was found is the output of the inputs. -/
def Finds (dir : Place) (L : Ledger) (start : Place) (i : Inputs) (r : Option Artifact) (h : Host) :
    Prop :=
  Clean dir L start h ∧ ∀ a, r = some a → a.optimized = L.optimized i

/-- What is found under the key of some inputs is their output. -/
lemma ensures_lookup (hc : c.dir.destination start = dir) (hL : L.IsCollisionFree) {i : Inputs}
    (hi : L.used i) : Ensures (Clean dir L start) (c.lookup i.key) (Finds dir L start i) := by
  refine (ensures_readEntry hc i).bind fun r => ?_
  cases r with
  | none => exact fun h hh => ⟨hh.1, fun a ha => nomatch ha⟩
  | some e =>
    rintro h ⟨hh, he⟩
    obtain ⟨j, hj, hkey, hdigest⟩ := he e rfl
    -- the key tells which inputs the entry was made from
    obtain rfl := hL.key i j hi hj hkey
    dsimp only
    split_ifs
    · exact ⟨hh, fun a ha => nomatch ha⟩
    refine Ensures.bind (ensures_readBlob hc e.raw) (fun raw => ?_) h hh
    cases raw with
    | none => exact fun h hh => ⟨hh.1, fun a ha => nomatch ha⟩
    | some raw =>
      rintro h ⟨hh, -⟩
      refine Ensures.bind (ensures_readBlob hc e.optimized) (fun content => ?_) h hh
      cases content with
      | none => exact fun h hh => ⟨hh.1, fun a ha => nomatch ha⟩
      | some content =>
        rintro h ⟨hh, hblob⟩
        refine ⟨hh, fun a ha => ?_⟩
        obtain rfl := (Option.some.inj ha).symm
        obtain ⟨houtput, hsame⟩ := hblob content (L.optimized i) rfl hdigest
        exact hL.output _ _ houtput ⟨i, hi, .inr rfl⟩ hsame

lemma keeps_readEntry {P : Host → Prop} (h : Quiet P) (p : Path) : Keeps P (readEntry p) := by
  refine Keeps.bind (h _ _) fun r => ?_
  cases r with
  | error f => exact Keeps.pure _
  | ok content => exact Keeps.pure _

lemma keeps_readBlob {P : Host → Prop} (h : Quiet P) (b : Blob) : Keeps P (c.readBlob b) := by
  refine Keeps.bind (h _ _) fun r => ?_
  cases r with
  | error f => exact Keeps.pure _
  | ok content => exact Keeps.pure _

/-- Looking up only looks at files. -/
lemma keeps_lookup {P : Host → Prop} (h : Quiet P) (key : String) : Keeps P (c.lookup key) := by
  refine (keeps_readEntry h _).bind fun r => ?_
  cases r with
  | none => exact Keeps.pure _
  | some e =>
    dsimp only
    split
    · exact Keeps.pure _
    refine (keeps_readBlob h _).bind fun raw => ?_
    cases raw with
    | none => exact Keeps.pure _
    | some raw =>
      refine (keeps_readBlob h _).bind fun content => ?_
      cases content with
      | none => exact Keeps.pure _
      | some content => exact Keeps.pure _

end ContractBuild.Cache

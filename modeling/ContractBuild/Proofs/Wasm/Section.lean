import Mathlib
import ContractBuild.Proofs.Program
import ContractBuild.Proofs.Wasm.Reader

/-!
Sections are read back as they were written, if they fit: a section that was read fits, and is
written with no more bytes than it was read from.
-/

namespace ContractBuild.Wasm

open ContractBuild.Text

namespace Section

/-- The identifier and the content that a section is written with. -/
def toRaw : Section → UInt8 × Bytes
  | .custom name data => (customId, writeSized (Utf8.encode name) ++ data)
  | .code bodies => (codeId, writeU32 bodies.length ++ bodies.flatMap writeSized)
  | .other id payload => (id, payload)

lemma write_eq (s : Section) : s.write = s.toRaw.1 :: writeSized s.toRaw.2 := by
  cases s <;> rfl

/-- The section comes back when it is written and read. -/
structure Fits (s : Section) : Prop where
  length_lt : s.toRaw.2.length < 2 ^ 32
  ofRaw_toRaw : ofRaw s.toRaw = some s

lemma fits_custom {name : String} {data : Bytes}
    (hn : (Utf8.encode name).length ≤ Reader.maxNameLength)
    (h : (custom name data).toRaw.2.length < 2 ^ 32) : (custom name data).Fits := by
  refine ⟨h, ?_⟩
  rw [toRaw, ofRaw, if_pos rfl, Reader.name_writeSized hn]
  rfl

lemma length_le_of_mem {b : Bytes} {bodies : List Bytes} (h : b ∈ bodies) :
    b.length ≤ (bodies.flatMap writeSized).length := by
  induction bodies with
  | nil => cases h
  | cons c bodies ih =>
    rw [List.flatMap_cons, List.length_append, writeSized, List.length_append]
    rcases List.mem_cons.mp h with rfl | h
    · omega
    · have := ih h; omega

lemma length_le_flatMap (bodies : List Bytes) :
    bodies.length ≤ (bodies.flatMap writeSized).length := by
  induction bodies with
  | nil => exact Nat.le_refl _
  | cons c bodies ih =>
    have : 0 < (writeU32 c.length).length := by
      rw [writeU32, writeGroups]
      split_ifs <;> simp
    rw [List.flatMap_cons, List.length_append, writeSized, List.length_append, List.length_cons]
    omega

lemma fits_code {bodies : List Bytes} (h : (code bodies).toRaw.2.length < 2 ^ 32) :
    (code bodies).Fits := by
  refine ⟨h, ?_⟩
  rw [toRaw] at h ⊢
  rw [List.length_append] at h
  have hcount := length_le_flatMap bodies
  have hbodies : ∀ b ∈ bodies, b.length < 2 ^ 32 := by
    intro b hb
    have := length_le_of_mem hb
    omega
  have hread : Reader.vector sized (writeU32 bodies.length ++ bodies.flatMap writeSized) =
      some (bodies, []) := by
    have := Reader.times_writeSized bodies hbodies []
    rw [List.append_nil] at this
    rw [Reader.vector, Reader.bind_of_eq (Reader.u32_writeU32 (by omega) _), this]
  rw [ofRaw, if_neg (show codeId ≠ customId by decide), if_pos rfl,
    Reader.whole_eq_some.mpr hread]
  rfl

/-- What is read fits, and is written with no more bytes. -/
lemma fits_of_ofRaw {raw : UInt8 × Bytes} {s : Section} (hlt : raw.2.length < 2 ^ 32)
    (h : ofRaw raw = some s) : s.Fits ∧ s.toRaw.1 = raw.1 ∧ s.toRaw.2.length ≤ raw.2.length := by
  obtain ⟨id, payload⟩ := raw
  simp only [ofRaw] at h hlt ⊢
  split_ifs at h with h1 h2
  · rw [Option.map_eq_some_iff] at h
    obtain ⟨⟨name, data⟩, hname, rfl⟩ := h
    obtain ⟨hn, hle⟩ := Reader.name_eq_some hname
    have hlen : (custom name data).toRaw.2.length ≤ payload.length := by
      rw [toRaw, List.length_append]; exact hle
    exact ⟨fits_custom hn (lt_of_le_of_lt hlen hlt), h1.symm, hlen⟩
  · rw [Option.map_eq_some_iff] at h
    obtain ⟨bodies, hbodies, rfl⟩ := h
    rw [Reader.whole_eq_some, Reader.vector, Reader.bind_eq_some] at hbodies
    obtain ⟨n, t, hn, ht⟩ := hbodies
    have hlen : (code bodies).toRaw.2.length ≤ payload.length := by
      have h1 := Reader.length_writeU32_add_le hn
      have h2 := Reader.length_flatMap_writeSized_add_le ht
      rw [toRaw, List.length_append, Reader.times_length ht]
      omega
    exact ⟨fits_code (lt_of_le_of_lt hlen hlt), h2.symm, hlen⟩
  · cases h
    exact ⟨⟨hlt, by simp [toRaw, ofRaw, h1, h2]⟩, rfl, Nat.le_refl _⟩

/-! ### Many sections -/

lemma raw_write {s : Section} (hs : s.toRaw.2.length < 2 ^ 32) (r : Bytes) :
    raw (s.write ++ r) = some (s.toRaw, r) := by
  rw [write_eq, List.cons_append, raw, writeSized, List.append_assoc,
    Reader.bind_of_eq (show Reader.byte (_ :: _) = some (_, _) from rfl),
    Reader.bind_of_eq (Reader.u32_writeU32 hs _),
    Reader.bind_of_eq (Reader.take_append _ _)]
  rfl

lemma many_raw_write (sections : List Section) (hs : ∀ s ∈ sections, s.Fits) (fuel : ℕ)
    (hfuel : sections.length ≤ fuel) :
    Reader.many raw fuel (sections.flatMap write) = some (sections.map toRaw) := by
  induction sections generalizing fuel with
  | nil => exact Reader.many_nil raw fuel
  | cons s sections ih =>
    obtain ⟨fuel, rfl⟩ : ∃ k, fuel = k + 1 := ⟨fuel - 1, by simp at hfuel; omega⟩
    have hraw := raw_write (hs s List.mem_cons_self).length_lt (sections.flatMap write)
    rw [write_eq, List.cons_append] at hraw
    rw [List.flatMap_cons, write_eq, List.cons_append, Reader.many_cons, hraw, Option.bind_some,
      ih (fun t ht => hs t (List.mem_cons_of_mem _ ht)) fuel (by simpa using hfuel)]
    rfl

lemma length_le_flatMap_write (sections : List Section) :
    sections.length ≤ (sections.flatMap write).length := by
  induction sections with
  | nil => exact Nat.le_refl _
  | cons s sections ih =>
    rw [List.flatMap_cons, write_eq, List.length_append, List.length_cons, List.length_cons]
    omega

lemma readAll_write (sections : List Section) (hs : ∀ s ∈ sections, s.Fits) :
    readAll (sections.flatMap write) = some sections := by
  rw [readAll, many_raw_write sections hs _ (length_le_flatMap_write sections)]
  refine option_mapM_eq_some.mpr (List.forall₂_map_left_iff.mpr ?_)
  exact List.forall₂_same.mpr fun s hmem => (hs s hmem).ofRaw_toRaw

lemma raw_eq_some {bs r : Bytes} {p : UInt8 × Bytes} (h : raw bs = some (p, r)) :
    ∃ t, bs = p.1 :: t ∧ sized t = some (p.2, r) := by
  rw [raw, Reader.bind_eq_some] at h
  obtain ⟨id, t, hid, h⟩ := h
  rw [Reader.bind_eq_some] at h
  obtain ⟨n, t', hn, h⟩ := h
  rw [Reader.bind_eq_some] at h
  obtain ⟨payload, t'', hp, h⟩ := h
  cases h
  have hsized : sized t = some (payload, r) := Reader.bind_eq_some.mpr ⟨n, t', hn, hp⟩
  cases bs with
  | nil => cases hid
  | cons b bs =>
    cases hid
    exact ⟨t, rfl, hsized⟩

lemma length_lt_of_raw {bs r : Bytes} {p : UInt8 × Bytes} (h : raw bs = some (p, r)) :
    p.2.length < 2 ^ 32 := by
  obtain ⟨t, -, hsized⟩ := raw_eq_some h
  rw [sized, Reader.bind_eq_some] at hsized
  obtain ⟨n, t', hn, hp⟩ := hsized
  rw [(Reader.take_eq_some.mp hp).2]
  exact Reader.u32_lt hn

lemma length_lt_of_many {fuel : ℕ} {bs : Bytes} {raws : List (UInt8 × Bytes)}
    (h : Reader.many raw fuel bs = some raws) : ∀ p ∈ raws, p.2.length < 2 ^ 32 := by
  induction fuel generalizing bs raws with
  | zero =>
    cases bs with
    | nil => cases h; simp
    | cons b bs => cases h
  | succ fuel ih =>
    cases bs with
    | nil => cases h; simp
    | cons b bs =>
      rw [Reader.many_cons, Option.bind_eq_some_iff] at h
      obtain ⟨⟨p, r⟩, hr, h⟩ := h
      obtain ⟨raws', hraws', rfl⟩ := Option.map_eq_some_iff.mp h
      intro q hq
      rcases List.mem_cons.mp hq with rfl | hq
      · exact length_lt_of_raw hr
      · exact ih hraws' q hq

lemma fits_of_readAll {bs : Bytes} {sections : List Section} (h : readAll bs = some sections) :
    ∀ s ∈ sections, s.Fits := by
  obtain ⟨raws, hraws, hmap⟩ := Option.bind_eq_some_iff.mp h
  have hall := option_mapM_eq_some.mp hmap
  have hlt := length_lt_of_many hraws
  clear h hraws hmap
  induction hall with
  | nil => simp
  | cons hp _ ih =>
    intro s hs
    rcases List.mem_cons.mp hs with rfl | hs
    · exact (fits_of_ofRaw (hlt _ List.mem_cons_self) hp).1
    · exact ih (fun q hq => hlt q (List.mem_cons_of_mem _ hq)) s hs

/-- Sections that are read after they were written were not too long. -/
lemma length_lt_of_readAll_write {sections read : List Section}
    (h : readAll (sections.flatMap write) = some read) :
    ∀ s ∈ sections, s.toRaw.2.length < 2 ^ 32 := by
  obtain ⟨raws, hraws, -⟩ := Option.bind_eq_some_iff.mp h
  clear h
  generalize (sections.flatMap write).length = fuel at hraws
  induction sections generalizing fuel raws with
  | nil => simp
  | cons s sections ih =>
    rw [List.flatMap_cons, write_eq, List.cons_append] at hraws
    cases fuel with
    | zero => cases hraws
    | succ fuel =>
      rw [Reader.many_cons, Option.bind_eq_some_iff] at hraws
      obtain ⟨⟨p, r⟩, hr, hraws⟩ := hraws
      obtain ⟨raws', hraws', rfl⟩ := Option.map_eq_some_iff.mp hraws
      have hlt : s.toRaw.2.length < 2 ^ 32 := by
        obtain ⟨t, ht, hsized⟩ := raw_eq_some hr
        obtain ⟨-, rfl⟩ := List.cons.inj ht
        rw [sized, Reader.bind_eq_some, writeSized, List.append_assoc] at hsized
        obtain ⟨n, _, hn, -⟩ := hsized
        exact Reader.lt_of_u32_writeU32 hn
      have hraw := raw_write hlt (sections.flatMap write)
      rw [write_eq, List.cons_append, hr] at hraw
      obtain ⟨-, rfl⟩ := Prod.mk.inj (Option.some.inj hraw)
      exact List.forall_mem_cons.mpr ⟨hlt, ih _ _ hraws'⟩

end Section

/-! ### Binaries -/

lemma readBinary_writeModule {sections : List Section} (hs : ∀ s ∈ sections, s.Fits) :
    readBinary (writeModule sections) = some ⟨.module, 1, sections⟩ := by
  have h : readBinary (writeModule sections) =
      (Section.readAll (sections.flatMap Section.write)).map (Binary.mk .module 1) := rfl
  rw [h, Section.readAll_write sections hs]
  rfl

lemma fits_of_readBinary {bs : Bytes} {b : Binary} (h : readBinary bs = some b) :
    ∀ s ∈ b.sections, s.Fits := by
  unfold readBinary at h
  split at h
  · split at h
    · obtain ⟨sections, hsections, rfl⟩ := Option.map_eq_some_iff.mp h
      exact Section.fits_of_readAll hsections
    · cases h
  · cases h

end ContractBuild.Wasm

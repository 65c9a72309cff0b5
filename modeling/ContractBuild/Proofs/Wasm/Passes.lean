import Mathlib
import ContractBuild.Proofs.Wasm.Standard

/-!
The passes on a valid module, with any lawful parser: they give a valid module again, whose bodies
are those of the input except for the ones that are never reached.
-/

namespace ContractBuild.Wasm

namespace Parser

variable {p : Parser} {w out : Bytes} {v : ℕ} {sections : List Section} {parts : List Payload}
  {mode : Mode} {keepDebug : Bool} {marker : Option Mode} {live : ℕ → Bool}

/-! ### Live bodies -/

lemma live_size : p.live .size w = .ok live ↔
    ∃ fs, Live.reached (p.payloads w) = .ok fs ∧ live = fun i => fs.contains i := by
  rw [Parser.live, if_pos rfl]
  cases Live.reached (p.payloads w) with
  | error reason => simp [Except.map, Except.mapError]
  | ok fs => simp [Except.map, Except.mapError, eq_comm]

/-- The bodies taken for live are those reached, also where others cannot be read. -/
lemma live_iff (h : p.live mode w = .ok live) {i : ℕ}
    (hi : i < (p.bodies w).length) : live i = true ↔
      (mode = .size → Live.IsReached (p.payloads w) (Live.importedCount (p.payloads w) + i)) := by
  rw [bodies, List.length_map] at hi
  by_cases hm : mode = .size
  · subst hm
    obtain ⟨fs, hfs, rfl⟩ := live_size.mp h
    rw [List.contains_iff_mem, (Live.reached_eq_ok hfs).2]
    exact ⟨fun hf _ => hf.2, fun hf => ⟨hi, hf rfl⟩⟩
  · rw [Parser.live, if_neg hm] at h
    cases h
    simp [hm]

/-- Where bodies have been told live from others, all parts could be read. -/
lemma isRead_of_live (h : p.live .size w = .ok live) :
    ∀ part ∈ p.payloads w, Live.IsRead part := by
  obtain ⟨fs, hfs, -⟩ := live_size.mp h
  exact (Live.reached_eq_ok hfs).1

lemma exists_live (h : Live.Readable (p.payloads w)) (mode : Mode) :
    ∃ live, p.live mode w = .ok live := by
  by_cases hm : mode = .size
  · subst hm
    obtain ⟨fs, hfs⟩ := Live.exists_reached h
    exact ⟨_, live_size.mpr ⟨fs, hfs, rfl⟩⟩
  · exact ⟨fun _ => true, if_neg hm⟩

/-! ### Runs -/

lemma runPasses_of_live (hs : p.Splits w v sections parts) (hlive : p.live mode w = .ok live) :
    p.runPasses mode keepDebug marker w =
      .ok (writeModule (rewriteFrom live (keepsCustom mode keepDebug) [] 0 sections ++
        (marker.map markerSection).toList)) := by
  rw [runPasses, hlive, hs.payloads_eq]
  exact rewrite_eq hs.frames

/-- With one section of code, a run writes each section for itself. -/
lemma runPasses_of_singleCode (hs : p.Splits w v sections parts) (hsingle : SingleCode sections)
    (hlive : p.live mode w = .ok live) : p.runPasses mode keepDebug marker w =
      .ok (writeModule (reduceSections live (keepsCustom mode keepDebug) marker sections)) := by
  rw [runPasses_of_live hs hlive, rewriteFrom_of_singleCode hsingle, reduceSections]

/-- What a run has done that succeeded, be its input valid or not. -/
lemma runPasses_eq_ok (hp : p.Lawful) (h : p.runPasses mode keepDebug marker w = .ok out) :
    ∃ v sections parts live, p.Splits w v sections parts ∧ p.live mode w = .ok live ∧
      out = writeModule (rewriteFrom live (keepsCustom mode keepDebug) [] 0 sections ++
        (marker.map markerSection).toList) := by
  obtain ⟨live, hlive, hrewrite⟩ := except_bind_ok.mp h
  obtain ⟨v, sections, parts, hs⟩ := hp.splits w (part_of_rewrite hrewrite)
  rw [runPasses_of_live hs hlive] at h
  exact ⟨v, sections, parts, live, hs, hlive, (Except.ok.inj h).symm⟩

/-! ### Valid modules -/

namespace Lawful

variable (hp : p.Lawful)
include hp

/-- Bodies become traps one by one. -/
lemma validate_snip {before after : List Section} (live : ℕ → Bool) (done bodies : List Bytes)
    (hfits : ∀ s ∈ before ++ .code (done ++ bodies) :: after, s.Fits)
    (hv : p.validate (writeModule (before ++ .code (done ++ bodies) :: after)) = .ok ()) :
    p.validate (writeModule (before ++ .code (done ++ snip live bodies) :: after)) = .ok () := by
  induction bodies generalizing done live with
  | nil => exact hv
  | cons b bodies ih =>
    have hv' : p.validate (writeModule
        (before ++ .code (done ++ snipBody (live 0) b :: bodies) :: after)) = .ok () := by
      rw [snipBody]
      split_ifs with hb
      · simp only [Bool.and_eq_true, decide_eq_true_eq] at hb
        exact hp.with_trap before after done bodies b hfits (Nat.le_of_lt hb.2) hv
      · exact hv
    have hfits' := fits_replaceBody hfits (length_writeSized_snipBody_le (live 0) b)
    rw [List.append_cons done] at hv' hfits'
    rw [snip, List.mapIdx_cons, List.append_cons done]
    exact ih (fun i => live (i + 1)) (done ++ [snipBody (live 0) b]) hfits' hv'

/-- So do the bodies of all sections. -/
lemma validate_map_snipSection (live : ℕ → Bool) (done sections : List Section)
    (hfits : ∀ s ∈ done ++ sections, s.Fits)
    (hv : p.validate (writeModule (done ++ sections)) = .ok ()) :
    p.validate (writeModule (done ++ sections.map (snipSection live))) = .ok () := by
  induction sections generalizing done with
  | nil => exact hv
  | cons s sections ih =>
    have hv' : p.validate (writeModule (done ++ snipSection live s :: sections)) = .ok () := by
      cases s with
      | custom name data => exact hv
      | code bodies => exact hp.validate_snip live [] bodies hfits hv
      | other id content => exact hv
    have hfits' : ∀ t ∈ done ++ snipSection live s :: sections, t.Fits := by
      rw [List.forall_mem_append, List.forall_mem_cons] at hfits ⊢
      refine ⟨hfits.1, ?_, hfits.2.2⟩
      cases s with
      | custom name data => exact hfits.2.1
      | code bodies => exact fits_code_of_le hfits.2.1 (length_toRaw_snip_le live bodies)
      | other id content => exact hfits.2.1
    rw [List.append_cons] at hv' hfits'
    rw [List.map_cons, List.append_cons]
    exact ih (done ++ [snipSection live s]) hfits' hv'

/-- **A valid module that is reduced is valid again**, whatever is live and whatever is kept. -/
lemma validate_reduceSections (live : ℕ → Bool) (keeps : String → Bool) (marker : Option Mode)
    (hv : p.validate w = .ok ()) (hs : p.Splits w v sections parts) :
    p.validate (writeModule (reduceSections live keeps marker sections)) = .ok () := by
  have hfits := fits_of_readBinary hs.read
  have hsnip := hp.validate_map_snipSection live [] sections hfits (hp.written_again hv hs.read)
  have hfits' : ∀ s ∈ sections.map (snipSection live), s.Fits := by
    intro s hs
    obtain ⟨t, ht, rfl⟩ := List.mem_map.mp hs
    cases t with
    | custom name data => exact hfits _ ht
    | code bodies => exact fits_code_of_le (hfits _ ht) (length_toRaw_snip_le live bodies)
    | other id content => exact hfits _ ht
  rw [← hp.without_custom _ (fits_reduceSections hfits), filter_reduceSections,
    hp.without_custom _ hfits']
  exact hsnip

end Lawful

/-- The marker that the passes leave: an optimization recorded for the mode. -/
def keptMarker (p : Parser) (mode : Mode) (w : Bytes) : Option Mode :=
  if p.recordedMode w = some mode then some mode else none

lemma passes_of_runPasses (hm : mode ≠ .debug) (hv : p.validate w = .ok ())
    (hrun : p.runPasses mode keepDebug (p.keptMarker mode w) w = .ok out)
    (hout : p.validate out = .ok ()) : p.passes mode keepDebug w = .ok out := by
  rw [passes, checkInput, hv]
  change (if mode = .debug then _ else _) = _
  rw [if_neg hm]
  change (p.runPasses mode keepDebug (p.keptMarker mode w) w >>= _) = _
  rw [hrun]
  change (p.checkOutput out >>= fun _ => _) = _
  rw [checkOutput, hout]
  rfl

/-- What the passes give for a valid module. -/
lemma passes_of_live (hp : p.Lawful) (keepDebug : Bool) (hm : mode ≠ .debug)
    (hv : p.validate w = .ok ()) (hs : p.Splits w v sections parts)
    (hlive : p.live mode w = .ok live) : p.passes mode keepDebug w = .ok (writeModule
      (reduceSections live (keepsCustom mode keepDebug) (p.keptMarker mode w) sections)) :=
  passes_of_runPasses hm hv (runPasses_of_singleCode hs (hp.single_code hv hs.read) hlive)
    (hp.validate_reduceSections live _ _ hv hs)

end Parser

/-! ### Snipping -/

/-- **Snipping is exact**: for size, every valid module keeps its number of bodies, a body that is
reached stays as it is, and any other is replaced by a trap unless it is as short as one. The
worklist ends with exactly the defined functions that are reached. -/
theorem passes_size_snips_exactly {p : Parser} {w : Bytes} (hp : p.Lawful) (keepDebug : Bool)
    (hw : p.IsModule w) :
    ∃ out live, p.passes .size keepDebug w = .ok out ∧
      (p.bodies out).length = (p.bodies w).length ∧
      Live.reached (p.payloads w) = .ok live ∧
      (∀ i, i ∈ live ↔ i < (p.bodies w).length ∧
        Live.IsReached (p.payloads w) (Live.importedCount (p.payloads w) + i)) ∧
      ∀ i body, (p.bodies w)[i]? = some body →
        (Live.IsReached (p.payloads w) (Live.importedCount (p.payloads w) + i) →
          (p.bodies out)[i]? = some body) ∧
        (¬ Live.IsReached (p.payloads w) (Live.importedCount (p.payloads w) + i) →
          (p.bodies out)[i]? = some (if 3 < body.length then [0x00, 0x00, 0x0b] else body)) := by
  obtain ⟨v, sections, parts, hs⟩ := hp.exists_splits hw
  obtain ⟨fs, hfs⟩ := Live.exists_reached (hp.readable hw.valid)
  have hlive : p.live .size w = .ok fun i => fs.contains i := Parser.live_size.mpr ⟨fs, hfs, rfl⟩
  have hsingle := hp.single_code hw.valid hs.read
  have hv' := hp.validate_reduceSections (fun i => fs.contains i) (keepsCustom .size keepDebug)
    (p.keptMarker .size w) hw.valid hs
  obtain ⟨parts', hs'⟩ :=
    hp.splits_writeModule hv' (fits_reduceSections (fits_of_readBinary hs.read))
  have hbodies : p.bodies (writeModule (reduceSections (fun i => fs.contains i)
      (keepsCustom .size keepDebug) (p.keptMarker .size w) sections)) =
        snip (fun i => fs.contains i) (p.bodies w) := by
    rw [hs'.bodies_eq, hs.bodies_eq, hsingle.bodiesOf_reduceSections]
  refine ⟨_, fs, Parser.passes_of_live hp keepDebug (by decide) hw.valid hs hlive,
    by rw [hbodies, snip, List.length_mapIdx], hfs, fun i => ?_, fun i body hbody => ?_⟩
  · rw [(Live.reached_eq_ok hfs).2, Parser.bodies, List.length_map]
  have hi : i < (p.bodies w).length := (List.getElem?_eq_some_iff.mp hbody).1
  have hiff := Parser.live_iff hlive hi
  rw [hbodies, snip, List.getElem?_mapIdx, hbody, Option.map_some]
  constructor
  · intro hreach
    rw [snipBody, hiff.mpr fun _ => hreach]
    rfl
  · intro hreach
    have hdead : fs.contains i = false := by
      rw [Bool.eq_false_iff]
      exact fun hl => hreach (hiff.mp hl rfl)
    rw [snipBody, hdead]
    simp only [Bool.not_false, Bool.true_and, decide_eq_true_eq]
    rfl

/-- Two functions without parameters: the first one is exported, and the second, never called, does
nothing three times. -/
def exportedAndUnused : Bytes :=
  Section.magic ++ [0x01, 0x00, 0x00, 0x00] ++
    [0x01, 0x04, 0x01, 0x60, 0x00, 0x00] ++ [0x03, 0x03, 0x02, 0x00, 0x00] ++
    [0x07, 0x05, 0x01, 0x01, 0x61, 0x00, 0x00] ++
    [0x0a, 0x0a, 0x02, 0x02, 0x00, 0x0b, 0x05, 0x00, 0x01, 0x01, 0x01, 0x0b]

lemma isModule_exportedAndUnused : Parser.standard.IsModule exportedAndUnused :=
  have hread : readBinary exportedAndUnused = some ⟨.module, 1, _⟩ := rfl
  Standard.isModule (by decide +kernel) hread

theorem passes_size_exportedAndUnused : Parser.standard.IsModule exportedAndUnused ∧
    ∃ out, passes .size false exportedAndUnused = .ok out ∧
      (Parser.standard.bodies out).length = 2 ∧
      (Parser.standard.bodies out)[0]? = some [0x00, 0x0b] ∧
      (Parser.standard.bodies out)[1]? = some [0x00, 0x00, 0x0b] := by
  have hw := isModule_exportedAndUnused
  obtain ⟨out, live, hout, hlen, hlive, hmem, hbodies⟩ :=
    passes_size_snips_exactly Parser.standard_lawful false hw
  have hfound : Live.reached (Parser.standard.payloads exportedAndUnused) = .ok [0] := by
    decide +kernel
  obtain rfl : [0] = live := Except.ok.inj (hfound.symm.trans hlive)
  have hcode : Parser.standard.bodies exportedAndUnused =
      [[0x00, 0x0b], [0x00, 0x01, 0x01, 0x01, 0x0b]] := by decide +kernel
  rw [hcode] at hlen hmem hbodies
  have h0 := ((hmem 0).mp (by simp)).2
  have h1 : ¬ Live.IsReached _ (Live.importedCount _ + 1) :=
    fun h => absurd ((hmem 1).mpr ⟨by decide, h⟩) (by simp)
  exact ⟨hw, out, hout, hlen, (hbodies 0 _ rfl).1 h0, (hbodies 1 _ rfl).2 h1⟩

end ContractBuild.Wasm

import Mathlib
import ContractBuild.Proofs.Wasm.Acceptance

/-!
What the passes leave alone. Sections stay in their order, each as it is except for the bodies of
code that become traps; which custom sections stay depends on their names only, and nothing is
added but a marker at the end.
-/

namespace ContractBuild.Wasm

/-- A section that is not custom stays. Of the custom ones markers go; of the others, debug sections
and the names stay where debug information is kept, and all but debug sections stay for speed. -/
def Stays (mode : Mode) (keepDebug : Bool) : Section → Prop
  | .custom name _ => name ≠ markerName ∧
      (keepDebug = true ∧ (isDebugSection name = true ∨ name = "name") ∨
        mode = .speed ∧ isDebugSection name = false)
  | _ => True

instance (mode : Mode) (keepDebug : Bool) : DecidablePred (Stays mode keepDebug)
  | .custom _ _ => inferInstanceAs (Decidable (_ ∧ _))
  | .code _ => inferInstanceAs (Decidable True)
  | .other _ _ => inferInstanceAs (Decidable True)

/-- What may become of a section that stays: it is the same, except that for size bodies of code
may have become traps. -/
inductive Resembles (mode : Mode) : Section → Section → Prop where
  | custom (name : String) (data : Bytes) : Resembles mode (.custom name data) (.custom name data)
  | other (id : UInt8) (payload : Bytes) : Resembles mode (.other id payload) (.other id payload)
  | code {bodies bodies' : List Bytes}
      (h : List.Forall₂ (fun b b' => b' = b ∨ mode = .size ∧ b' = trapBody) bodies bodies') :
      Resembles mode (.code bodies) (.code bodies')

namespace Resembles

variable {mode : Mode} {s t : Section}

lemma isCustom_eq (h : Resembles mode s t) : t.isCustom = s.isCustom := by
  cases h with
  | custom name data => rfl
  | other id payload => rfl
  | code h => rfl

lemma eq_of_isCustom (h : Resembles mode s t) (hs : s.isCustom = true) : s = t := by
  cases h with
  | custom name data => rfl
  | other id payload => rfl
  | code h => cases hs

lemma eq_of_speed (h : Resembles .speed s t) : s = t := by
  cases h with
  | custom name data => rfl
  | other id payload => rfl
  | @code bodies bodies' h =>
    have hsame : List.Forall₂ Eq bodies bodies' := h.imp fun b b' hb => by
      obtain hb | ⟨hsize, -⟩ := hb
      · exact hb.symm
      · cases hsize
    rw [List.forall₂_eq_eq_eq] at hsame
    rw [hsame]

end Resembles

section Reduce

variable {mode : Mode} {keepDebug : Bool} {live : ℕ → Bool}

lemma keepsCustom_iff (hm : mode ≠ .debug) {name : String} (data : Bytes) :
    keepsCustom mode keepDebug name = true ↔ Stays mode keepDebug (.custom name data) := by
  unfold keepsCustom
  rw [Stays]
  by_cases hmarker : name = markerName
  · simp [hmarker]
  rw [if_neg (by simpa using hmarker)]
  by_cases hdebug : (keepDebug && (isDebugSection name || name == "name")) = true
  · rw [if_pos hdebug]
    simp only [Bool.and_eq_true, Bool.or_eq_true, beq_iff_eq] at hdebug
    exact iff_of_true rfl ⟨hmarker, .inl hdebug⟩
  · rw [if_neg hdebug]
    simp only [Bool.and_eq_true, Bool.or_eq_true, beq_iff_eq] at hdebug
    cases mode with
    | size => simp [hdebug]
    | speed => simp [hmarker, hdebug]
    | debug => exact absurd rfl hm

lemma forall₂_snip (hlive : mode = .size ∨ ∀ i, live i = true) (bodies : List Bytes) :
    List.Forall₂ (fun b b' => b' = b ∨ mode = .size ∧ b' = trapBody) bodies (snip live bodies) := by
  refine List.forall₂_iff_get.mpr ⟨by rw [snip, List.length_mapIdx], fun i hi hi' => ?_⟩
  simp only [snip, List.get_eq_getElem, List.getElem_mapIdx, snipBody]
  split_ifs with hdead
  · refine .inr ⟨hlive.resolve_right fun hall => ?_, rfl⟩
    simp [hall i] at hdead
  · exact .inl rfl

lemma resembles_reduceSection (hm : mode ≠ .debug) (hlive : mode = .size ∨ ∀ i, live i = true)
    (s : Section) :
    List.Forall₂ (Resembles mode) ([s].filter (Stays mode keepDebug ·))
      (reduceSection live (keepsCustom mode keepDebug) s) := by
  cases s with
  | custom name data =>
    rw [reduceSection]
    by_cases hk : keepsCustom mode keepDebug name = true
    · rw [if_pos hk, List.filter_cons_of_pos (by simpa using (keepsCustom_iff hm data).mp hk)]
      exact .cons (.custom name data) .nil
    · have hgoes : ¬ Stays mode keepDebug (.custom name data) :=
        fun hs => hk ((keepsCustom_iff hm data).mpr hs)
      rw [if_neg hk, List.filter_cons_of_neg (by simpa using hgoes)]
      exact .nil
  | code bodies => exact .cons (.code (forall₂_snip hlive bodies)) .nil
  | other id payload => exact .cons (.other id payload) .nil

/-- The sections that stay are what is left of a module, in the same order. -/
lemma resembles_reduce (keepDebug : Bool) (hm : mode ≠ .debug)
    (hlive : mode = .size ∨ ∀ i, live i = true) (sections : List Section) :
    List.Forall₂ (Resembles mode) (sections.filter (Stays mode keepDebug ·))
      (sections.flatMap (reduceSection live (keepsCustom mode keepDebug))) := by
  induction sections with
  | nil => exact .nil
  | cons s sections ih =>
    rw [List.flatMap_cons, ← List.singleton_append, List.filter_append]
    exact List.rel_append (resembles_reduceSection hm hlive s) ih

end Reduce

section Filter

variable {mode : Mode} {keepDebug : Bool} {sections kept : List Section}

lemma stays_of_not_isCustom {s : Section} (h : s.isCustom = false) : Stays mode keepDebug s := by
  cases s with
  | custom name data => cases h
  | code bodies => trivial
  | other id payload => trivial

/-- The sections that are not custom are all there. -/
lemma forall₂_not_isCustom
    (h : List.Forall₂ (Resembles mode) (sections.filter (Stays mode keepDebug ·)) kept) :
    List.Forall₂ (Resembles mode) (sections.filter (!·.isCustom)) (kept.filter (!·.isCustom)) := by
  have hall : sections.filter (!·.isCustom) =
      (sections.filter (Stays mode keepDebug ·)).filter (!·.isCustom) := by
    rw [List.filter_filter]
    refine List.filter_congr fun s _ => ?_
    cases hs : s.isCustom with
    | true => rfl
    | false => simp [stays_of_not_isCustom hs]
  rw [hall]
  refine List.rel_filter (fun s t hst => ?_) h
  simp only [hst.isCustom_eq]

/-- The custom sections that stay are the same. -/
lemma filter_isCustom_eq
    (h : List.Forall₂ (Resembles mode) (sections.filter (Stays mode keepDebug ·)) kept) :
    kept.filter (·.isCustom) = sections.filter fun s => s.isCustom && Stays mode keepDebug s := by
  have hcustom : List.Forall₂ (Resembles mode)
      (sections.filter fun s => s.isCustom && Stays mode keepDebug s)
      (kept.filter (·.isCustom)) := by
    rw [← List.filter_filter]
    refine List.rel_filter (fun s t hst => ?_) h
    simp only [hst.isCustom_eq]
  have hall : ∀ s ∈ sections.filter fun s => s.isCustom && Stays mode keepDebug s,
      s.isCustom = true := by
    intro s hs
    exact (Bool.and_eq_true_iff.mp (List.mem_filter.mp hs).2).1
  have hsame := ((List.forall₂_and_left _ _).mpr ⟨hall, hcustom⟩).imp
    fun s t hst => hst.2.eq_of_isCustom hst.1
  rw [List.forall₂_eq_eq_eq] at hsame
  exact hsame.symm

end Filter

/-- **The passes preserve what they do not own.** In a valid module the sections that stay keep
their order and their content, except that for size bodies of code may become traps. So all sections
are there that are not custom, and of the custom ones exactly those that stay. After them comes a
marker if the first readable one of the module names the mode. -/
theorem passes_preserve {p : Parser} {w : Bytes} {mode : Mode} (hp : p.Lawful) (keepDebug : Bool)
    (hm : mode ≠ .debug) (hw : p.IsModule w) :
    ∃ v sections out kept, readBinary w = some ⟨.module, v, sections⟩ ∧
      p.passes mode keepDebug w = .ok out ∧
      readBinary out = some ⟨.module, 1,
        kept ++ if marker? sections = some mode then [markerSection mode] else []⟩ ∧
      List.Forall₂ (Resembles mode) (sections.filter (Stays mode keepDebug ·)) kept ∧
      List.Forall₂ (Resembles mode) (sections.filter (!·.isCustom)) (kept.filter (!·.isCustom)) ∧
      kept.filter (·.isCustom) = sections.filter (fun s => s.isCustom && Stays mode keepDebug s) ∧
      (mode = .speed → kept = sections.filter (Stays mode keepDebug ·)) := by
  obtain ⟨v, sections, parts, hs⟩ := hp.exists_splits hw
  obtain ⟨live, hfound⟩ := Parser.exists_live (hp.readable hw.valid) mode
  have hlive : mode = .size ∨ ∀ i, live i = true := by
    unfold Parser.live at hfound
    split_ifs at hfound with hsize
    · exact .inl hsize
    · cases hfound
      exact .inr fun _ => rfl
  have hkept := resembles_reduce keepDebug hm hlive sections
  have hread := readBinary_writeModule
    (fits_reduceSections (fits_of_readBinary hs.read) : ∀ s ∈ reduceSections live
      (keepsCustom mode keepDebug) (p.keptMarker mode w) sections, s.Fits)
  have hmarker : ((p.keptMarker mode w).map markerSection).toList =
      if marker? sections = some mode then [markerSection mode] else [] := by
    rw [Parser.keptMarker, hs.recordedMode_eq]
    split_ifs <;> rfl
  rw [reduceSections, hmarker] at hread
  refine ⟨v, sections, _, _, hs.read, Parser.passes_of_live hp keepDebug hm hw.valid hs hfound, ?_,
    hkept, forall₂_not_isCustom hkept, filter_isCustom_eq hkept, ?_⟩
  · rw [reduceSections, hmarker]
    exact hread
  · rintro rfl
    have hsame := hkept.imp fun s t hst => hst.eq_of_speed
    rw [List.forall₂_eq_eq_eq] at hsame
    exact hsame.symm

/-- A producer and debug information stand between the sections of a function that does nothing
three times and is not exported; a marker for speed precedes one for size. -/
def annotated : List Section :=
  [.custom "producers" [0x00], .other 1 [0x01, 0x60, 0x00, 0x00], markerSection .speed,
    .custom ".debug_info" [0x07], .other 3 [0x01, 0x00], .code [[0x00, 0x01, 0x01, 0x01, 0x0b]],
    .custom "name" [], markerSection .size]

theorem passes_preserve_annotated : Parser.standard.IsModule (writeModule annotated) ∧
    (∃ out, passes .speed false (writeModule annotated) = .ok out ∧
      readBinary out = some ⟨.module, 1,
        [.custom "producers" [0x00], .other 1 [0x01, 0x60, 0x00, 0x00], .other 3 [0x01, 0x00],
          .code [[0x00, 0x01, 0x01, 0x01, 0x0b]], .custom "name" [], markerSection .speed]⟩) ∧
    ∃ out kept, passes .size true (writeModule annotated) = .ok out ∧
      readBinary out = some ⟨.module, 1, kept⟩ ∧
      kept.filter (·.isCustom) = [.custom ".debug_info" [0x07], .custom "name" []] := by
  have hfits : ∀ s ∈ annotated, s.Fits :=
    Section.fits_of_readAll (show Section.readAll (annotated.flatMap Section.write) = _ by
      decide +kernel)
  have hread := readBinary_writeModule hfits
  have hw : Parser.standard.IsModule (writeModule annotated) :=
    Standard.isModule (by decide +kernel) hread
  obtain ⟨v, sections, out, kept, hsections, hout, hkept, -, -, -, hspeed⟩ :=
    passes_preserve Parser.standard_lawful false (show Mode.speed ≠ .debug by decide) hw
  obtain ⟨v', sections', out', kept', hsections', hout', hkept', -, -, hcustom', -⟩ :=
    passes_preserve Parser.standard_lawful true (show Mode.size ≠ .debug by decide) hw
  obtain ⟨rfl, rfl⟩ : v = 1 ∧ sections = annotated := by simpa [hread, eq_comm] using hsections
  obtain ⟨rfl, rfl⟩ : v' = 1 ∧ sections' = annotated := by simpa [hread, eq_comm] using hsections'
  have hmarked : marker? annotated = some .speed := by decide +kernel
  rw [if_neg (by rw [hmarked]; decide), List.append_nil] at hkept'
  rw [if_pos hmarked, hspeed rfl] at hkept
  exact ⟨hw, ⟨out, hout, hkept⟩, out', kept', hout', hkept', hcustom'⟩

end ContractBuild.Wasm

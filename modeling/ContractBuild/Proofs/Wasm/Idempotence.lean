import Mathlib
import ContractBuild.Proofs.Wasm.Passes

/-!
The passes change nothing that they have been over once: what is reached stays reached when the
rest is snipped, the custom sections that were kept are kept again, and the marker is read as it was
left.
-/

namespace ContractBuild.Wasm

/-! ### Bodies -/

/-- A body that was replaced is too short to be replaced again. -/
lemma snipBody_snipBody (live live' : Bool) (b : Bytes) :
    snipBody live' (snipBody live b) = snipBody (live && live') b := by
  unfold snipBody
  cases live with
  | true => rfl
  | false =>
    by_cases hlen : trapBody.length < b.length
    · simp [hlen]
    · simp [hlen]

/-- Bodies that are snipped twice are snipped once. -/
lemma snip_comp (live live' : ℕ → Bool) (bodies : List Bytes) :
    snip live' (snip live bodies) = snip (fun i => live i && live' i) bodies := by
  simp only [snip, List.mapIdx_mapIdx, Function.comp_def, snipBody_snipBody]

lemma snip_congr {live live' : ℕ → Bool} {bodies : List Bytes}
    (h : ∀ i < bodies.length, live i = live' i) : snip live bodies = snip live' bodies := by
  refine List.ext_getElem (by simp [snip]) fun i hi _ => ?_
  have hi : i < bodies.length := by simpa [snip] using hi
  simp only [snip, List.getElem_mapIdx, h i hi]

lemma snip_snip {live live' : ℕ → Bool} {bodies : List Bytes}
    (h : ∀ i < bodies.length, live i = true → live' i = true) :
    snip live' (snip live bodies) = snip live bodies := by
  rw [snip_comp]
  refine snip_congr fun i hi => ?_
  cases hl : live i with
  | true => rw [h i hi hl, Bool.and_self]
  | false => rfl

/-! ### What is reached -/

namespace Live

variable {parts parts' : List (Except String Payload)} {f : ℕ}

/-- What the operators of a body name. -/
def Mentions (ops : List Operator) (g : ℕ) : Prop :=
  .call g ∈ ops ∨ .returnCall g ∈ ops ∨ .refFunc g ∈ ops

lemma importedCount_congr (h : tolds parts' = tolds parts) :
    importedCount parts' = importedCount parts := by
  rw [importedCount, importedCount, imports, imports, h]

/-- What is reached stays reached where the sections tell the same and the bodies that are reached
stay as they are. -/
lemma IsReached.mono (htold : tolds parts' = tolds parts)
    (hbody : ∀ (i : ℕ) (bytes : Bytes) (ops : List Operator) (g : ℕ),
      IsReached parts (importedCount parts + i) → (bodiesIn parts)[i]? = some ⟨bytes, .ok ops⟩ →
      Mentions ops g → (bodiesIn parts')[i]? = some ⟨bytes, .ok ops⟩)
    (h : IsReached parts f) : IsReached parts' f := by
  induction h with
  | root h =>
    obtain ⟨told, hmem, hnames⟩ := h
    exact .root ⟨told, htold ▸ hmem, hnames⟩
  | @mention i g bytes ops hi hb hg ih =>
    rw [← importedCount_congr htold] at ih
    exact .mention ih (hbody i bytes ops g hi hb hg) hg

end Live

namespace Parser

section Reached

variable {p : Parser} {w w' : Bytes} {v v' : ℕ} {sections sections' : List Section}
  {parts parts' : List Payload} {live : ℕ → Bool} {f i : ℕ}

lemma Splits.getElem?_bodiesIn {b : Body} (hs : p.Splits w v sections parts)
    (h : (Live.bodiesIn (p.payloads w))[i]? = some b) :
    (bodiesOf sections)[i]? = some b.bytes ∧ .body b ∈ parts := by
  rw [← hs.bodies_eq, bodies, List.getElem?_map, h]
  exact ⟨rfl, hs.mem_parts (mem_bodiesIn.mp (List.mem_of_getElem? h)) (by simp)⟩

namespace Lawful

variable (hp : p.Lawful)
include hp

/-- A body of a valid module with the bytes of a body whose operators are known has them too. -/
lemma getElem?_bodiesIn (hv : p.validate w' = .ok ()) (hs : p.Splits w v sections parts)
    (hs' : p.Splits w' v' sections' parts') {bytes : Bytes} {ops : List Operator}
    (hb : .body ⟨bytes, .ok ops⟩ ∈ parts) (h : (bodiesOf sections')[i]? = some bytes) :
    (Live.bodiesIn (p.payloads w'))[i]? = some ⟨bytes, .ok ops⟩ := by
  rw [← hs'.bodies_eq, bodies, List.getElem?_map, Option.map_eq_some_iff] at h
  obtain ⟨⟨bytes', operators⟩, hb', rfl⟩ := h
  obtain ⟨ops', rfl⟩ : ∃ ops', operators = .ok ops' :=
    hp.read_body w' hv _ (mem_bodiesIn.mp (List.mem_of_getElem? hb'))
  rw [hb', hp.operators_eq hs hs' bytes' ops ops' hb (hs'.getElem?_bodiesIn hb').2]

/-- Snipping bodies that are not reached leaves everything reached that was. -/
lemma isReached_snip (hv : p.validate w' = .ok ()) (hs : p.Splits w v sections parts)
    (hs' : p.Splits w' v' sections' parts')
    (htold : Live.tolds (p.payloads w') = Live.tolds (p.payloads w))
    (hbodies : bodiesOf sections' = snip live (bodiesOf sections))
    (hlive : ∀ i < (p.bodies w).length,
      Live.IsReached (p.payloads w) (Live.importedCount (p.payloads w) + i) → live i = true)
    (h : Live.IsReached (p.payloads w) f) : Live.IsReached (p.payloads w') f := by
  refine h.mono htold fun i bytes ops g hi hb _ => ?_
  obtain ⟨hbytes, hmem⟩ := hs.getElem?_bodiesIn hb
  have hlt : i < (p.bodies w).length := by
    rw [hs.bodies_eq]
    exact (List.getElem?_eq_some_iff.mp hbytes).1
  refine hp.getElem?_bodiesIn hv hs hs' hmem ?_
  rw [hbodies, snip, List.getElem?_mapIdx, hbytes, Option.map_some, hlive i hlt hi]
  rfl

end Lawful

end Reached

end Parser

/-! ### Custom sections and markers -/

section Sections

variable {live live' : ℕ → Bool} {keeps : String → Bool} {marker : Option Mode}
  {sections : List Section}

lemma keepsCustom_markerName (mode : Mode) (keepDebug : Bool) :
    keepsCustom mode keepDebug markerName = false :=
  if_pos (beq_self_eq_true markerName)

/-- Of a section that is reduced twice there stays what stays both times. -/
lemma reduceSection_comp (live live' : ℕ → Bool) (keeps keeps' : String → Bool) (s : Section) :
    (reduceSection live keeps s).flatMap (reduceSection live' keeps') =
      reduceSection (fun i => live i && live' i) (fun name => keeps name && keeps' name) s := by
  cases s with
  | custom name data =>
    by_cases hk : keeps name = true
    · simp [reduceSection, hk]
    · simp [reduceSection, hk]
  | code bodies => simp [reduceSection, snip_comp]
  | other id payload => rfl

/-- Sections that are reduced twice are reduced once, and the marker of the second time is put in
the place of the first one. -/
lemma reduceSections_comp (live live' : ℕ → Bool) (keeps : String → Bool) {keeps' : String → Bool}
    (hmarker : keeps' markerName = false) (marker marker' : Option Mode)
    (sections : List Section) :
    reduceSections live' keeps' marker' (reduceSections live keeps marker sections) =
      reduceSections (fun i => live i && live' i) (fun name => keeps name && keeps' name) marker'
        sections := by
  have hlast : (marker.map markerSection).toList.flatMap (reduceSection live' keeps') = [] := by
    cases marker with
    | none => rfl
    | some mode => simp [markerSection, reduceSection, hmarker]
  have hrest : (sections.flatMap (reduceSection live keeps)).flatMap (reduceSection live' keeps') =
      sections.flatMap (reduceSection (fun i => live i && live' i)
        fun name => keeps name && keeps' name) := by
    rw [List.flatMap_assoc]
    exact List.flatMap_congr fun s _ => reduceSection_comp live live' keeps keeps' s
  rw [reduceSections, reduceSections, reduceSections, List.flatMap_append, hlast, hrest,
    List.append_nil]

lemma reduceSections_congr {keeps' : String → Bool} (hkeeps : ∀ name, keeps name = keeps' name)
    (hsnip : ∀ bodies, .code bodies ∈ sections → snip live bodies = snip live' bodies) :
    reduceSections live keeps marker sections = reduceSections live' keeps' marker sections := by
  rw [reduceSections, reduceSections]
  congr 1
  refine List.flatMap_congr fun s hs => ?_
  cases s with
  | custom name data => rw [reduceSection, reduceSection, hkeeps]
  | code bodies => rw [reduceSection, reduceSection, hsnip bodies hs]
  | other id payload => rfl

/-- Sections that have been reduced stay as they are, and their marker is put where it was. -/
lemma reduceSections_reduceSections (hmarker : keeps markerName = false)
    (hsnip : ∀ bodies, .code bodies ∈ sections →
      snip live' (snip live bodies) = snip live bodies) :
    reduceSections live' keeps marker (reduceSections live keeps marker sections) =
      reduceSections live keeps marker sections := by
  rw [reduceSections_comp live live' keeps hmarker]
  refine reduceSections_congr (fun name => Bool.and_self _) fun bodies hcode => ?_
  rw [← snip_comp, hsnip bodies hcode]

lemma markedSection_markerSection (mode : Mode) :
    markedSection (markerSection mode) = some mode := by
  cases mode <;> decide +kernel

lemma markedSection_eq_none {s t : Section} (hmarker : keeps markerName = false)
    (h : t ∈ reduceSection live keeps s) : markedSection t = none := by
  cases s with
  | custom name data =>
    rw [reduceSection] at h
    split_ifs at h with hk
    · obtain rfl := List.mem_singleton.mp h
      have hname : name ≠ markerName := by
        rintro rfl
        rw [hmarker] at hk
        cases hk
      rw [markedSection, markedMode, if_neg (by simpa using hname)]
    · cases h
  | code bodies =>
    obtain rfl := List.mem_singleton.mp h
    rfl
  | other id payload =>
    obtain rfl := List.mem_singleton.mp h
    rfl

/-- Of the markers only the one that the passes leave is found. -/
lemma marker?_reduceSections (hmarker : keeps markerName = false) :
    marker? (reduceSections live keeps marker sections) = marker := by
  have hnone : (sections.flatMap (reduceSection live keeps)).findSome? markedSection = none := by
    refine List.findSome?_eq_none_iff.mpr fun t ht => ?_
    obtain ⟨s, -, ht⟩ := List.mem_flatMap.mp ht
    exact markedSection_eq_none hmarker ht
  rw [marker?, reduceSections, List.findSome?_append, hnone, Option.none_or]
  cases marker with
  | none => rfl
  | some mode => simp [markedSection_markerSection]

end Sections

/-! ### Passes -/

section Passes

variable {p : Parser} {w out : Bytes} {v : ℕ} {sections : List Section} {parts : List Payload}
  {mode : Mode} {keepDebug : Bool} {marker : Option Mode} {live : ℕ → Bool}

namespace Parser

lemma checkInput_eq_ok {u : Unit} : p.checkInput w = .ok u ↔ p.validate w = .ok () := by
  unfold checkInput
  cases p.validate w <;> simp [Except.mapError]

lemma checkOutput_eq_ok {u : Unit} : p.checkOutput w = .ok u ↔ p.validate w = .ok () := by
  unfold checkOutput
  cases p.validate w <;> simp [Except.mapError]

/-- The passes that succeed do nothing for debugging, and else are a run on a valid binary. -/
lemma runPasses_of_passes (h : p.passes mode keepDebug w = .ok out) :
    p.validate w = .ok () ∧ (mode = .debug ∧ out = w ∨
      mode ≠ .debug ∧ p.runPasses mode keepDebug (p.keptMarker mode w) w = .ok out) := by
  obtain ⟨u, hu, h⟩ := except_bind_ok.mp h
  refine ⟨checkInput_eq_ok.mp hu, ?_⟩
  by_cases hm : mode = .debug
  · rw [if_pos hm] at h
    exact .inl ⟨hm, (Except.ok.inj h).symm⟩
  · rw [if_neg hm] at h
    obtain ⟨out', hrun, h⟩ := except_bind_ok.mp h
    obtain ⟨-, -, h⟩ := except_bind_ok.mp h
    obtain rfl : out' = out := Except.ok.inj h
    exact .inr ⟨hm, hrun⟩

/-- What has happened when the passes succeed: nothing for debugging, and otherwise the sections of
a valid module have been reduced. -/
lemma passes_eq_ok (hp : p.Lawful) (h : p.passes mode keepDebug w = .ok out) :
    p.validate w = .ok () ∧ (mode = .debug ∧ out = w ∨
      mode ≠ .debug ∧ ∃ v sections parts live, p.Splits w v sections parts ∧
        p.live mode w = .ok live ∧
        out = writeModule (reduceSections live (keepsCustom mode keepDebug) (p.keptMarker mode w)
          sections)) := by
  obtain ⟨hv, hdone | ⟨hm, hrun⟩⟩ := runPasses_of_passes h
  · exact ⟨hv, .inl hdone⟩
  · obtain ⟨v, sections, parts, live, hs, hlive, rfl⟩ := runPasses_eq_ok hp hrun
    refine ⟨hv, .inr ⟨hm, v, sections, parts, live, hs, hlive, ?_⟩⟩
    rw [rewriteFrom_of_singleCode (hp.single_code hv hs.read), reduceSections]

/-- **A valid result of the passes**: with the marker that it carries they give it back. The input
need not have been valid. -/
lemma runPasses_again (hp : p.Lawful) (hs : p.Splits w v sections parts)
    (hsingle : SingleCode sections) (hlive : p.live mode w = .ok live)
    (hv : p.validate (writeModule (reduceSections live (keepsCustom mode keepDebug) marker
      sections)) = .ok ()) :
    p.recordedMode (writeModule (reduceSections live (keepsCustom mode keepDebug) marker
      sections)) = marker ∧
    p.runPasses mode keepDebug marker (writeModule (reduceSections live
      (keepsCustom mode keepDebug) marker sections)) =
        .ok (writeModule (reduceSections live (keepsCustom mode keepDebug) marker sections)) := by
  obtain ⟨parts', hs'⟩ :=
    hp.splits_writeModule hv (fits_reduceSections (fits_of_readBinary hs.read))
  obtain ⟨live', hlive'⟩ := exists_live (hp.readable hv) mode
  have hmarker := keepsCustom_markerName mode keepDebug
  have hbodies : bodiesOf (reduceSections live (keepsCustom mode keepDebug) marker sections) =
      snip live (bodiesOf sections) := hsingle.bodiesOf_reduceSections
  have hsame : reduceSections live' (keepsCustom mode keepDebug) marker
      (reduceSections live (keepsCustom mode keepDebug) marker sections) =
        reduceSections live (keepsCustom mode keepDebug) marker sections := by
    refine reduceSections_reduceSections hmarker fun bodies hcode => snip_snip fun i hi hl => ?_
    rw [← hsingle.bodiesOf_of_mem hcode] at hi
    have hi' : i < (p.bodies (writeModule (reduceSections live (keepsCustom mode keepDebug) marker
        sections))).length := by
      rwa [hs'.bodies_eq, hbodies, snip, List.length_mapIdx]
    rw [live_iff hlive' hi']
    rintro rfl
    -- what is reached of the input is reached of the output
    have htold := hp.tolds_eq hs hs' othersOf_reduceSections (isRead_of_live hlive) (hp.isRead hv)
    rw [Live.importedCount_congr htold]
    refine hp.isReached_snip hv hs hs' htold hbodies
      (fun j hj hreach => (live_iff hlive hj).mpr fun _ => hreach) ?_
    exact (live_iff hlive (by rwa [hs.bodies_eq])).mp hl rfl
  constructor
  · rw [hs'.recordedMode_eq]
    exact marker?_reduceSections hmarker
  · rw [runPasses_of_singleCode hs' (hp.single_code hv hs'.read) hlive', hsame]

end Parser

/-- **Idempotence**: whatever the passes give, they give it back when they are run on it. -/
theorem passes_idempotent (hp : p.Lawful) (h : p.passes mode keepDebug w = .ok out) :
    p.passes mode keepDebug out = .ok out := by
  obtain ⟨hv, ⟨rfl, rfl⟩ | ⟨hm, v, sections, parts, live, hs, hlive, rfl⟩⟩ :=
    Parser.passes_eq_ok hp h
  · exact h
  have hv' := hp.validate_reduceSections live (keepsCustom mode keepDebug) (p.keptMarker mode w)
    hv hs
  obtain ⟨hrecorded, hagain⟩ :=
    Parser.runPasses_again hp hs (hp.single_code hv hs.read) hlive hv'
  refine Parser.passes_of_runPasses hm hv' ?_ hv'
  rw [Parser.keptMarker, hrecorded]
  have hkept : (if p.keptMarker mode w = some mode then some mode else none) =
      p.keptMarker mode w := by
    rw [Parser.keptMarker]
    split_ifs <;> simp_all
  rw [hkept, hagain]

end Passes

/-- One function is exported, and of the two that are not one is as short as can be; a length is
written in two bytes, and three markers record nothing, size and speed. -/
def markedThrice : Bytes :=
  Section.magic ++ [0x01, 0x00, 0x00, 0x00] ++
    [0x01, 0x84, 0x00, 0x01, 0x60, 0x00, 0x00] ++ [0x03, 0x04, 0x03, 0x00, 0x00, 0x00] ++
    (Section.custom markerName [0xff]).write ++ [0x07, 0x05, 0x01, 0x01, 0x61, 0x00, 0x00] ++
    [0x0a, 0x0d, 0x03, 0x02, 0x00, 0x0b, 0x05, 0x00, 0x01, 0x01, 0x01, 0x0b, 0x02, 0x00, 0x0b] ++
    (markerSection .size).write ++ (markerSection .speed).write

/-- What is left of it: the trap in the place of the long body, and one marker at the end. -/
def markedOnce : Bytes := writeModule
  [.other 1 [0x01, 0x60, 0x00, 0x00], .other 3 [0x03, 0x00, 0x00, 0x00],
    .other 7 [0x01, 0x01, 0x61, 0x00, 0x00],
    .code [[0x00, 0x0b], trapBody, [0x00, 0x0b]], markerSection .size]

theorem passes_markedThrice_twice : passes .size false markedThrice = .ok markedOnce ∧
    passes .size false markedOnce = .ok markedOnce := by
  have honce : passes .size false markedThrice = .ok markedOnce := by decide +kernel
  exact ⟨honce, passes_idempotent Parser.standard_lawful honce⟩

end ContractBuild.Wasm

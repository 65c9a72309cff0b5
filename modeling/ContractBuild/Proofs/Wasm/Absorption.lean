import Mathlib
import ContractBuild.Proofs.Wasm.Idempotence

/-!
Runs of the passes one after another. What one run has reduced stays reduced, and in what it leaves
the same functions are reached; so of all the runs only the strongest counts, wherever it comes.
-/

namespace ContractBuild

/-- Size does what speed does and more, and debugging does nothing. -/
def Mode.stronger : Mode → Mode → Mode
  | .size, _ => .size
  | .speed, .size => .size
  | .speed, _ => .speed
  | .debug, m => m

/-- The strongest mode of a run. -/
def Mode.strongest (modes : List Mode) : Mode :=
  if .size ∈ modes then .size else if .speed ∈ modes then .speed else .debug

lemma Mode.strongest_append (modes : List Mode) (mode : Mode) :
    strongest (modes ++ [mode]) = stronger (strongest modes) mode := by
  cases mode <;> by_cases hsize : Mode.size ∈ modes <;> by_cases hspeed : Mode.speed ∈ modes <;>
    simp [strongest, stronger, hsize, hspeed]

namespace Wasm

/-! ### What is reached -/

namespace Parser

section Reached

variable {p : Parser} {w w' : Bytes} {v v' : ℕ} {sections sections' : List Section}
  {parts parts' : List Payload} {live : ℕ → Bool} {f : ℕ}

namespace Lawful

variable (hp : p.Lawful)
include hp

/-- A body that names a function is no trap that has been put there. -/
lemma getElem?_of_snip (hs' : p.Splits w' v' sections' parts')
    (hbodies : bodiesOf sections' = snip live (bodiesOf sections)) {i g : ℕ} {bytes : Bytes}
    {ops : List Operator} (hb : (Live.bodiesIn (p.payloads w'))[i]? = some ⟨bytes, .ok ops⟩)
    (hg : Live.Mentions ops g) : (bodiesOf sections)[i]? = some bytes := by
  obtain ⟨hbytes, hmem⟩ := hs'.getElem?_bodiesIn hb
  rw [hbodies, snip, List.getElem?_mapIdx, Option.map_eq_some_iff] at hbytes
  obtain ⟨b, hb, hsnip⟩ := hbytes
  rw [snipBody] at hsnip
  split_ifs at hsnip with hdead
  · obtain rfl : trapBody = bytes := hsnip
    have hother := hp.trap_operators hs' ops hmem
    obtain hg | hg | hg := hg <;> cases hother _ hg
  · rw [hb, hsnip]

/-- What is reached when bodies are snipped was reached before. -/
lemma isReached_of_snip (hv : p.validate w = .ok ()) (hs : p.Splits w v sections parts)
    (hs' : p.Splits w' v' sections' parts')
    (htold : Live.tolds (p.payloads w') = Live.tolds (p.payloads w))
    (hbodies : bodiesOf sections' = snip live (bodiesOf sections))
    (h : Live.IsReached (p.payloads w') f) : Live.IsReached (p.payloads w) f :=
  h.mono htold.symm fun _ _ _ _ _ hb hg =>
    hp.getElem?_bodiesIn hv hs' hs (hs'.getElem?_bodiesIn hb).2
      (hp.getElem?_of_snip hs' hbodies hb hg)

end Lawful

end Reached

/-! ### Two runs -/

section Runs

variable {p : Parser} {w o : Bytes} {v : ℕ} {sections : List Section} {parts : List Payload}
  {a b : Mode} {keepDebug : Bool}

/-- Custom sections that stay for size stay for speed. -/
lemma keepsCustom_size (keepDebug : Bool) (name : String) :
    (keepsCustom .size keepDebug name && keepsCustom .speed keepDebug name) =
      keepsCustom .size keepDebug name := by
  unfold keepsCustom
  split_ifs <;> rfl

lemma keepsCustom_stronger (ha : a ≠ .debug) (hb : b ≠ .debug) (keepDebug : Bool) (name : String) :
    (keepsCustom a keepDebug name && keepsCustom b keepDebug name) =
      keepsCustom (a.stronger b) keepDebug name := by
  cases a with
  | size =>
    cases b with
    | size => exact Bool.and_self _
    | speed => exact keepsCustom_size keepDebug name
    | debug => exact absurd rfl hb
  | speed =>
    cases b with
    | size => rw [Bool.and_comm, keepsCustom_size, Mode.stronger]
    | speed => exact Bool.and_self _
    | debug => exact absurd rfl hb
  | debug => exact absurd rfl ha

lemma stronger_eq_size : a.stronger b = .size ↔ a = .size ∨ b = .size := by
  cases a <;> cases b <;> simp [Mode.stronger]

lemma stronger_ne_debug (ha : a ≠ .debug) : a.stronger b ≠ .debug := by
  cases a <;> cases b <;> simp_all [Mode.stronger]

lemma passes_debug (hv : p.validate w = .ok ()) : p.passes .debug keepDebug w = .ok w := by
  rw [passes, checkInput, hv]
  rfl

/-- Without a marker section no mode is recorded. -/
lemma keptMarker_of_unmarked (hs : p.Splits w v sections parts)
    (hunmarked : ∀ data, .custom markerName data ∉ sections) (mode : Mode) :
    p.keptMarker mode w = none := by
  have hnone : p.recordedMode w = none := by
    rw [hs.recordedMode_eq]
    refine List.findSome?_eq_none_iff.mpr fun s hs => ?_
    cases s with
    | custom name data =>
      have hname : name ≠ markerName := fun h => hunmarked data (h ▸ hs)
      rw [markedSection, markedMode, if_neg (by simpa using hname)]
    | code bodies => rfl
    | other id payload => rfl
  rw [keptMarker, hnone, if_neg (Option.some_ne_none mode).symm]

/-- What one run leaves has no marker either, and of it the other run leaves what both would. -/
lemma passes_reduced (hp : p.Lawful) (ha : a ≠ .debug) (hb : b ≠ .debug)
    (hv : p.validate w = .ok ()) (hs : p.Splits w v sections parts)
    (hunmarked : ∀ data, .custom markerName data ∉ sections) {live : ℕ → Bool}
    (hlive : p.live a w = .ok live) :
    p.passes b keepDebug
        (writeModule (reduceSections live (keepsCustom a keepDebug) none sections)) =
      p.passes (a.stronger b) keepDebug w := by
  have hsingle := hp.single_code hv hs.read
  have hv' := hp.validate_reduceSections live (keepsCustom a keepDebug) none hv hs
  obtain ⟨parts', hs'⟩ :=
    hp.splits_writeModule hv' (fits_reduceSections (fits_of_readBinary hs.read))
  have hbodies : bodiesOf (reduceSections live (keepsCustom a keepDebug) none sections) =
      snip live (bodiesOf sections) := hsingle.bodiesOf_reduceSections
  have htold := hp.tolds_eq hs hs' othersOf_reduceSections (hp.isRead hv) (hp.isRead hv')
  have hunmarked' : p.keptMarker b (writeModule (reduceSections live (keepsCustom a keepDebug) none
      sections)) = none := by
    rw [keptMarker, hs'.recordedMode_eq,
      marker?_reduceSections (keepsCustom_markerName a keepDebug), if_neg (Option.some_ne_none b).symm]
  obtain ⟨live', hlive'⟩ := exists_live (hp.readable hv') b
  obtain ⟨live'', hlive''⟩ := exists_live (hp.readable hv) (a.stronger b)
  rw [passes_of_live hp keepDebug hb hv' hs' hlive', hunmarked',
    passes_of_live hp keepDebug (stronger_ne_debug ha) hv hs hlive'',
    keptMarker_of_unmarked hs hunmarked,
    reduceSections_comp live live' _ (keepsCustom_markerName b keepDebug)]
  congr 2
  refine reduceSections_congr (keepsCustom_stronger ha hb keepDebug) fun bodies hcode =>
    snip_congr fun i hi => ?_
  -- of the bodies those live in the stronger mode are live in both, the first time and the second
  rw [← hsingle.bodiesOf_of_mem hcode] at hi
  have hi' : i < (p.bodies (writeModule (reduceSections live (keepsCustom a keepDebug) none
      sections))).length := by
    rwa [hs'.bodies_eq, hbodies, snip, List.length_mapIdx]
  rw [← hs.bodies_eq] at hi
  have hsecond : live' i = true ↔ (b = .size →
      Live.IsReached (p.payloads w) (Live.importedCount (p.payloads w) + i)) := by
    rw [live_iff hlive' hi', Live.importedCount_congr htold]
    exact forall_congr' fun _ => ⟨hp.isReached_of_snip hv hs hs' htold hbodies,
      hp.isReached_snip hv' hs hs' htold hbodies
        fun j hj hreach => (live_iff hlive hj).mpr fun _ => hreach⟩
  rw [Bool.eq_iff_iff, Bool.and_eq_true, live_iff hlive hi, hsecond, live_iff hlive'' hi,
    stronger_eq_size]
  tauto

/-- **Two runs are one run** in the stronger of their modes. -/
lemma passes_passes (hp : p.Lawful) (hv : p.validate w = .ok ())
    (hs : p.Splits w v sections parts) (hunmarked : ∀ data, .custom markerName data ∉ sections)
    (h : p.passes a keepDebug w = .ok o) :
    p.passes b keepDebug o = p.passes (a.stronger b) keepDebug w := by
  by_cases ha : a = .debug
  · subst ha
    obtain rfl : w = o := Except.ok.inj ((passes_debug hv).symm.trans h)
    rfl
  obtain ⟨live, hlive⟩ := exists_live (hp.readable hv) a
  have hfirst := passes_of_live hp keepDebug ha hv hs hlive
  rw [keptMarker_of_unmarked hs hunmarked] at hfirst
  obtain rfl : _ = o := Except.ok.inj (hfirst.symm.trans h)
  by_cases hb : b = .debug
  · subst hb
    have hsame : a.stronger .debug = a := by cases a <;> rfl
    rw [passes_debug (hp.validate_reduceSections live _ none hv hs), hsame, h]
  · exact passes_reduced hp ha hb hv hs hunmarked hlive

lemma exists_passes (hp : p.Lawful) (mode : Mode) (keepDebug : Bool) (hv : p.validate w = .ok ())
    (hs : p.Splits w v sections parts) : ∃ out, p.passes mode keepDebug w = .ok out := by
  by_cases hm : mode = .debug
  · exact ⟨w, by rw [hm, passes_debug hv]⟩
  · obtain ⟨live, hlive⟩ := exists_live (hp.readable hv) mode
    exact ⟨_, passes_of_live hp keepDebug hm hv hs hlive⟩

/-- Any number of runs are one run in the strongest of their modes. -/
lemma foldlM_passes (hp : p.Lawful) (keepDebug : Bool) (hv : p.validate w = .ok ())
    (hs : p.Splits w v sections parts) (hunmarked : ∀ data, .custom markerName data ∉ sections)
    (modes : List Mode) :
    modes.foldlM (fun bs mode => p.passes mode keepDebug bs) w =
      p.passes (Mode.strongest modes) keepDebug w := by
  induction modes using List.reverseRecOn with
  | nil => exact (passes_debug hv).symm
  | append_singleton modes mode ih =>
    obtain ⟨o, ho⟩ := exists_passes hp (Mode.strongest modes) keepDebug hv hs
    rw [List.foldlM_append, ih, ho]
    change (p.passes mode keepDebug o >>= pure) = _
    rw [bind_pure, passes_passes hp hv hs hunmarked ho, Mode.strongest_append]

end Runs

end Parser

/-- **Runs in any modes**, each on what the one before it gave, are one run for size if there is one
for size among them, otherwise one for speed if there is one, and otherwise nothing. So runs in the
same modes give the same, however often and in whatever order. -/
theorem passes_absorb {p : Parser} {w : Bytes} (hp : p.Lawful) (keepDebug : Bool)
    (hw : p.IsModule w) (hunmarked : ∀ data, .ok (.custom markerName data) ∉ p.payloads w)
    (modes : List Mode) :
    ∃ out, modes.foldlM (fun bs mode => p.passes mode keepDebug bs) w = .ok out ∧
      (if .size ∈ modes then p.passes .size keepDebug w
        else if .speed ∈ modes then p.passes .speed keepDebug w
        else .ok w) = .ok out ∧
      ∀ modes' : List Mode, (∀ mode, mode ∈ modes' ↔ mode ∈ modes) →
        modes'.foldlM (fun bs mode => p.passes mode keepDebug bs) w = .ok out := by
  obtain ⟨v, sections, parts, hs⟩ := hp.exists_splits hw
  have hunmarked' : ∀ data, .custom markerName data ∉ sections :=
    fun data hmem => hunmarked data (hs.mem_payloads (hs.frames.custom_mem hmem))
  obtain ⟨out, hout⟩ :=
    Parser.exists_passes hp (Mode.strongest modes) keepDebug hw.valid hs
  have hall := Parser.foldlM_passes hp keepDebug hw.valid hs hunmarked'
  refine ⟨out, (hall modes).trans hout, ?_, ?_⟩
  · rw [← hout, Mode.strongest]
    split_ifs
    · rfl
    · rfl
    · exact (Parser.passes_debug hw.valid).symm
  · intro modes' hsame
    have hstrongest : Mode.strongest modes' = Mode.strongest modes := by
      simp only [Mode.strongest, hsame]
    rw [hall modes', hstrongest, hout]

/-- A function that is not exported does nothing three times, another one is exported and calls it
not; a producer, debug information and names stand among the sections. -/
def described : List Section :=
  [.custom "producers" [0x00], .other 1 [0x01, 0x60, 0x00, 0x00], .custom ".debug_info" [0x07],
    .other 3 [0x02, 0x00, 0x00], .other 7 [0x01, 0x01, 0x61, 0x00, 0x00],
    .code [[0x00, 0x0b], [0x00, 0x01, 0x01, 0x01, 0x0b]], .custom "name" []]

theorem passes_absorb_described : Parser.standard.IsModule (writeModule described) ∧
    (∀ data, .ok (.custom markerName data) ∉ Parser.standard.payloads (writeModule described)) ∧
    [Mode.speed, .debug, .size, .speed].foldlM (fun bs mode => passes mode true bs)
        (writeModule described) =
      .ok (writeModule [.other 1 [0x01, 0x60, 0x00, 0x00], .custom ".debug_info" [0x07],
        .other 3 [0x02, 0x00, 0x00], .other 7 [0x01, 0x01, 0x61, 0x00, 0x00],
        .code [[0x00, 0x0b], trapBody], .custom "name" []]) := by
  have hfits : ∀ s ∈ described, s.Fits :=
    Section.fits_of_readAll (show Section.readAll (described.flatMap Section.write) = _ by
      decide +kernel)
  have hread := readBinary_writeModule hfits
  have hw : Parser.standard.IsModule (writeModule described) :=
    Standard.isModule (by decide +kernel) hread
  have hunmarked : ∀ data,
      .ok (.custom markerName data) ∉ Parser.standard.payloads (writeModule described) := by
    intro data hdata
    have hmem := Standard.custom_of_mem hread hdata
    simp [described, markerName] at hmem
  obtain ⟨out, hrun, hsize, -⟩ := passes_absorb Parser.standard_lawful true hw hunmarked
    [.speed, .debug, .size, .speed]
  rw [if_pos (by decide)] at hsize
  refine ⟨hw, hunmarked, hrun.trans (hsize.symm.trans ?_)⟩
  decide +kernel

end Wasm

end ContractBuild

import Mathlib
import ContractBuild.Proofs.Wasm.Idempotence

/-!
An external optimizer before the passes. A second run leaves alone what carries the marker of the
first, whatever the tool does. For size, a result that grew is dropped together with its marker;
then the tool is run once more, and its first answer stands only if the second one grows too.
-/

namespace ContractBuild.Wasm

namespace Parser

variable {p : Parser}

/-! ### Passes on bytes that need not be valid -/

section Passes

variable {w out : Bytes} {mode : Mode} {keepDebug : Bool} {marker : Option Mode}

/-- What was written of sections, if it is valid, was written of a module with one section of code
at most, since all of them are still there. -/
lemma Lawful.singleCode_of_rewrite (hp : p.Lawful) {sections : List Section} {live : ℕ → Bool}
    {keeps : String → Bool} (hfits : ∀ s ∈ sections, s.Fits)
    (hv : p.validate (writeModule (rewriteFrom live keeps [] 0 sections ++
      (marker.map markerSection).toList)) = .ok ()) : SingleCode sections := by
  have hlt := hp.length_lt_of_writeModule hv
  rw [List.forall_mem_append] at hlt
  obtain ⟨parts, hs⟩ := hp.splits_writeModule hv
    (List.forall_mem_append.mpr ⟨fits_rewriteFrom hfits hlt.1, fits_marker marker⟩)
  have hsingle := hp.single_code hv hs.read
  rwa [SingleCode, List.filter_append, marker_no_code, List.append_nil,
    length_filter_rewriteFrom] at hsingle

/-- **A valid result of a run** carries the marker it was given, and with that marker a run gives it
back. The input need not have been valid. -/
lemma Lawful.runPasses_runPasses (hp : p.Lawful)
    (h : p.runPasses mode keepDebug marker w = .ok out) (hv : p.validate out = .ok ()) :
    p.recordedMode out = marker ∧ p.runPasses mode keepDebug marker out = .ok out := by
  obtain ⟨v, sections, parts, live, hs, hlive, rfl⟩ := runPasses_eq_ok hp h
  have hsingle := hp.singleCode_of_rewrite (fits_of_readBinary hs.read) hv
  rw [rewriteFrom_of_singleCode hsingle] at hv ⊢
  exact runPasses_again hp hs hsingle hlive hv

end Passes

/-! ### A tool and the passes -/

section Tool

variable {tool : ExternalTool Id} {mode : Mode} {keepDebug : Bool} {w o : Bytes}

/-- What the tool and the passes make of a binary. The tool is left out if the binary is marked. -/
def withTool (p : Parser) (tool : ExternalTool Id) (mode : Mode) (keepDebug : Bool) (w : Bytes) :
    Except Fault Bytes :=
  if p.recordedMode w = some mode then p.runPasses mode keepDebug (some mode) w
  else (show Except Fault Bytes from tool mode keepDebug w) >>=
    p.runPasses mode keepDebug (some mode)

/-- For size, the tool and the passes make a binary longer. -/
def Grows (p : Parser) (tool : ExternalTool Id) (mode : Mode) (keepDebug : Bool) (w : Bytes) :
    Prop :=
  mode = .size ∧ ∃ out, p.withTool tool mode keepDebug w = .ok out ∧ w.length < out.length

/-- Either way the result went through the passes with the marker of the mode. -/
lemma exists_runPasses_of_withTool (h : p.withTool tool mode keepDebug w = .ok o) :
    ∃ input, p.runPasses mode keepDebug (some mode) input = .ok o := by
  unfold withTool at h
  split_ifs at h
  · exact ⟨w, h⟩
  · obtain ⟨input, -, hpasses⟩ := except_bind_ok.mp h
    exact ⟨input, hpasses⟩

/-- Keeps a result that passes the check at the end, and for size only one that did not grow. -/
def settle (p : Parser) (mode : Mode) (keepDebug : Bool) (w out : Bytes) : Except Fault Bytes :=
  (if mode = .size ∧ out.length > w.length then p.runPasses mode keepDebug none w else .ok out) >>=
    fun o => p.checkOutput o >>= fun _ => .ok o

lemma settle_eq_ok {out : Bytes} : p.settle mode keepDebug w out = .ok o ↔ p.validate o = .ok () ∧
    (if mode = .size ∧ out.length > w.length then p.runPasses mode keepDebug none w else .ok out) =
      .ok o := by
  unfold settle
  simp only [except_bind_ok, checkOutput_eq_ok]
  constructor
  · rintro ⟨o', ho', -, hv, heq⟩
    cases heq
    exact ⟨hv, ho'⟩
  · rintro ⟨hv, ho⟩
    exact ⟨o, ho, (), hv, rfl⟩

lemma optimizeWith_of_valid (hv : p.validate w = .ok ()) (hm : mode ≠ .debug) :
    p.optimizeWith (some tool) mode keepDebug w =
      p.withTool tool mode keepDebug w >>= p.settle mode keepDebug w := by
  have hcheck : ∀ o, (do liftM (p.checkOutput o); return o : ExceptT Fault Id Bytes) =
      p.checkOutput o >>= fun _ => .ok o := by
    intro o
    rcases p.checkOutput o with f | u
    · rfl
    · rfl
  have hsettle : ∀ marker input, (do
      let out ← liftM (p.runPasses mode keepDebug marker input)
      if mode = .size ∧ out.length > w.length then do
          let out ← liftM (p.runPasses mode keepDebug none w)
          liftM (p.checkOutput out)
          return out
        else do
          liftM (p.checkOutput out)
          return out : ExceptT Fault Id Bytes) =
        p.runPasses mode keepDebug marker input >>= p.settle mode keepDebug w := by
    intro marker input
    rcases p.runPasses mode keepDebug marker input with f | out
    · rfl
    · change (if _ then _ else _) = p.settle mode keepDebug w out
      unfold settle
      split_ifs
      · rcases p.runPasses mode keepDebug none w with f | o
        · rfl
        · exact hcheck o
      · exact hcheck out
  unfold optimizeWith withTool
  rw [show p.checkInput w = .ok () from checkInput_eq_ok.mpr hv]
  change (if mode = .debug then _ else _) = _
  rw [if_neg hm]
  by_cases hr : p.recordedMode w = some mode
  · simp only [if_pos hr]
    exact hsettle _ _
  · simp only [if_neg hr]
    rcases hrun : tool mode keepDebug w with f | input
    · rfl
    · exact hsettle _ _

lemma validate_of_optimizeWith (h : p.optimizeWith (some tool) mode keepDebug w = Except.ok o) :
    p.validate w = .ok () := by
  cases hv : p.validate w with
  | ok u => rfl
  | error reason =>
    have hcheck : p.checkInput w = .error (.malformed reason) := by rw [checkInput, hv]; rfl
    unfold optimizeWith at h
    rw [hcheck] at h
    cases h

lemma optimizeWith_debug (hv : p.validate w = .ok ()) :
    p.optimizeWith (some tool) .debug keepDebug w = Except.ok w := by
  unfold optimizeWith
  rw [show p.checkInput w = .ok () from checkInput_eq_ok.mpr hv]
  rfl

/-- What an optimization with a tool has done when it succeeds. -/
lemma optimizeWith_eq_ok (hm : mode ≠ .debug) :
    p.optimizeWith (some tool) mode keepDebug w = Except.ok o ↔
      p.validate w = .ok () ∧ ∃ out, p.withTool tool mode keepDebug w = .ok out ∧
        p.validate o = .ok () ∧
        (if mode = .size ∧ out.length > w.length then p.runPasses mode keepDebug none w
          else .ok out) = .ok o := by
  constructor
  · intro h
    have hv := validate_of_optimizeWith h
    rw [optimizeWith_of_valid hv hm, except_bind_ok] at h
    obtain ⟨out, hout, h⟩ := h
    exact ⟨hv, out, hout, settle_eq_ok.mp h⟩
  · rintro ⟨hv, out, hout, h⟩
    rw [optimizeWith_of_valid hv hm, except_bind_ok]
    exact ⟨out, hout, settle_eq_ok.mpr h⟩

lemma recordedMode_of_withTool (hp : p.Lawful) (h : p.withTool tool mode keepDebug w = .ok o)
    (hv : p.validate o = .ok ()) : p.recordedMode o = some mode := by
  obtain ⟨input, hpasses⟩ := exists_runPasses_of_withTool h
  exact (hp.runPasses_runPasses hpasses hv).1

/-- A binary with the marker of the mode is given back by the passes alone. -/
lemma optimizeWith_again_of_kept (hp : p.Lawful) (hm : mode ≠ .debug)
    (h : p.withTool tool mode keepDebug w = .ok o)
    (hv : p.validate o = .ok ()) : p.optimizeWith (some tool) mode keepDebug o = Except.ok o := by
  obtain ⟨input, hpasses⟩ := exists_runPasses_of_withTool h
  obtain ⟨hmarked, hagain⟩ := hp.runPasses_runPasses hpasses hv
  have hskip : p.withTool tool mode keepDebug o = .ok o := by rw [withTool, if_pos hmarked, hagain]
  refine (optimizeWith_eq_ok hm).mpr ⟨hv, o, hskip, hv, if_neg ?_⟩
  exact fun hlong => absurd hlong.2 (lt_irrefl _)

/-- A binary that the passes gave without a marker is given back only if the tool's answer for it
is dropped too: an answer that is kept would be marked. -/
lemma optimizeWith_again_of_dropped (hp : p.Lawful)
    (h : p.runPasses .size keepDebug none w = .ok o)
    (hv : p.validate o = .ok ()) :
    p.optimizeWith (some tool) .size keepDebug o = Except.ok o ↔
      p.Grows tool .size keepDebug o := by
  obtain ⟨hunmarked, hagain⟩ := hp.runPasses_runPasses h hv
  rw [optimizeWith_eq_ok (by decide)]
  constructor
  · rintro ⟨-, out, hout, -, hkept⟩
    refine ⟨rfl, out, hout, ?_⟩
    by_contra hshort
    rw [if_neg fun hg => hshort hg.2] at hkept
    obtain rfl : out = o := Except.ok.inj hkept
    simp [recordedMode_of_withTool hp hout hv] at hunmarked
  · rintro ⟨hsize, out, hout, hlong⟩
    exact ⟨hv, out, hout, hv, by rw [if_pos ⟨hsize, hlong⟩, hagain]⟩

end Tool

end Parser

/-- **A second run with an external tool.** What the first run kept of the tool's answer is marked,
and is given back whatever the tool does. What it fell back on for size, because that answer grew,
is given back exactly if the tool makes that grow as well. -/
theorem optimizeWith_again {p : Parser} {tool : ExternalTool Id} {mode : Mode} {keepDebug : Bool}
    {w o : Bytes} (hp : p.Lawful)
    (h : p.optimizeWith (some tool) mode keepDebug w = Except.ok o) :
    (¬ p.Grows tool mode keepDebug w →
      p.optimizeWith (some tool) mode keepDebug o = Except.ok o) ∧
    (p.Grows tool mode keepDebug w →
      (p.optimizeWith (some tool) mode keepDebug o = Except.ok o ↔
        p.Grows tool mode keepDebug o)) := by
  by_cases hm : mode = .debug
  · subst hm
    have hsame : p.optimizeWith (some tool) .debug keepDebug w = Except.ok w :=
      Parser.optimizeWith_debug (Parser.validate_of_optimizeWith h)
    obtain rfl : w = o := Except.ok.inj (hsame.symm.trans h)
    exact ⟨fun _ => hsame, fun hg => nomatch hg.1⟩
  obtain ⟨-, out, hout, hv, hkept⟩ := (Parser.optimizeWith_eq_ok hm).mp h
  constructor
  · intro hg
    rw [if_neg fun hlong => hg ⟨hlong.1, out, hout, hlong.2⟩] at hkept
    obtain rfl : out = o := Except.ok.inj hkept
    exact Parser.optimizeWith_again_of_kept hp hm hout hv
  · rintro ⟨rfl, out', hout', hlong⟩
    obtain rfl : out = out' := Except.ok.inj (hout.symm.trans hout')
    rw [if_pos ⟨rfl, hlong⟩] at hkept
    exact Parser.optimizeWith_again_of_dropped hp hkept hv

/-! ### A tool that answers better the second time -/

/-- A type section of eight functions that take and give nothing. -/
def eightTypes : List Section :=
  [.other 1 (0x08 :: (List.replicate 8 [0x60, 0x00, 0x00]).flatten)]

/-- The same with a custom section that goes. -/
def eightTypesNamed : Bytes := writeModule (eightTypes ++ [.custom "x" []])

/-- Leaves nothing of any module. -/
def emptying : ExternalTool Id := fun _ _ _ => Except.ok (writeModule [])

/-- Finds nothing to do there, and leaves nothing of any other module. -/
def secondLook : ExternalTool Id := fun mode keepDebug bs =>
  if bs = eightTypesNamed then Except.ok bs else emptying mode keepDebug bs

theorem optimizeWith_emptying_twice :
    ¬ Parser.standard.Grows emptying .size false eightTypesNamed ∧
    Parser.standard.optimizeWith (some emptying) .size false eightTypesNamed =
      Except.ok (writeModule [markerSection .size]) ∧
    Parser.standard.optimizeWith (some emptying) .size false (writeModule [markerSection .size]) =
      Except.ok (writeModule [markerSection .size]) := by
  have hkept : Parser.standard.withTool emptying .size false eightTypesNamed =
      .ok (writeModule [markerSection .size]) := by decide +kernel
  have hshort : ¬ Parser.standard.Grows emptying .size false eightTypesNamed := by
    rintro ⟨-, out, hout, hlong⟩
    obtain rfl : _ = out := Except.ok.inj (hkept.symm.trans hout)
    revert hlong
    decide +kernel
  have honce : Parser.standard.optimizeWith (some emptying) .size false eightTypesNamed =
      Except.ok (writeModule [markerSection .size]) := (Parser.optimizeWith_eq_ok (by decide)).mpr
    ⟨by decide +kernel, _, hkept, by decide +kernel, by decide +kernel⟩
  exact ⟨hshort, honce, (optimizeWith_again Parser.standard_lawful honce).1 hshort⟩

/-- The first answer grows by the marker and is dropped without it, and the second is kept. -/
theorem optimizeWith_secondLook_differs :
    Parser.standard.optimizeWith (some secondLook) .size false eightTypesNamed =
      Except.ok (writeModule eightTypes) ∧
    Parser.standard.optimizeWith (some secondLook) .size false (writeModule eightTypes) =
      Except.ok (writeModule [markerSection .size]) ∧
    writeModule [markerSection .size] ≠ writeModule eightTypes := by
  have hgrown : Parser.standard.withTool secondLook .size false eightTypesNamed =
      .ok (writeModule (eightTypes ++ [markerSection .size])) := by decide +kernel
  have hkept : Parser.standard.withTool secondLook .size false (writeModule eightTypes) =
      .ok (writeModule [markerSection .size]) := by decide +kernel
  refine ⟨(Parser.optimizeWith_eq_ok (by decide)).mpr ?_,
    (Parser.optimizeWith_eq_ok (by decide)).mpr ?_, by decide +kernel⟩
  · exact ⟨by decide +kernel, _, hgrown, by decide +kernel, by decide +kernel⟩
  · exact ⟨by decide +kernel, _, hkept, by decide +kernel, by decide +kernel⟩

end ContractBuild.Wasm

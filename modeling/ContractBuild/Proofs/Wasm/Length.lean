import Mathlib
import ContractBuild.Proofs.Wasm.External
import ContractBuild.Wasm.Optimizer

/-!
Nothing becomes longer. A number is written in no more bytes than it was read from, so a binary that
is written again takes no more room; the passes only take away from it, since the marker that they
leave was there before. Hence a result of the passes alone is never dropped for having grown, and
optimizing without an external tool is the passes.
-/

namespace ContractBuild.Wasm

/-! ### What was read is written in as many bytes at most -/

namespace Section

lemma length_write (s : Section) : s.write.length = (writeSized s.toRaw.2).length + 1 := by
  rw [write_eq, List.length_cons]

/-- An identifier and sized content take the room they were read from at least. -/
lemma length_of_raw {bs r : Bytes} {p : UInt8 × Bytes} (h : raw bs = some (p, r)) :
    (writeSized p.2).length + 1 + r.length ≤ bs.length := by
  obtain ⟨t, rfl, hsized⟩ := raw_eq_some h
  have hle := Reader.length_writeSized_add_le hsized
  rw [List.length_cons]
  omega

lemma length_of_many {fuel : ℕ} {bs : Bytes} {raws : List (UInt8 × Bytes)}
    (h : Reader.many raw fuel bs = some raws) :
    (raws.flatMap fun p => p.1 :: writeSized p.2).length ≤ bs.length := by
  induction fuel generalizing bs raws with
  | zero =>
    cases bs with
    | nil => cases h; exact Nat.le_refl _
    | cons b bs => cases h
  | succ fuel ih =>
    cases bs with
    | nil => cases h; exact Nat.le_refl _
    | cons b bs =>
      rw [Reader.many_cons, Option.bind_eq_some_iff] at h
      obtain ⟨⟨p, r⟩, hr, h⟩ := h
      obtain ⟨raws', hraws', rfl⟩ := Option.map_eq_some_iff.mp h
      have hfirst := length_of_raw hr
      have hrest := ih hraws'
      rw [List.flatMap_cons, List.length_append, List.length_cons]
      dsimp only at hfirst hrest ⊢
      omega

/-- Sections are written with no more bytes than they were read from. -/
lemma length_of_readAll {bs : Bytes} {sections : List Section} (h : readAll bs = some sections) :
    (sections.flatMap write).length ≤ bs.length := by
  obtain ⟨raws, hraws, hmap⟩ := Option.bind_eq_some_iff.mp h
  have hlt := length_lt_of_many hraws
  have hall := (List.forall₂_and_left _ _).mpr ⟨hlt, option_mapM_eq_some.mp hmap⟩
  refine (length_flatMap_le (hall.flip.imp fun s p hp => ?_)).trans (length_of_many hraws)
  obtain ⟨-, -, hle⟩ := fits_of_ofRaw hp.1 hp.2
  rw [length_write, List.length_cons]
  exact Nat.add_le_add_right (length_writeSized_mono hle) 1

end Section

/-- **Writing a module again** takes no more bytes than it was read from. -/
lemma length_writeModule_of_readBinary {bs : Bytes} {b : Binary} (h : readBinary bs = some b) :
    (writeModule b.sections).length ≤ bs.length := by
  unfold readBinary at h
  split at h
  · next v0 v1 l0 l1 r hmagic =>
    split at h
    · obtain ⟨sections, hsections, rfl⟩ := Option.map_eq_some_iff.mp h
      have hle := Section.length_of_readAll hsections
      have hbs := congrArg List.length (List.isPrefixOf?_eq_some_iff_append_eq.mp hmagic)
      simp only [writeModule, List.length_append, List.length_cons, List.length_nil] at hbs ⊢
      omega
    · cases h
  · cases h

/-! ### The passes only take away -/

section Reduce

variable {live : ℕ → Bool} {keeps : String → Bool} {marker : Option Mode} {sections : List Section}

lemma length_reduceSection (live : ℕ → Bool) (keeps : String → Bool) (s : Section) :
    ((reduceSection live keeps s).flatMap Section.write).length ≤ s.write.length := by
  cases s with
  | custom name data =>
    rw [reduceSection]
    split_ifs with hk
    · rw [List.flatMap_singleton]
    · exact Nat.zero_le _
  | code bodies =>
    rw [reduceSection, List.flatMap_singleton, Section.length_write, Section.length_write]
    exact Nat.add_le_add_right (length_writeSized_mono (length_toRaw_snip_le live bodies)) 1
  | other id payload => exact le_of_eq (congrArg List.length (List.flatMap_singleton _ _))

lemma length_flatMap_reduceSection (live : ℕ → Bool) (keeps : String → Bool)
    (sections : List Section) :
    ((sections.flatMap (reduceSection live keeps)).flatMap Section.write).length ≤
      (sections.flatMap Section.write).length := by
  rw [List.flatMap_assoc]
  exact length_flatMap_le
    (List.forall₂_same.mpr fun s _ => length_reduceSection live keeps s)

/-- A section that names a mode as a marker is the one that is written for the mode. -/
lemma eq_markerSection_of_markedSection {s : Section} {mode : Mode}
    (h : markedSection s = some mode) : s = markerSection mode := by
  cases s with
  | code bodies => cases h
  | other id payload => cases h
  | custom name data =>
    rw [markedSection, markedMode] at h
    split_ifs at h with hname
    obtain rfl := beq_iff_eq.mp hname
    rcases hdata : Text.Utf8.decode data with f | text
    · rw [hdata] at h
      cases h
    · rw [hdata] at h
      have htext : text = mode.text := by
        change Mode.ofText? text = some mode at h
        unfold Mode.ofText? at h
        split at h
        all_goals cases h
        all_goals rfl
      rw [markerSection, ← htext, Text.Utf8.encode_of_decode hdata]

/-- A marker that is left was there before, and went, so it takes no more room. -/
lemma length_reduceSections (hkeeps : keeps markerName = false)
    (hmarker : ∀ mode, marker = some mode → marker? sections = some mode) :
    ((reduceSections live keeps marker sections).flatMap Section.write).length ≤
      (sections.flatMap Section.write).length := by
  rw [reduceSections, List.flatMap_append, List.length_append]
  cases marker with
  | none => exact length_flatMap_reduceSection live keeps sections
  | some mode =>
    obtain ⟨before, s, after, rfl, hs, -⟩ := List.findSome?_eq_some_iff.mp (hmarker mode rfl)
    obtain rfl := eq_markerSection_of_markedSection hs
    have hgone : reduceSection live keeps (markerSection mode) = [] := by
      rw [markerSection, reduceSection, hkeeps]
      rfl
    have hbefore := length_flatMap_reduceSection live keeps before
    have hafter := length_flatMap_reduceSection live keeps after
    simp only [Option.map_some, Option.toList_some, List.flatMap_append, List.flatMap_cons, hgone,
      List.nil_append, List.flatMap_nil, List.append_nil, List.length_append]
    omega

end Reduce

namespace Parser

section Passes

variable {p : Parser} {w o : Bytes} {mode : Mode} {keepDebug : Bool} {marker : Option Mode}

/-- A run on a valid module gives nothing longer, if the marker that it leaves was there. -/
lemma length_of_runPasses (hp : p.Lawful) (hv : p.validate w = .ok ())
    (hmarker : ∀ mode, marker = some mode → p.recordedMode w = some mode)
    (h : p.runPasses mode keepDebug marker w = .ok o) : o.length ≤ w.length := by
  obtain ⟨v, sections, parts, live, hs, -, rfl⟩ := runPasses_eq_ok hp h
  have hsections : ((reduceSections live (keepsCustom mode keepDebug) marker sections).flatMap
      Section.write).length ≤ (sections.flatMap Section.write).length := by
    refine length_reduceSections (keepsCustom_markerName mode keepDebug) fun mode' hm => ?_
    rw [← hs.recordedMode_eq]
    exact hmarker mode' hm
  rw [rewriteFrom_of_singleCode (hp.single_code hv hs.read), ← reduceSections]
  refine le_trans ?_ (length_writeModule_of_readBinary hs.read)
  simp only [writeModule, List.length_append]
  exact Nat.add_le_add_left hsections _

lemma recordedMode_of_keptMarker {mode' : Mode} (h : p.keptMarker mode w = some mode') :
    p.recordedMode w = some mode' := by
  rw [keptMarker] at h
  split_ifs at h with hrecorded
  rw [hrecorded, h]

lemma length_of_passes (hp : p.Lawful) (h : p.passes mode keepDebug w = .ok o) :
    o.length ≤ w.length := by
  obtain ⟨hv, ⟨-, rfl⟩ | ⟨-, hrun⟩⟩ := runPasses_of_passes h
  · exact Nat.le_refl _
  · exact length_of_runPasses hp hv (fun _ hm => recordedMode_of_keptMarker hm) hrun

end Passes

/-! ### Without a tool -/

section Alone

variable {p : Parser} {m : Type → Type} [Monad m] [LawfulMonad m]

lemma liftM_error_bind {α : Type} (f : Fault) (k : α → ExceptT Fault m Bytes) :
    (liftM (Except.error f : Except Fault α) >>= k) = throw f :=
  ExceptT.ext (pure_bind _ _)

/-- What a run on a valid module gives without a tool has not grown, so it is not dropped. -/
lemma settle_of_runPasses (hp : p.Lawful) (mode : Mode) (keepDebug : Bool) {w : Bytes}
    (hv : p.validate w = .ok ()) {marker : Option Mode}
    (hmarker : ∀ mode', marker = some mode' → p.recordedMode w = some mode') : (do
      let out ← liftM (p.runPasses mode keepDebug marker w)
      let out ← if mode = .size ∧ out.length > w.length then
          liftM (p.runPasses mode keepDebug none w) else pure out
      liftM (p.checkOutput out)
      return out : ExceptT Fault m Bytes) = liftM (do
        let out ← p.runPasses mode keepDebug marker w
        p.checkOutput out
        return out : Except Fault Bytes) := by
  rw [liftM_bind]
  rcases hout : p.runPasses mode keepDebug marker w with f | out
  · rw [liftM_error_bind, liftM_error_bind]
  · have hshort : ¬ (mode = .size ∧ out.length > w.length) :=
      fun hg => absurd (length_of_runPasses hp hv hmarker hout) (Nat.not_le_of_gt hg.2)
    change (pure out >>= _) = (pure out >>= _)
    rw [pure_bind, pure_bind]
    dsimp only
    rw [if_neg hshort, pure_bind, liftM_bind]
    rfl

/-- With no tool before them the passes give nothing that has grown, so nothing is dropped. -/
lemma optimizeWith_none (hp : p.Lawful) (mode : Mode) (keepDebug : Bool) (w : Bytes) :
    p.optimizeWith (none : Option (ExternalTool m)) mode keepDebug w =
      liftM (p.passes mode keepDebug w) := by
  unfold optimizeWith passes
  rw [liftM_bind]
  cases hv : p.validate w with
  | error reason =>
    rw [show p.checkInput w = .error (.malformed reason) by rw [checkInput, hv]; rfl]
    rw [liftM_error_bind, liftM_error_bind]
  | ok u =>
    refine bind_congr fun _ => ?_
    split_ifs with hm hr
    · rw [liftM_pure]
    · dsimp only
      rw [pure_bind]
      exact settle_of_runPasses hp mode keepDebug hv fun _ h => h ▸ hr
    · dsimp only
      rw [pure_bind]
      exact settle_of_runPasses hp mode keepDebug hv fun mode' h =>
        absurd h (Option.some_ne_none mode').symm

end Alone

/-! ### With any external tool -/

/-- Whatever the tool gives, what comes of it for size is kept only if it is no longer than the
input, and what the passes alone make of the input is not. -/
lemma gives_optimizeWith {p : Parser} {σ : Type} (hp : p.Lawful)
    (tool : Option (ExternalTool (StateM σ))) (keepDebug : Bool) (w : Bytes) :
    Gives (p.optimizeWith tool .size keepDebug w) fun o => o.length ≤ w.length := by
  have hcheck : ∀ o : Bytes, o.length ≤ w.length → Gives (do
      liftM (p.checkOutput o)
      return o : ExceptT Fault (StateM σ) Bytes) fun o => o.length ≤ w.length :=
    fun o ho => Gives.bind_any fun _ => Gives.pure ho
  have hsettle : p.validate w = .ok () → ∀ q : Bytes × Option Mode, Gives (do
      let out ← liftM (p.runPasses .size keepDebug q.2 q.1)
      let out ← if Mode.size = .size ∧ out.length > w.length then
          liftM (p.runPasses .size keepDebug none w) else pure out
      liftM (p.checkOutput out)
      return out : ExceptT Fault (StateM σ) Bytes) fun o => o.length ≤ w.length := by
    refine fun hv q => Gives.bind_any fun out => ?_
    dsimp only
    split_ifs with hlong
    · have hunmarked : ∀ mode, none = some mode → p.recordedMode w = some mode := nofun
      exact (Gives.ofExcept fun o => length_of_runPasses hp hv hunmarked).bind hcheck
    · have hshort : out.length ≤ w.length := Nat.le_of_not_lt fun hg => hlong ⟨rfl, hg⟩
      exact Gives.bind (Q := fun o => o.length ≤ w.length) (Gives.pure hshort) hcheck
  unfold optimizeWith
  have hvalid : Gives (liftM (p.checkInput w) : ExceptT Fault (StateM σ) Unit)
      fun _ => p.validate w = .ok () := Gives.ofExcept fun _ => checkInput_eq_ok.mp
  refine hvalid.bind fun _ hv => ?_
  rw [if_neg (by decide)]
  dsimp only
  split_ifs with hrecorded
  · exact hsettle hv (w, some .size)
  cases tool with
  | none => exact hsettle hv (w, none)
  | some run => exact Gives.bind_any fun out => hsettle hv (out, some .size)

end Parser

/-- **Without a tool, optimizing is the passes**, for every binary, valid or not, and with the same
fault if there is one. Nothing is done to the host. -/
theorem optimize_eq_passes {p : Parser} (hp : p.Lawful) (mode : Mode) (keepDebug : Bool)
    (w : Bytes) :
    p.optimize mode keepDebug w = p.passes mode keepDebug w ∧
    ∀ host, (({ parser := p } : Optimizer).optimize mode keepDebug w).run host =
      (p.passes mode keepDebug w, host) := by
  constructor
  · exact congrArg ExceptT.run (Parser.optimizeWith_none (m := Id) hp mode keepDebug w)
  · intro host
    exact congrFun (Parser.optimizeWith_none (m := OnHost) hp mode keepDebug w) host

/-- Three markers become one without a tool. -/
theorem optimize_eq_passes_markedThrice :
    Parser.standard.optimize .size false markedThrice = .ok markedOnce ∧
    ∀ host, (({} : Optimizer).optimize .size false markedThrice).run host =
      (.ok markedOnce, host) := by
  have hpasses : passes .size false markedThrice = .ok markedOnce := by decide +kernel
  have halone := optimize_eq_passes Parser.standard_lawful .size false markedThrice
  exact ⟨halone.1.trans hpasses,
    fun host => (halone.2 host).trans (congrArg (·, host) hpasses)⟩

/-- **Optimizing for size never makes a binary longer**, with any external tool or none, whatever
the tool does to its state and whatever it gives. The passes alone make none longer in any mode. -/
theorem optimize_never_grows {p : Parser} (hp : p.Lawful) (keepDebug : Bool) (w : Bytes) :
    (∀ {σ : Type} (tool : Option (ExternalTool (StateM σ))),
      Gives (p.optimizeWith tool .size keepDebug w) fun o => o.length ≤ w.length) ∧
    (∀ optimizer : Optimizer, optimizer.parser = p →
      Gives (optimizer.optimize .size keepDebug w) fun o => o.length ≤ w.length) ∧
    ∀ mode o, p.passes mode keepDebug w = .ok o → o.length ≤ w.length := by
  refine ⟨fun tool => Parser.gives_optimizeWith hp tool keepDebug w, ?_,
    fun _ _ => Parser.length_of_passes hp⟩
  rintro optimizer rfl
  exact Parser.gives_optimizeWith hp (optimizer.tool.map Tool.run) keepDebug w

/-- Finds nothing to do, and counts its runs. -/
def counting : ExternalTool (StateM ℕ) := fun _ _ bs => do
  modify (· + 1)
  return bs

/-- The tool's answer has a marker in the place of a shorter section and is dropped, and three
markers become one. -/
theorem optimize_never_grows_eightTypesNamed :
    (Parser.standard.optimizeWith (some counting) .size false eightTypesNamed).run 0 =
      (.ok (writeModule eightTypes), 1) ∧
    (writeModule eightTypes).length ≤ eightTypesNamed.length ∧
    passes .size false markedThrice = .ok markedOnce ∧
    markedOnce.length ≤ markedThrice.length := by
  have hrun : (Parser.standard.optimizeWith (some counting) .size false eightTypesNamed).run 0 =
      (.ok (writeModule eightTypes), 1) := by
    change (_ : Except Fault Bytes × ℕ) = _
    decide +kernel
  have hpasses : passes .size false markedThrice = .ok markedOnce := by decide +kernel
  exact ⟨hrun, (optimize_never_grows Parser.standard_lawful false _).1 _ 0 _ 1 hrun, hpasses,
    (optimize_never_grows Parser.standard_lawful false _).2.2 .size _ hpasses⟩

end ContractBuild.Wasm

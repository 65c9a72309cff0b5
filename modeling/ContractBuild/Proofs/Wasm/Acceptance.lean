import Mathlib
import ContractBuild.Proofs.Wasm.Idempotence

/-!
When the passes fail: only on what is not valid to begin with, and on components. No valid module is
turned into one that is not.
-/

namespace ContractBuild.Wasm

section Acceptance

variable {p : Parser} {w : Bytes} {mode : Mode} {keepDebug : Bool} {marker : Option Mode}

lemma foldlM_component {live : ℕ → Bool} {keeps : String → Bool}
    {parts : List (Except String Payload)} (hread : ∀ part ∈ parts, ∃ a, part = .ok a)
    (hc : .ok (.version .component) ∈ parts) (d : Draft) :
    parts.foldlM (Draft.addPart live keeps) d =
      .error (.malformed "components are not supported") := by
  induction parts generalizing d with
  | nil => cases hc
  | cons part parts ih =>
    obtain ⟨⟨a, rfl⟩, hrest⟩ := List.forall_mem_cons.mp hread
    rw [List.foldlM_cons]
    cases hadd : d.add live keeps a with
    | error fault =>
      -- only a component is refused
      change (d.add live keeps a >>= _) = _
      rw [hadd]
      cases a with
      | version layer =>
        cases layer with
        | module => cases hadd
        | component => exact hadd.symm.trans rfl
      | custom name data => cases hadd
      | code count => cases hadd
      | body b => cases hadd
      | other id content told => cases hadd
    | ok d' =>
      change (d.add live keeps a >>= _) = _
      rw [hadd]
      refine ih hrest ((List.mem_cons.mp hc).resolve_left ?_) d'
      intro h
      obtain rfl := Except.ok.inj h
      cases hadd

namespace Parser

lemma runPasses_component (hp : p.Lawful) (hv : p.validate w = .ok ())
    (hc : .ok (.version .component) ∈ p.payloads w) :
    p.runPasses mode keepDebug marker w = .error (.malformed "components are not supported") := by
  obtain ⟨live, hlive⟩ := exists_live (hp.readable hv) mode
  rw [runPasses, hlive]
  change rewrite live _ marker _ = _
  rw [rewrite, foldlM_component (hp.read_part w hv) hc]
  rfl

/-- **What the passes refuse**: binaries that are not valid, and components that are to be
optimized. What they give themselves is never refused. -/
theorem passes_eq_error_iff (hp : p.Lawful) {fault : Fault} :
    p.passes mode keepDebug w = .error fault ↔
      (∃ reason, p.validate w = .error reason ∧ fault = .malformed reason) ∨
      p.validate w = .ok () ∧ mode ≠ .debug ∧ .ok (.version .component) ∈ p.payloads w ∧
        fault = .malformed "components are not supported" := by
  cases hv : p.validate w with
  | error reason =>
    have hpasses : p.passes mode keepDebug w = .error (.malformed reason) := by
      rw [passes, checkInput, hv]
      rfl
    simp [hpasses, eq_comm]
  | ok u =>
    by_cases hm : mode = .debug
    · subst hm
      have hpasses : p.passes .debug keepDebug w = .ok w := by
        rw [passes, checkInput, hv]
        rfl
      simp [hpasses]
    by_cases hc : .ok (.version .component) ∈ p.payloads w
    · have hpasses : p.passes mode keepDebug w =
          .error (.malformed "components are not supported") := by
        rw [passes, checkInput, hv]
        change (if mode = .debug then _ else _) = _
        rw [if_neg hm, runPasses_component hp hv hc]
        rfl
      simp [hpasses, hm, hc, eq_comm]
    · obtain ⟨v, sections, parts, hs⟩ := hp.exists_splits ⟨hv, hc⟩
      obtain ⟨live, hlive⟩ := exists_live (hp.readable hv) mode
      simp [passes_of_live hp keepDebug hm hv hs hlive, hc]

end Parser

/-- **The passes never break a valid module**: in every mode they end, and with a module that is
valid again. -/
theorem passes_keep_valid (hp : p.Lawful) (mode : Mode) (keepDebug : Bool) (hw : p.IsModule w) :
    ∃ out, p.passes mode keepDebug w = .ok out ∧ p.IsModule out := by
  cases hpasses : p.passes mode keepDebug w with
  | error fault =>
    obtain ⟨reason, h, -⟩ | ⟨-, -, h, -⟩ := (Parser.passes_eq_error_iff hp).mp hpasses
    · rw [hw.valid] at h
      cases h
    · exact absurd h hw.not_component
  | ok out =>
    obtain ⟨hv, ⟨-, rfl⟩ | ⟨-, v, sections, parts, live, hs, hlive, rfl⟩⟩ :=
      Parser.passes_eq_ok hp hpasses
    · exact ⟨out, rfl, hw⟩
    · have hout := hp.validate_reduceSections live (keepsCustom mode keepDebug)
        (p.keptMarker mode w) hv hs
      exact ⟨_, rfl, hout, hp.header _⟩

end Acceptance

/-- Both functions of the module stay well typed when the second one becomes a trap, and for speed
nothing is left to change. -/
theorem passes_keep_exportedAndUnused_valid : Parser.standard.IsModule exportedAndUnused ∧
    (∃ out, passes .size true exportedAndUnused = .ok out ∧ Parser.standard.IsModule out) ∧
    ∃ out, passes .speed false exportedAndUnused = .ok out ∧ Parser.standard.IsModule out := by
  have hw := isModule_exportedAndUnused
  exact ⟨hw, passes_keep_valid Parser.standard_lawful .size true hw,
    passes_keep_valid Parser.standard_lawful .speed false hw⟩

end ContractBuild.Wasm

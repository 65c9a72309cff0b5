import Mathlib
import ContractBuild.Proofs.Wasm.Reduce
import ContractBuild.Proofs.Wasm.Valid

/-!
The standard parser is lawful.
-/

namespace ContractBuild.Wasm

namespace Standard

lemma orReason_eq_ok {α : Type} {a : Option α} {x : α} : orReason a = .ok x ↔ a = some x := by
  cases a <;> simp [orReason]

lemma validate_eq_ok {w : Bytes} : Parser.standard.validate w = .ok () ↔ isValid w = true := by
  change orReason (if isValid w then some () else none) = .ok () ↔ _
  rw [orReason_eq_ok]
  simp

section Parts

variable {w : Bytes} {v : ℕ} {sections : List Section}

lemma payloads_of_module (h : readBinary w = some ⟨.module, v, sections⟩) :
    payloads w = .ok (.version .module) :: sections.flatMap parts := by
  rw [payloads, h]

/-- What can be among the parts of a section. -/
lemma part_cases {s : Section} {a : Payload} (h : .ok a ∈ parts s) :
    (∃ name data, s = .custom name data ∧ a = .custom name data) ∨
    (∃ bodies, s = .code bodies ∧ (a = .code bodies.length ∨ ∃ b ∈ bodies, a = .body (body b))) ∨
    (∃ id content, s = .other id content ∧ isFramed id content = true ∧
      a = .other id content (orReason (told? id content))) := by
  cases s with
  | custom name data => exact .inl ⟨name, data, rfl, by simpa [parts] using h⟩
  | code bodies =>
    refine .inr (.inl ⟨bodies, rfl, ?_⟩)
    rw [parts, List.mem_cons] at h
    obtain h | h := h
    · exact .inl (Except.ok.inj h)
    · obtain ⟨b, hb, hab⟩ := List.mem_map.mp h
      exact .inr ⟨b, hb, (Except.ok.inj hab).symm⟩
  | other id content =>
    refine .inr (.inr ⟨id, content, rfl, ?_⟩)
    obtain h := List.mem_singleton.mp h
    split_ifs at h with hframed
    · exact ⟨hframed, Except.ok.inj h⟩
    · cases h

/-- The parts of a module that can all be read are those of its sections. -/
lemma exists_frames (h : ∀ part ∈ sections.flatMap parts, ∃ a, part = .ok a) :
    ∃ ps, sections.flatMap parts = ps.map .ok ∧ Frames sections ps := by
  induction sections with
  | nil => exact ⟨[], rfl, .nil⟩
  | cons s sections ih =>
    rw [List.flatMap_cons, List.forall_mem_append] at h
    obtain ⟨ps, hps, hframes⟩ := ih h.2
    rw [List.flatMap_cons, hps]
    cases s with
    | custom name data => exact ⟨_, rfl, .custom name data hframes⟩
    | code bodies =>
      refine ⟨.code bodies.length :: ((bodies.map body).map .body ++ ps), ?_, ?_⟩
      · simp [parts, Function.comp_def]
      · have hcode := Frames.code (bodies.map body) hframes
        rwa [List.length_map, List.map_map, show (fun b : Body => b.bytes) ∘ body = id from rfl,
          List.map_id] at hcode
    | other id content =>
      obtain ⟨a, ha⟩ := h.1 _ (List.mem_singleton_self _)
      rw [parts, ha]
      split_ifs at ha
      · obtain rfl := Except.ok.inj ha
        exact ⟨_, rfl, .other id content _ hframes⟩
      · cases ha

/-- A part is the header of the binary or comes from one of its sections. -/
lemma mem_payloads {a : Payload} (h : .ok a ∈ payloads w) : (∃ layer, a = .version layer) ∨
    ∃ v sections, readBinary w = some ⟨.module, v, sections⟩ ∧
      ∃ s ∈ sections, .ok a ∈ parts s := by
  unfold payloads at h
  split at h
  · cases List.mem_singleton.mp h
  · exact .inl ⟨_, Except.ok.inj (List.mem_singleton.mp h)⟩
  · next v sections hw =>
    obtain h | h := List.mem_cons.mp h
    · exact .inl ⟨_, Except.ok.inj h⟩
    · exact .inr ⟨v, sections, hw, List.mem_flatMap.mp h⟩

lemma body_of_mem {b : Body} (h : .ok (.body b) ∈ payloads w) : b = body b.bytes ∧
    ∃ v sections bodies, readBinary w = some ⟨.module, v, sections⟩ ∧ .code bodies ∈ sections ∧
      b.bytes ∈ bodies := by
  obtain ⟨layer, h⟩ | ⟨v, sections, hw, s, hs, h⟩ := mem_payloads h
  · cases h
  obtain ⟨_, _, -, h⟩ | ⟨bodies, rfl, h | ⟨bytes, hbytes, h⟩⟩ | ⟨_, _, -, -, h⟩ := part_cases h
  · cases h
  · cases h
  · cases h
    exact ⟨rfl, v, sections, bodies, hw, hs, hbytes⟩
  · cases h

lemma told_of_mem {id : UInt8} {content : Bytes} {told : Except String Told}
    (h : .ok (.other id content told) ∈ payloads w) : told = orReason (told? id content) ∧
    ∃ v sections, readBinary w = some ⟨.module, v, sections⟩ ∧ .other id content ∈ sections := by
  obtain ⟨layer, h⟩ | ⟨v, sections, hw, s, hs, h⟩ := mem_payloads h
  · cases h
  obtain ⟨_, _, -, h⟩ | ⟨_, -, h | ⟨_, -, h⟩⟩ | ⟨id', content', rfl, -, h⟩ := part_cases h
  · cases h
  · cases h
  · cases h
  · cases h
    exact ⟨rfl, v, sections, hw, hs⟩

end Parts

section Valid

variable {w : Bytes} {v : ℕ} {sections : List Section}

lemma isTold_of_mem (hv : isValid w = true) (hw : readBinary w = some ⟨.module, v, sections⟩)
    {id : UInt8} {content : Bytes} (h : .other id content ∈ sections) :
    Valid.IsTold id content := by
  obtain ⟨st, hst, -⟩ := Valid.fold_of_checkModule (checkModule_of_isValid hv hw)
  obtain ⟨_, _, hstep⟩ := Valid.step_of_mem hst _ h
  exact Valid.isTold_of_step hstep

/-- All parts of a valid binary can be read. -/
lemma part_of_isValid (hv : isValid w = true) : ∀ part ∈ payloads w, ∃ a, part = .ok a := by
  rcases hw : readBinary w with _ | ⟨layer, v, sections⟩
  · rw [isValid, hw] at hv
    cases hv
  cases layer with
  | component => simp [payloads, hw]
  | module =>
    rw [payloads_of_module hw, List.forall_mem_cons]
    refine ⟨⟨_, rfl⟩, fun part hpart => ?_⟩
    obtain ⟨s, hs, hpart⟩ := List.mem_flatMap.mp hpart
    cases s with
    | custom name data => exact ⟨_, List.mem_singleton.mp hpart⟩
    | code bodies =>
      obtain rfl | hpart := List.mem_cons.mp hpart
      · exact ⟨_, rfl⟩
      · obtain ⟨b, -, rfl⟩ := List.mem_map.mp hpart
        exact ⟨_, rfl⟩
    | other id content =>
      rw [parts, if_pos (isTold_of_mem hv hw hs).framed] at hpart
      exact ⟨_, List.mem_singleton.mp hpart⟩

lemma bodyOps_of_isValid (hv : isValid w = true)
    (hw : readBinary w = some ⟨.module, v, sections⟩) {bodies : List Bytes} {b : Bytes}
    (h : .code bodies ∈ sections) (hb : b ∈ bodies) : ∃ ops, bodyOps b = some ops := by
  obtain ⟨st, hst, -⟩ := Valid.fold_of_checkModule (checkModule_of_isValid hv hw)
  obtain ⟨_, _, hstep⟩ := Valid.step_of_mem hst _ h
  exact Valid.bodyOps_of_step hstep b hb

end Valid

/-- A module does not tell that it is a component. -/
lemma component_not_mem {w : Bytes} {v : ℕ} {sections : List Section}
    (hw : readBinary w = some ⟨.module, v, sections⟩) :
    .ok (.version .component) ∉ payloads w := by
  rw [payloads_of_module hw]
  intro h
  obtain h | h := List.mem_cons.mp h
  · cases h
  · obtain ⟨s, -, h⟩ := List.mem_flatMap.mp h
    obtain ⟨_, _, -, h⟩ | ⟨_, -, h | ⟨_, -, h⟩⟩ | ⟨_, _, -, -, h⟩ := part_cases h <;> cases h

lemma custom_of_mem {w : Bytes} {v : ℕ} {sections : List Section} {name : String} {data : Bytes}
    (hw : readBinary w = some ⟨.module, v, sections⟩)
    (h : .ok (.custom name data) ∈ Parser.standard.payloads w) : .custom name data ∈ sections := by
  change _ ∈ payloads w at h
  rw [payloads_of_module hw] at h
  obtain h | h := List.mem_cons.mp h
  · cases h
  obtain ⟨s, hs, h⟩ := List.mem_flatMap.mp h
  obtain ⟨_, _, rfl, ha⟩ | ⟨_, -, ha | ⟨_, -, ha⟩⟩ | ⟨_, _, -, -, ha⟩ := part_cases h <;> cases ha
  exact hs

lemma isModule {w : Bytes} {v : ℕ} {sections : List Section} (hv : isValid w = true)
    (hw : readBinary w = some ⟨.module, v, sections⟩) : Parser.standard.IsModule w :=
  ⟨validate_eq_ok.mpr hv, component_not_mem hw⟩

/-- A binary whose parts can all be read, and are not those of a component, is a module. -/
lemma exists_splits {w : Bytes}
    (h : ∀ part ∈ payloads w, ∃ a, part = .ok a ∧ a ≠ .version .component) :
    ∃ v sections ps, Parser.standard.Splits w v sections ps := by
  rcases hw : readBinary w with _ | ⟨layer, v, sections⟩
  · obtain ⟨a, ha, -⟩ := h (orReason none) (by simp [payloads, hw])
    cases ha
  cases layer with
  | component =>
    obtain ⟨a, ha, hne⟩ := h (.ok (.version .component)) (by simp [payloads, hw])
    exact absurd (Except.ok.inj ha).symm hne
  | module =>
    have hpayloads := payloads_of_module hw
    rw [hpayloads, List.forall_mem_cons] at h
    obtain ⟨ps, hps, hframes⟩ := exists_frames fun part hpart => by
      obtain ⟨a, ha, -⟩ := h.2 part hpart
      exact ⟨a, ha⟩
    exact ⟨v, sections, ps, hw, by rw [← hps, ← hpayloads]; rfl, hframes⟩

end Standard

namespace Parser

open ContractBuild.Wasm.Standard

/-- **The standard parser is lawful.** -/
theorem standard_lawful : standard.Lawful where
  splits _ := exists_splits
  header r := by
    have hread : readBinary (Section.magic ++ [0x01, 0x00, 0x00, 0x00] ++ r) =
        (Section.readAll r).map (Binary.mk .module 1) := rfl
    cases hr : Section.readAll r with
    | none =>
      change _ ∉ Standard.payloads _
      rw [Standard.payloads, hread, hr]
      simp [orReason]
    | some sections => exact component_not_mem (by rw [hread, hr]; rfl)
  read_part w hv := part_of_isValid (validate_eq_ok.mp hv)
  read_told w hv id content told h := by
    obtain ⟨rfl, v, sections, hw, hmem⟩ := told_of_mem h
    obtain ⟨t, ht⟩ := (isTold_of_mem (validate_eq_ok.mp hv) hw hmem).told
    exact ⟨t, orReason_eq_ok.mpr ht⟩
  read_body w hv b h := by
    obtain ⟨hb, v, sections, bodies, hw, hcode, hmem⟩ := body_of_mem h
    obtain ⟨ops, hops⟩ := bodyOps_of_isValid (validate_eq_ok.mp hv) hw hcode hmem
    rw [hb]
    exact ⟨operators ops, orReason_eq_ok.mpr (by rw [hops]; rfl)⟩
  told_eq hs hs' id content t t' h h' := by
    obtain ⟨ht, -⟩ := told_of_mem (hs.mem_payloads h)
    obtain ⟨ht', -⟩ := told_of_mem (hs'.mem_payloads h')
    exact Except.ok.inj (ht.trans ht'.symm)
  operators_eq hs hs' bytes ops ops' h h' := by
    obtain ⟨hb, -⟩ := body_of_mem (hs.mem_payloads h)
    obtain ⟨hb', -⟩ := body_of_mem (hs'.mem_payloads h')
    have hsame := hb.trans hb'.symm
    simpa using hsame
  trap_operators hs ops h op hop := by
    obtain ⟨hb, -⟩ := body_of_mem (hs.mem_payloads h)
    have hops : Except.ok ops = orReason ((bodyOps trapBody).map operators) :=
      congrArg Body.operators hb
    obtain rfl : ops = [.other, .other] := Except.ok.inj hops
    simpa using hop
  single_code hv hw := by
    obtain ⟨st, hst, -⟩ :=
      Valid.fold_of_checkModule (checkModule_of_isValid (validate_eq_ok.mp hv) hw)
    exact Valid.singleCode_of_fold hst
  written_again hv hw := by
    rw [validate_eq_ok, isValid_writeModule (fits_of_readBinary hw)]
    exact checkModule_of_isValid (validate_eq_ok.mp hv) hw
  without_custom sections hfits := by
    have hfits' : ∀ s ∈ sections.filter (!·.isCustom), s.Fits :=
      fun s hs => hfits s (List.mem_filter.mp hs).1
    rw [validate_eq_ok, validate_eq_ok, isValid_writeModule hfits, isValid_writeModule hfits',
      Valid.checkModule_filter]
  with_trap before after bodies bodies' b hfits hlen hv := by
    have hfits' := fits_replaceBody hfits (length_writeSized_mono hlen)
    rw [validate_eq_ok, isValid_writeModule hfits] at hv
    rw [validate_eq_ok, isValid_writeModule hfits']
    exact Valid.checkModule_trapBody hv

end Parser

end ContractBuild.Wasm

import Mathlib
import ContractBuild.Proofs.Wasm.Parser
import ContractBuild.Wasm.Standard

/-!
What the standard validator relies on and gives: every part of a valid module can be read, there is
one code section at most, and a module stays valid when bodies shrink to a trap and custom sections
come and go.
-/

namespace ContractBuild.Wasm

/-! ### Bodies -/

namespace Typing

/-- Past a trap any operands can be popped. -/
lemma popAll_halted (results ts : List ValType) :
    St.popAll ⟨[], [⟨[], results, false, false, 0, true⟩]⟩ ts =
      some ⟨[], [⟨[], results, false, false, 0, true⟩]⟩ := by
  unfold St.popAll
  induction ts.reverse with
  | nil => rfl
  | cons t ts ih => rw [List.foldlM_cons]; exact ih

/-- The trap is a body of every type. -/
lemma checkBody_trapBody (env : Env) (t : FuncType) : checkBody env t trapBody = true := by
  have hsplit : splitBody t.params trapBody = some (t.params, [0x00, 0x0b]) := rfl
  have hops : Op.readAll [0x00, 0x0b] = some [.unreachable, .close] := rfl
  have hfold : [Op.unreachable, Op.close].foldlM (stepWithin env t.params)
      ⟨[], [⟨[], t.results, false, false, 0, false⟩]⟩ = some (St.pushAll ⟨[], []⟩ t.results) := by
    rw [List.foldlM_cons]
    change (closeBlock ⟨[], [⟨[], t.results, false, false, 0, true⟩]⟩ >>= _) = _
    simp only [closeBlock, St.leave, popAll_halted]
    rfl
  rw [checkBody, hsplit]
  simp only [hops]
  rw [checkOps, hfold]
  rfl

lemma times_of_readLocals {n : ℕ} {known locals : List ValType} {bs r : Bytes}
    (h : readLocals n known bs = some (locals, r)) :
    ∃ ls, Reader.times (do let n ← Reader.u32; return (n, ← Reader.valType)) n bs =
      some (ls, r) := by
  induction n generalizing known bs with
  | zero => cases h; exact ⟨[], rfl⟩
  | succ n ih =>
    rw [readLocals, Reader.bind_eq_some] at h
    obtain ⟨count, t, hcount, h⟩ := h
    rw [Reader.bind_eq_some] at h
    obtain ⟨type, t', htype, h⟩ := h
    rw [Reader.bind_eq_some] at h
    obtain ⟨_, t'', hcheck, h⟩ := h
    obtain ⟨-, rfl⟩ := Reader.check_eq_some.mp hcheck
    obtain ⟨ls, hls⟩ := ih h
    refine ⟨(count, type) :: ls, ?_⟩
    rw [Reader.times, Reader.bind_eq_some]
    refine ⟨(count, type), t'', ?_, ?_⟩
    · rw [Reader.bind_of_eq hcount, Reader.bind_of_eq htype]; rfl
    · rw [Reader.bind_of_eq hls]; rfl

/-- The operators of a checked body can be read. -/
lemma bodyOps_of_checkBody {env : Env} {t : FuncType} {body : Bytes}
    (h : checkBody env t body = true) : ∃ ops, Standard.bodyOps body = some ops := by
  unfold checkBody at h
  split at h
  · cases h
  · next locals code hsplit =>
    split at h
    · cases h
    · next ops hops =>
      rw [splitBody, Reader.bind_eq_some] at hsplit
      obtain ⟨n, r, hn, hlocals⟩ := hsplit
      obtain ⟨ls, hls⟩ := times_of_readLocals hlocals
      refine ⟨ops, ?_⟩
      simp only [Standard.bodyOps, Reader.vector]
      rw [Reader.bind_of_eq hn, hls]
      exact hops

end Typing

namespace Valid

open ContractBuild.Wasm.Typing

lemma addCode_eq_some {env env' : Env} {bodies : List Bytes} :
    addCode env bodies = some env' ↔
      List.Forall₂ (fun t b => checkBody env t b = true) (env.pending.getD []) bodies ∧
        env' = { env with pending := none } := by
  rw [addCode, List.forall₂_iff_zip]
  simp only [Bool.and_eq_true, decide_eq_true_eq, List.all_eq_true]
  constructor
  · intro h
    split_ifs at h with hc
    cases h
    exact ⟨⟨hc.1, fun hm => hc.2 _ hm⟩, rfl⟩
  · rintro ⟨⟨hlen, hall⟩, rfl⟩
    rw [if_pos ⟨hlen, fun p hp => hall hp⟩]

/-- Any body may become a trap. -/
lemma addCode_trapBody {env env' : Env} {bodies bodies' : List Bytes} {b : Bytes}
    (h : addCode env (bodies ++ b :: bodies') = some env') :
    addCode env (bodies ++ trapBody :: bodies') = some env' := by
  obtain ⟨hall, rfl⟩ := addCode_eq_some.mp h
  refine addCode_eq_some.mpr ⟨?_, rfl⟩
  obtain ⟨hlen, hget⟩ := List.forall₂_iff_get.mp hall
  refine List.forall₂_iff_get.mpr ⟨by simpa using hlen, fun i hi hi' => ?_⟩
  have hi'' : i < (bodies ++ b :: bodies').length := by simpa using hi'
  have hbody := hget i hi hi''
  simp only [List.get_eq_getElem] at hbody ⊢
  by_cases hplace : i = bodies.length
  · subst hplace
    rw [List.getElem_append_right (Nat.le_refl _)]
    simp only [Nat.sub_self, List.getElem_cons_zero]
    exact checkBody_trapBody env _
  · have hsame : (bodies ++ trapBody :: bodies')[i] = (bodies ++ b :: bodies')[i] := by
      rw [List.getElem_append, List.getElem_append]
      split_ifs with hlt
      · rfl
      · rw [List.getElem_cons, List.getElem_cons, dif_neg (by omega), dif_neg (by omega)]
    rwa [hsame]

/-! ### Sections -/

lemma id_eq {id : UInt8} {n : ℕ} (h : id.toNat = n) : id = UInt8.ofNat n := by
  rw [← h, UInt8.ofNat_toNat]

lemma items_of_addAll {α : Type} {item : Reader α} {add : Env → α → Option Env} {env env' : Env}
    {payload : Bytes} (h : addAll item add env payload = some env') :
    ∃ xs, Standard.items item payload = some xs := by
  unfold addAll at h
  split at h
  · next xs hxs => exact ⟨xs, hxs⟩
  · cases h

lemma items_of_addFunctions {env env' : Env} {payload : Bytes}
    (h : addFunctions env payload = some env') :
    ∃ xs, Standard.items Reader.u32 payload = some xs := by
  obtain ⟨xs, hxs, -⟩ := Option.bind_eq_some_iff.mp h
  exact ⟨xs, hxs⟩

lemma u32_of_items {α : Type} {item : Reader α} {payload : Bytes} {xs : List α}
    (h : Standard.items item payload = some xs) : (Reader.u32 payload).isSome = true := by
  rw [Standard.items, Reader.whole_eq_some, Reader.vector, Reader.bind_eq_some] at h
  obtain ⟨n, r, hn, -⟩ := h
  rw [hn]; rfl

/-- What a section that passed tells can be read. -/
structure IsTold (id : UInt8) (content : Bytes) : Prop where
  told : ∃ t, Standard.told? id content = some t
  framed : Standard.isFramed id content = true

lemma isTold_of_addOther {env env' : Env} {id : UInt8} {payload : Bytes}
    (h : addOther env id payload = some env') : IsTold id payload := by
  -- each kind of section is read here by the reader that told it to be valid
  have hitems : ∀ {α β : Type} {item : Reader α} (f : List α → β),
      (∃ xs, Standard.items item payload = some xs) →
      ∃ b, (Standard.items item payload).map f = some b :=
    fun f ⟨xs, hxs⟩ => ⟨f xs, by rw [hxs]; rfl⟩
  have hframed : ∀ {α : Type} {item : Reader α} (n : ℕ), n ≤ 13 → n ≠ 8 → n ≠ 12 →
      (∃ xs, Standard.items item payload = some xs) →
      Standard.isFramed (UInt8.ofNat n) payload = true := by
    intro α item n h1 h2 h3 ⟨xs, hxs⟩
    have := u32_of_items hxs
    interval_cases n <;> first | exact this | omega
  have hwhole : (∃ n, Reader.whole Reader.u32 payload = some n) →
      (Reader.whole Reader.u32 payload).isSome = true := fun ⟨n, hn⟩ => by rw [hn]; rfl
  unfold addOther at h
  split at h
  · next hid =>
    obtain rfl := id_eq hid
    exact ⟨⟨_, rfl⟩, hframed 1 (by omega) (by omega) (by omega) (items_of_addAll h)⟩
  · next hid =>
    obtain rfl := id_eq hid
    have hi := items_of_addAll h
    exact ⟨hitems _ hi, hframed 2 (by omega) (by omega) (by omega) hi⟩
  · next hid =>
    obtain rfl := id_eq hid
    exact ⟨⟨_, rfl⟩, hframed 3 (by omega) (by omega) (by omega) (items_of_addFunctions h)⟩
  · next hid =>
    obtain rfl := id_eq hid
    have hi := items_of_addAll h
    exact ⟨hitems _ hi, hframed 4 (by omega) (by omega) (by omega) hi⟩
  · next hid =>
    obtain rfl := id_eq hid
    exact ⟨⟨_, rfl⟩, hframed 5 (by omega) (by omega) (by omega) (items_of_addAll h)⟩
  · next hid =>
    obtain rfl := id_eq hid
    have hi := items_of_addAll h
    exact ⟨hitems _ hi, hframed 6 (by omega) (by omega) (by omega) hi⟩
  · next hid =>
    obtain rfl := id_eq hid
    have hi := items_of_addAll h
    exact ⟨hitems _ hi, hframed 7 (by omega) (by omega) (by omega) hi⟩
  · next hid =>
    obtain rfl := id_eq hid
    split at h
    · next f hf =>
      refine ⟨⟨.start f, ?_⟩, hwhole ⟨f, hf⟩⟩
      change (Reader.whole Reader.u32 payload).map _ = _
      rw [hf]; rfl
    · cases h
  · next hid =>
    obtain rfl := id_eq hid
    have hi := items_of_addAll h
    exact ⟨hitems _ hi, hframed 9 (by omega) (by omega) (by omega) hi⟩
  · next hid =>
    obtain rfl := id_eq hid
    exact ⟨⟨_, rfl⟩, hframed 11 (by omega) (by omega) (by omega) (items_of_addAll h)⟩
  · next hid =>
    obtain rfl := id_eq hid
    obtain ⟨n, hn, -⟩ := Option.map_eq_some_iff.mp h
    exact ⟨⟨_, rfl⟩, hwhole ⟨n, hn⟩⟩
  · next hid =>
    obtain rfl := id_eq hid
    exact ⟨⟨_, rfl⟩, hframed 13 (by omega) (by omega) (by omega) (items_of_addAll h)⟩
  · cases h

/-- What a step can do. -/
lemma step_cases {st st' : St} {s : Section} (h : step st s = some st') :
    (∃ name data, s = .custom name data ∧ st' = st) ∨
    (∃ bodies env, s = .code bodies ∧ st.place < placeOf Section.codeId ∧
      addCode st.env bodies = some env ∧ st' = ⟨env, placeOf Section.codeId⟩) ∨
    (∃ id payload env, s = .other id payload ∧ st.place < placeOf id ∧
      addOther st.env id payload = some env ∧ st' = ⟨env, placeOf id⟩) := by
  cases s with
  | custom name data => exact .inl ⟨name, data, rfl, by cases h; rfl⟩
  | code bodies =>
    simp only [step] at h
    split_ifs at h with hp
    obtain ⟨env, henv, rfl⟩ := Option.map_eq_some_iff.mp h
    exact .inr (.inl ⟨bodies, env, rfl, hp, henv, rfl⟩)
  | other id payload =>
    simp only [step] at h
    split_ifs at h with hp
    obtain ⟨env, henv, rfl⟩ := Option.map_eq_some_iff.mp h
    exact .inr (.inr ⟨id, payload, env, rfl, hp, henv, rfl⟩)

lemma isTold_of_step {st st' : St} {id : UInt8} {payload : Bytes}
    (h : step st (.other id payload) = some st') : IsTold id payload := by
  obtain ⟨_, _, h, -⟩ | ⟨_, _, h, -⟩ | ⟨_, _, env, h, -, hadd, -⟩ := step_cases h <;> cases h
  exact isTold_of_addOther hadd

lemma bodyOps_of_step {st st' : St} {bodies : List Bytes}
    (h : step st (.code bodies) = some st') :
    ∀ b ∈ bodies, ∃ ops, Standard.bodyOps b = some ops := by
  obtain ⟨_, _, h, -⟩ | ⟨bodies, env, h, -, hadd, -⟩ | ⟨_, _, _, h, -⟩ := step_cases h <;> cases h
  intro b hb
  have hall := (addCode_eq_some.mp hadd).1
  obtain ⟨i, hi, rfl⟩ := List.getElem_of_mem hb
  obtain ⟨hlen, hget⟩ := List.forall₂_iff_get.mp hall
  exact bodyOps_of_checkBody (hget i (by omega) hi)

lemma step_of_mem {st st' : St} {sections : List Section}
    (h : sections.foldlM step st = some st') :
    ∀ s ∈ sections, ∃ a b, step a s = some b := by
  induction sections generalizing st with
  | nil => simp
  | cons s sections ih =>
    rw [List.foldlM_cons] at h
    obtain ⟨st₁, hs, h⟩ := Option.bind_eq_some_iff.mp h
    intro t ht
    rcases List.mem_cons.mp ht with rfl | ht
    · exact ⟨st, st₁, hs⟩
    · exact ih h t ht

lemma fold_of_checkModule {sections : List Section} (h : checkModule sections = true) :
    ∃ st, sections.foldlM step {} = some st ∧ isComplete st.env = true := by
  unfold checkModule at h
  split at h
  · next st hst => exact ⟨st, hst, h⟩
  · cases h

/-! ### Modules -/

lemma foldlM_filter (st : St) (sections : List Section) :
    (sections.filter (!·.isCustom)).foldlM step st = sections.foldlM step st := by
  induction sections generalizing st with
  | nil => rfl
  | cons s sections ih =>
    cases s with
    | custom name data => exact ih st
    | code bodies =>
      change (step st (.code bodies) >>= _) = (step st (.code bodies) >>= _)
      exact bind_congr fun st' => ih st'
    | other id payload =>
      change (step st (.other id payload) >>= _) = (step st (.other id payload) >>= _)
      exact bind_congr fun st' => ih st'

/-- Custom sections do not matter. -/
lemma checkModule_filter (sections : List Section) :
    checkModule (sections.filter (!·.isCustom)) = checkModule sections := by
  rw [checkModule, foldlM_filter, checkModule]

lemma step_trapBody {st st' : St} {bodies bodies' : List Bytes} {b : Bytes}
    (h : step st (.code (bodies ++ b :: bodies')) = some st') :
    step st (.code (bodies ++ trapBody :: bodies')) = some st' := by
  obtain ⟨_, _, hs, -⟩ | ⟨_, env, hs, hp, hadd, rfl⟩ | ⟨_, _, _, hs, -⟩ := step_cases h <;> cases hs
  simp only [step]
  rw [if_pos hp, addCode_trapBody hadd]
  rfl

/-- **A module stays valid** when a body becomes a trap. -/
lemma checkModule_trapBody {before after : List Section} {bodies bodies' : List Bytes} {b : Bytes}
    (h : checkModule (before ++ .code (bodies ++ b :: bodies') :: after) = true) :
    checkModule (before ++ .code (bodies ++ trapBody :: bodies') :: after) = true := by
  obtain ⟨st, hst, hc⟩ := fold_of_checkModule h
  rw [List.foldlM_append] at hst
  obtain ⟨st₁, h₁, hst⟩ := Option.bind_eq_some_iff.mp hst
  rw [List.foldlM_cons] at hst
  obtain ⟨st₂, h₂, h₃⟩ := Option.bind_eq_some_iff.mp hst
  have hfold : (before ++ .code (bodies ++ trapBody :: bodies') :: after).foldlM step {} =
      some st := by
    rw [List.foldlM_append, h₁]
    change (step st₁ (.code (bodies ++ trapBody :: bodies')) >>= _) = _
    rw [step_trapBody h₂]
    exact h₃
  rw [checkModule, hfold]
  exact hc

/-- Nothing comes after the code but data. -/
lemma no_code_after {st st' : St} {sections : List Section}
    (h : sections.foldlM step st = some st') (hp : placeOf Section.codeId ≤ st.place) :
    sections.filter (·.isCode) = [] := by
  induction sections generalizing st with
  | nil => rfl
  | cons s sections ih =>
    rw [List.foldlM_cons] at h
    obtain ⟨st₁, hs, h⟩ := Option.bind_eq_some_iff.mp h
    obtain ⟨name, data, rfl, rfl⟩ | ⟨_, env, rfl, hlt, -⟩ | ⟨id, payload, env, rfl, hlt, -, rfl⟩ :=
      step_cases hs
    · exact ih h hp
    · omega
    · exact ih h (Nat.le_of_lt (Nat.lt_of_le_of_lt hp hlt))

lemma singleCode_of_fold {st st' : St} {sections : List Section}
    (h : sections.foldlM step st = some st') : SingleCode sections := by
  induction sections generalizing st with
  | nil => exact Nat.zero_le 1
  | cons s sections ih =>
    rw [List.foldlM_cons] at h
    obtain ⟨st₁, hs, hrest⟩ := Option.bind_eq_some_iff.mp h
    obtain ⟨name, data, rfl, -⟩ | ⟨bodies, env, rfl, -, -, rfl⟩ | ⟨id, payload, env, rfl, -⟩ :=
      step_cases hs
    · exact ih hrest
    · rw [SingleCode, List.filter_cons_of_pos (show (Section.code bodies).isCode = true from rfl),
        no_code_after hrest (Nat.le_refl _)]
      exact Nat.le_refl 1
    · exact ih hrest

end Valid

/-! ### Binaries -/

lemma checkModule_of_isValid {w : Bytes} {v : ℕ} {sections : List Section}
    (hv : isValid w = true) (hw : readBinary w = some ⟨.module, v, sections⟩) :
    Valid.checkModule sections = true := by
  rw [isValid, hw] at hv
  exact (Bool.and_eq_true _ _ ▸ hv).2

lemma isValid_writeModule {sections : List Section} (hs : ∀ s ∈ sections, s.Fits) :
    isValid (writeModule sections) = Valid.checkModule sections := by
  rw [isValid, readBinary_writeModule hs]
  exact Bool.true_and _

end ContractBuild.Wasm

import Mathlib
import ContractBuild.Wasm.Passes
import ContractBuild.Proofs.Wasm.Liveness
import ContractBuild.Proofs.Wasm.Section

/-!
What is relied on of a parser of binaries.

A module comes in the parts that its sections are made of, and what a section or a body tells
depends on its content only. Everything in a valid binary can be read. A valid module stays valid
when its lengths are written in another way, when custom sections come or go, and when a body
becomes a trap.
-/

namespace ContractBuild.Wasm

/-! ### Sections -/

def Section.isCustom : Section → Bool
  | .custom _ _ => true
  | _ => false

def Section.isCode : Section → Bool
  | .code _ => true
  | _ => false

/-- The bodies of code, one section after another. -/
def bodiesOf (sections : List Section) : List Bytes :=
  sections.flatMap fun
    | .code bodies => bodies
    | _ => []

/-- The sections that hold neither code nor custom data. -/
def othersOf (sections : List Section) : List (UInt8 × Bytes) :=
  sections.filterMap fun
    | .other id content => some (id, content)
    | _ => none

/-- The mode that a marker section names. -/
def markedSection : Section → Option Mode
  | .custom name data => markedMode name data
  | _ => none

/-- The mode of the first readable marker. -/
def marker? (sections : List Section) : Option Mode := sections.findSome? markedSection

/-- There is one section with code at most. -/
def SingleCode (sections : List Section) : Prop := (sections.filter (·.isCode)).length ≤ 1

/-! ### Parts -/

/-- The parts that sections come in. -/
inductive Frames : List Section → List Payload → Prop where
  | nil : Frames [] []
  | custom (name : String) (data : Bytes) {sections : List Section} {parts : List Payload}
      (h : Frames sections parts) :
      Frames (.custom name data :: sections) (.custom name data :: parts)
  | code (bodies : List Body) {sections : List Section} {parts : List Payload}
      (h : Frames sections parts) : Frames (.code (bodies.map (·.bytes)) :: sections)
        (.code bodies.length :: (bodies.map .body ++ parts))
  | other (id : UInt8) (content : Bytes) (told : Except String Told) {sections : List Section}
      {parts : List Payload} (h : Frames sections parts) :
      Frames (.other id content :: sections) (.other id content told :: parts)

/-- What the sections that hold neither code nor custom data tell. -/
def others (parts : List Payload) : List ((UInt8 × Bytes) × Except String Told) :=
  parts.filterMap fun
    | .other id content told => some ((id, content), told)
    | _ => none

namespace Frames

variable {sections : List Section} {parts : List Payload}

lemma bodiesIn_append (as bs : List (Except String Payload)) :
    Live.bodiesIn (as ++ bs) = Live.bodiesIn as ++ Live.bodiesIn bs :=
  List.filterMap_append

lemma bodiesIn_bodies (bodies : List Body) :
    Live.bodiesIn ((bodies.map Payload.body).map .ok) = bodies := by
  rw [Live.bodiesIn, List.map_map, List.filterMap_map]
  exact List.filterMap_some

/-- The bodies of the parts are those of the sections. -/
lemma map_bytes (h : Frames sections parts) :
    (Live.bodiesIn (parts.map .ok)).map (·.bytes) = bodiesOf sections := by
  induction h with
  | nil => rfl
  | custom name data h ih => exact ih
  | @code bodies sections parts h ih =>
    change (Live.bodiesIn ((bodies.map Payload.body ++ parts).map .ok)).map (·.bytes) = _
    rw [List.map_append, bodiesIn_append, bodiesIn_bodies, List.map_append, ih]
    rfl
  | other id content told h ih => exact ih

lemma others_bodies (bodies : List Body) : others (bodies.map .body) = [] :=
  List.filterMap_eq_nil_iff.mpr fun a ha => by
    obtain ⟨b, -, rfl⟩ := List.mem_map.mp ha
    rfl

lemma map_others (h : Frames sections parts) : (others parts).map Prod.fst = othersOf sections := by
  induction h with
  | nil => rfl
  | custom name data h ih => exact ih
  | @code bodies sections parts h ih =>
    change (others (bodies.map .body ++ parts)).map Prod.fst = othersOf sections
    rw [others, List.filterMap_append, ← others, ← others, others_bodies, List.nil_append, ih]
  | other id content told h ih => exact congrArg ((id, content) :: ·) ih

/-- The mode recorded in the parts is the one that the sections name. -/
lemma findSome?_recordedIn (h : Frames sections parts) :
    (parts.map .ok).findSome? Parser.recordedIn = marker? sections := by
  induction h with
  | nil => rfl
  | @custom name data sections parts h ih =>
    rw [marker?, List.map_cons, List.findSome?_cons, List.findSome?_cons, ih]
    rfl
  | @code bodies sections parts h ih =>
    have hbodies : ((bodies.map Payload.body).map .ok).findSome? Parser.recordedIn = none := by
      rw [List.findSome?_eq_none_iff]
      intro a ha
      obtain ⟨c, hc, rfl⟩ := List.mem_map.mp ha
      obtain ⟨b, -, rfl⟩ := List.mem_map.mp hc
      rfl
    rw [List.map_cons, List.findSome?_cons, List.map_append, List.findSome?_append, hbodies, ih]
    rfl
  | other id content told h ih => exact ih

lemma custom_mem (h : Frames sections parts) {name : String} {data : Bytes}
    (hmem : .custom name data ∈ sections) : .custom name data ∈ parts := by
  induction h with
  | nil => cases hmem
  | custom name data h ih => simpa using (List.mem_cons.mp hmem).imp (by simp) ih
  | code bodies h ih => simpa using ih (by simpa using hmem)
  | other id content told h ih => simpa using ih (by simpa using hmem)

/-- What cannot be in the parts of sections. -/
lemma version_not_mem (h : Frames sections parts) (layer : Layer) : .version layer ∉ parts := by
  induction h with
  | nil => exact List.not_mem_nil
  | custom name data h ih => simpa using ih
  | code bodies h ih => simpa using ih
  | other id content told h ih => simpa using ih

end Frames

namespace Parser

/-- A module as its sections and as its parts. -/
structure Splits (p : Parser) (w : Bytes) (v : ℕ) (sections : List Section) (parts : List Payload) :
    Prop where
  read : readBinary w = some ⟨.module, v, sections⟩
  payloads_eq : p.payloads w = .ok (.version .module) :: parts.map .ok
  frames : Frames sections parts

/-- What is relied on of a parser. -/
structure Lawful (p : Parser) : Prop where
  /-- Unless a part cannot be read or tells that this is a component, the parts are those of the
  sections of a module. -/
  splits : ∀ w, (∀ part ∈ p.payloads w, ∃ a, part = .ok a ∧ a ≠ .version .component) →
    ∃ v sections parts, p.Splits w v sections parts
  /-- The header of a module is not followed by a component. -/
  header : ∀ r, .ok (.version .component) ∉
    p.payloads (Section.magic ++ [0x01, 0x00, 0x00, 0x00] ++ r)
  read_part : ∀ w, p.validate w = .ok () → ∀ part ∈ p.payloads w, ∃ a, part = .ok a
  read_told : ∀ w, p.validate w = .ok () → ∀ id content told,
    .ok (.other id content told) ∈ p.payloads w → ∃ t, told = .ok t
  read_body : ∀ w, p.validate w = .ok () → ∀ b, .ok (.body b) ∈ p.payloads w →
    ∃ ops, b.operators = .ok ops
  /-- What a section of a module tells depends on its content only. -/
  told_eq : ∀ {w w' : Bytes} {v v' : ℕ} {sections sections' : List Section}
    {parts parts' : List Payload}, p.Splits w v sections parts → p.Splits w' v' sections' parts' →
    ∀ id content t t', .other id content (.ok t) ∈ parts → .other id content (.ok t') ∈ parts' →
      t = t'
  /-- The operators of a body depend on its bytes only. -/
  operators_eq : ∀ {w w' : Bytes} {v v' : ℕ} {sections sections' : List Section}
    {parts parts' : List Payload}, p.Splits w v sections parts → p.Splits w' v' sections' parts' →
    ∀ bytes ops ops', .body ⟨bytes, .ok ops⟩ ∈ parts → .body ⟨bytes, .ok ops'⟩ ∈ parts' → ops = ops'
  /-- The operators of a trap name no function. -/
  trap_operators : ∀ {w : Bytes} {v : ℕ} {sections : List Section} {parts : List Payload},
    p.Splits w v sections parts → ∀ ops, .body ⟨trapBody, .ok ops⟩ ∈ parts → ∀ op ∈ ops, op = .other
  single_code : ∀ {w : Bytes} {v : ℕ} {sections : List Section}, p.validate w = .ok () →
    readBinary w = some ⟨.module, v, sections⟩ → SingleCode sections
  /-- It does not matter how lengths are written. -/
  written_again : ∀ {w : Bytes} {v : ℕ} {sections : List Section}, p.validate w = .ok () →
    readBinary w = some ⟨.module, v, sections⟩ → p.validate (writeModule sections) = .ok ()
  /-- Custom sections do not matter. -/
  without_custom : ∀ sections : List Section, (∀ s ∈ sections, s.Fits) →
    (p.validate (writeModule (sections.filter (!·.isCustom))) = .ok () ↔
      p.validate (writeModule sections) = .ok ())
  /-- A trap is well typed as the body of any function. -/
  with_trap : ∀ (before after : List Section) (bodies bodies' : List Bytes) (b : Bytes),
    (∀ s ∈ before ++ .code (bodies ++ b :: bodies') :: after, s.Fits) →
    trapBody.length ≤ b.length →
    p.validate (writeModule (before ++ .code (bodies ++ b :: bodies') :: after)) = .ok () →
    p.validate (writeModule (before ++ .code (bodies ++ trapBody :: bodies') :: after)) = .ok ()

/-- A valid binary that is no component. -/
structure IsModule (p : Parser) (w : Bytes) : Prop where
  valid : p.validate w = .ok ()
  not_component : .ok (.version .component) ∉ p.payloads w

/-- The function bodies of a binary. -/
def bodies (p : Parser) (w : Bytes) : List Bytes := (Live.bodiesIn (p.payloads w)).map (·.bytes)

variable {p : Parser} {w w' : Bytes} {v v' : ℕ} {sections sections' : List Section}
  {parts parts' : List Payload}

/-! ### A module and its parts -/

namespace Splits

lemma mem_payloads (hs : p.Splits w v sections parts) {a : Payload} (h : a ∈ parts) :
    .ok a ∈ p.payloads w := by
  rw [hs.payloads_eq]
  exact List.mem_cons_of_mem _ (List.mem_map_of_mem h)

lemma mem_parts (hs : p.Splits w v sections parts) {a : Payload} (h : .ok a ∈ p.payloads w)
    (ha : a ≠ .version .module) : a ∈ parts := by
  rw [hs.payloads_eq, List.mem_cons] at h
  obtain h | h := h
  · exact absurd (Except.ok.inj h) ha
  · obtain ⟨b, hb, hab⟩ := List.mem_map.mp h
    exact Except.ok.inj hab ▸ hb

lemma isModule (hs : p.Splits w v sections parts) (hv : p.validate w = .ok ()) : p.IsModule w :=
  ⟨hv, fun h => hs.frames.version_not_mem .component (hs.mem_parts h (by simp))⟩

/-- The bodies of the parts are those of the sections. -/
lemma bodies_eq (hs : p.Splits w v sections parts) : p.bodies w = bodiesOf sections := by
  rw [bodies, hs.payloads_eq]
  exact hs.frames.map_bytes

/-- The mode recorded in a module is that of its first readable marker. -/
lemma recordedMode_eq (hs : p.Splits w v sections parts) : p.recordedMode w = marker? sections := by
  rw [recordedMode, hs.payloads_eq]
  exact hs.frames.findSome?_recordedIn

end Splits

lemma mem_bodiesIn {ps : List (Except String Payload)} {b : Body} :
    b ∈ Live.bodiesIn ps ↔ .ok (.body b) ∈ ps := by
  rw [Live.bodiesIn, List.mem_filterMap]
  constructor
  · rintro ⟨part, hpart, h⟩
    split at h
    · cases h
      exact hpart
    · cases h
  · exact fun h => ⟨_, h, rfl⟩

/-- Pairs are known by their first components if no two disagree on what comes with one. -/
lemma eq_of_map_fst {α β : Type} {xs ys : List (α × β)} (h : xs.map Prod.fst = ys.map Prod.fst)
    (hsame : ∀ x ∈ xs, ∀ y ∈ ys, x.1 = y.1 → x = y) : xs = ys := by
  induction xs generalizing ys with
  | nil => exact (List.map_eq_nil_iff.mp h.symm).symm
  | cons x xs ih =>
    cases ys with
    | nil => cases h
    | cons y ys =>
      obtain ⟨hfirst, hrest⟩ := List.cons.inj h
      rw [hsame x List.mem_cons_self y List.mem_cons_self hfirst, ih hrest fun x hx y hy =>
        hsame x (List.mem_cons_of_mem _ hx) y (List.mem_cons_of_mem _ hy)]

lemma mem_others {id : UInt8} {content : Bytes} {told : Except String Told} :
    ((id, content), told) ∈ others parts ↔ .other id content told ∈ parts := by
  rw [others, List.mem_filterMap]
  constructor
  · rintro ⟨a, ha, h⟩
    split at h
    · cases h
      exact ha
    · cases h
  · exact fun h => ⟨_, h, rfl⟩

lemma tolds_eq_filterMap (parts : List Payload) :
    Live.tolds (parts.map .ok) = (others parts).filterMap (·.2.toOption) := by
  rw [Live.tolds, others, List.filterMap_map, List.filterMap_filterMap]
  refine List.filterMap_congr fun a _ => ?_
  cases a with
  | other id content told => cases told <;> rfl
  | version layer => rfl
  | custom name data => rfl
  | code count => rfl
  | body b => rfl

namespace Lawful

lemma exists_splits (hp : p.Lawful) (h : p.IsModule w) :
    ∃ v sections parts, p.Splits w v sections parts := by
  refine hp.splits w fun part hpart => ?_
  obtain ⟨a, rfl⟩ := hp.read_part w h.valid part hpart
  exact ⟨a, rfl, fun ha => h.not_component (ha ▸ hpart)⟩

lemma isRead (hp : p.Lawful) (hv : p.validate w = .ok ()) :
    ∀ part ∈ p.payloads w, Live.IsRead part := by
  intro part hpart
  obtain ⟨a, rfl⟩ := hp.read_part w hv part hpart
  refine ⟨a, rfl, ?_⟩
  rintro id content told rfl
  exact hp.read_told w hv id content told hpart

/-- **The parts of a valid binary that tell what is reached can be read.** -/
lemma readable (hp : p.Lawful) (hv : p.validate w = .ok ()) : Live.Readable (p.payloads w) :=
  ⟨hp.isRead hv, fun b hb => hp.read_body w hv b (mem_bodiesIn.mp hb)⟩

lemma told_ok (hs : p.Splits w v sections parts) (hread : ∀ part ∈ p.payloads w, Live.IsRead part)
    {x : (UInt8 × Bytes) × Except String Told} (hx : x ∈ others parts) :
    ∃ t, x = (x.1, .ok t) ∧ .other x.1.1 x.1.2 (.ok t) ∈ parts := by
  have hmem := mem_others.mp hx
  obtain ⟨a, ha, htold⟩ := hread _ (hs.mem_payloads hmem)
  obtain ⟨t, ht⟩ := htold _ _ _ (Except.ok.inj ha).symm
  exact ⟨t, by rw [← ht], ht ▸ hmem⟩

/-- Modules with the same sections beside their code and custom sections tell the same. -/
lemma tolds_eq (hp : p.Lawful) (hs : p.Splits w v sections parts)
    (hs' : p.Splits w' v' sections' parts') (hsame : othersOf sections' = othersOf sections)
    (hread : ∀ part ∈ p.payloads w, Live.IsRead part)
    (hread' : ∀ part ∈ p.payloads w', Live.IsRead part) :
    Live.tolds (p.payloads w') = Live.tolds (p.payloads w) := by
  have hothers : others parts' = others parts := by
    refine eq_of_map_fst (by rw [hs'.frames.map_others, hs.frames.map_others, hsame]) ?_
    intro x hx y hy hxy
    obtain ⟨t, hxt, ht⟩ := told_ok hs' hread' hx
    obtain ⟨t', hyt, ht'⟩ := told_ok hs hread hy
    rw [hxt, hyt, hxy, hp.told_eq hs' hs _ _ t t' ht (hxy ▸ ht')]
  rw [hs'.payloads_eq, hs.payloads_eq]
  change Live.tolds (parts'.map .ok) = Live.tolds (parts.map .ok)
  rw [tolds_eq_filterMap, tolds_eq_filterMap, hothers]

/-- A valid module that was written comes in the sections that were written, if they fit. -/
lemma splits_writeModule (hp : p.Lawful) (hv : p.validate (writeModule sections) = .ok ())
    (hfits : ∀ s ∈ sections, s.Fits) :
    ∃ parts, p.Splits (writeModule sections) 1 sections parts := by
  obtain ⟨v, read, parts, hs⟩ := hp.exists_splits ⟨hv, hp.header _⟩
  obtain ⟨rfl, rfl⟩ : v = 1 ∧ read = sections := by
    simpa [eq_comm] using (readBinary_writeModule hfits).symm.trans hs.read
  exact ⟨parts, hs⟩

/-- Sections that were written in a valid module were not too long. -/
lemma length_lt_of_writeModule (hp : p.Lawful) (hv : p.validate (writeModule sections) = .ok ()) :
    ∀ s ∈ sections, s.toRaw.2.length < 2 ^ 32 := by
  obtain ⟨v, read, parts, hs⟩ := hp.exists_splits ⟨hv, hp.header _⟩
  have hread : (Section.readAll (sections.flatMap Section.write)).map (Binary.mk .module 1) =
      some ⟨.module, v, read⟩ := hs.read
  obtain ⟨read', hread', -⟩ := Option.map_eq_some_iff.mp hread
  exact Section.length_lt_of_readAll_write hread'

end Lawful

end Parser

end ContractBuild.Wasm

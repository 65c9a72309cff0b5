import Mathlib
import ContractBuild.Proofs.Wasm.Parser

/-!
What becomes of the sections of a module when it is written again part by part: each is written for
itself, if only one of them holds code, and can be read back.
-/

namespace ContractBuild.Wasm

/-! ### What becomes of sections -/

/-- Replaces the bodies that are not live, unless they are as short as the replacement. -/
def snip (live : ℕ → Bool) (bodies : List Bytes) : List Bytes :=
  bodies.mapIdx fun i b => snipBody (live i) b

/-- What becomes of a section. -/
def reduceSection (live : ℕ → Bool) (keeps : String → Bool) : Section → List Section
  | .custom name data => if keeps name then [.custom name data] else []
  | .code bodies => [.code (snip live bodies)]
  | .other id content => [.other id content]

def reduceSections (live : ℕ → Bool) (keeps : String → Bool) (marker : Option Mode)
    (sections : List Section) : List Section :=
  sections.flatMap (reduceSection live keeps) ++ (marker.map markerSection).toList

/-- The sections as they are written one after another, with the bodies written before and their
number. A section with code holds all bodies up to its last one. -/
def rewriteFrom (live : ℕ → Bool) (keeps : String → Bool) :
    List Bytes → ℕ → List Section → List Section
  | _, _, [] => []
  | code, next, .custom name data :: sections =>
    (if keeps name then [.custom name data] else []) ++ rewriteFrom live keeps code next sections
  | code, next, .code bodies :: sections =>
    let code := code ++ snip (fun i => live (next + i)) bodies
    .code code :: rewriteFrom live keeps code (next + bodies.length) sections
  | code, next, .other id content :: sections =>
    .other id content :: rewriteFrom live keeps code next sections

section Rewrite

variable {live : ℕ → Bool} {keeps : String → Bool} {marker : Option Mode}
  {sections : List Section} {code : List Bytes} {next : ℕ}

lemma length_filter_cons (s : Section) (sections : List Section) :
    ((s :: sections).filter (·.isCode)).length =
      s.isCode.toNat + (sections.filter (·.isCode)).length := by
  rw [List.filter_cons]
  cases s.isCode with
  | true => exact Nat.add_comm _ _
  | false => exact (Nat.zero_add _).symm

/-- Sections with code stay. -/
lemma length_filter_rewriteFrom (sections : List Section) :
    ((rewriteFrom live keeps code next sections).filter (·.isCode)).length =
      (sections.filter (·.isCode)).length := by
  induction sections generalizing code next with
  | nil => rfl
  | cons s sections ih =>
    cases s with
    | custom name data =>
      rw [rewriteFrom, List.filter_append, List.length_append, ih, length_filter_cons]
      split_ifs <;> rfl
    | code bodies => rw [rewriteFrom, length_filter_cons, length_filter_cons, ih]; rfl
    | other id content => rw [rewriteFrom, length_filter_cons, length_filter_cons, ih]

lemma SingleCode.tail {s : Section} (h : SingleCode (s :: sections)) : SingleCode sections := by
  rw [SingleCode, length_filter_cons] at h
  exact Nat.le_trans (Nat.le_add_left _ _) h

lemma SingleCode.no_code {bodies : List Bytes} (h : SingleCode (.code bodies :: sections)) :
    sections.filter (·.isCode) = [] := by
  rw [SingleCode, length_filter_cons] at h
  refine List.eq_nil_of_length_eq_zero ?_
  have hone : (Section.code bodies).isCode.toNat = 1 := rfl
  omega

lemma rewriteFrom_of_no_code (h : sections.filter (·.isCode) = []) :
    rewriteFrom live keeps code next sections = sections.flatMap (reduceSection live keeps) := by
  induction sections with
  | nil => rfl
  | cons s sections ih =>
    have hrest : sections.filter (·.isCode) = [] := by
      rw [List.filter_eq_nil_iff] at h ⊢
      exact fun t ht => h t (List.mem_cons_of_mem _ ht)
    cases s with
    | custom name data => rw [rewriteFrom, List.flatMap_cons, ih hrest, reduceSection]
    | code bodies => cases h
    | other id content =>
      rw [rewriteFrom, List.flatMap_cons, ih hrest, reduceSection, List.singleton_append]

/-- With one section of code, each section is written for itself. -/
lemma rewriteFrom_of_singleCode (h : SingleCode sections) :
    rewriteFrom live keeps [] 0 sections = sections.flatMap (reduceSection live keeps) := by
  induction sections with
  | nil => rfl
  | cons s sections ih =>
    cases s with
    | custom name data => rw [rewriteFrom, List.flatMap_cons, ih h.tail, reduceSection]
    | code bodies =>
      rw [rewriteFrom, List.flatMap_cons, reduceSection, List.singleton_append, List.nil_append,
        rewriteFrom_of_no_code h.no_code]
      simp only [Nat.zero_add]
    | other id content =>
      rw [rewriteFrom, List.flatMap_cons, ih h.tail, reduceSection, List.singleton_append]

/-! ### The draft -/

lemma mapIdx_snipBody_cons (live : ℕ → Bool) (next : ℕ) (b : Bytes) (bodies : List Bytes) :
    snip (fun i => live (next + i)) (b :: bodies) =
      snipBody (live next) b :: snip (fun i => live (next + 1 + i)) bodies := by
  rw [snip, List.mapIdx_cons, snip]
  simp only [Nat.add_zero, Nat.add_assoc, Nat.add_comm 1]

/-- The bodies of a section are added one by one, and with the last one the section. -/
lemma foldlM_add_bodies {b : Body} {bodies : List Body} {d : Draft}
    (h : d.remaining = (b :: bodies).length) :
    ((b :: bodies).map Payload.body).foldlM (Draft.add live keeps) d = .ok
      { sections := d.sections ++
          [.code (d.code ++ snip (fun i => live (d.next + i)) ((b :: bodies).map (·.bytes)))]
        code := d.code ++ snip (fun i => live (d.next + i)) ((b :: bodies).map (·.bytes))
        remaining := 0
        next := d.next + (b :: bodies).length } := by
  induction bodies generalizing b d with
  | nil =>
    have hlast : d.remaining - 1 = 0 := by rw [h]; rfl
    rw [List.map_cons, List.foldlM_cons]
    simp only [Draft.add, hlast, if_true]
    rw [List.map_cons, mapIdx_snipBody_cons]
    rfl
  | cons c bodies ih =>
    have hmore : d.remaining - 1 ≠ 0 := by rw [h]; simp
    rw [List.map_cons, List.foldlM_cons]
    simp only [Draft.add, if_neg hmore]
    change ((c :: bodies).map Payload.body).foldlM (Draft.add live keeps) _ = _
    rw [ih (by simp [h]), @List.map_cons _ _ _ b, mapIdx_snipBody_cons live d.next b.bytes]
    simp only [List.append_assoc, List.singleton_append, List.length_cons, Nat.add_assoc,
      Nat.add_comm 1]

/-- **Writing the parts of a module again** writes its sections one after another. -/
lemma foldlM_add (live : ℕ → Bool) (keeps : String → Bool) {parts : List Payload}
    (h : Frames sections parts) (d : Draft) :
    ∃ d', parts.foldlM (Draft.add live keeps) d = .ok d' ∧
      d'.sections = d.sections ++ rewriteFrom live keeps d.code d.next sections := by
  induction h generalizing d with
  | nil => exact ⟨d, rfl, (List.append_nil _).symm⟩
  | @custom name data sections parts h ih =>
    rw [List.foldlM_cons, rewriteFrom]
    simp only [Draft.add]
    by_cases hk : keeps name = true
    · obtain ⟨d', hd', hsections⟩ := ih { d with sections := d.sections ++ [.custom name data] }
      refine ⟨d', by simp only [if_pos hk]; exact hd', ?_⟩
      rw [hsections, if_pos hk, List.append_assoc]
    · obtain ⟨d', hd', hsections⟩ := ih d
      refine ⟨d', by simp only [if_neg hk]; exact hd', ?_⟩
      rw [hsections, if_neg hk, List.nil_append]
  | @code bodies sections parts h ih =>
    rw [List.foldlM_cons, rewriteFrom]
    cases bodies with
    | nil =>
      obtain ⟨d', hd', hsections⟩ :=
        ih { d with sections := d.sections ++ [.code d.code], remaining := 0 }
      refine ⟨d', hd', ?_⟩
      rw [hsections, List.append_assoc]
      simp [snip]
    | cons b bodies =>
      simp only [Draft.add, List.length_cons, Nat.succ_ne_zero, if_false]
      change ∃ d', ((b :: bodies).map Payload.body ++ parts).foldlM
        (Draft.add live keeps) { d with remaining := bodies.length + 1 } = .ok d' ∧ _
      rw [List.foldlM_append, foldlM_add_bodies (by rfl)]
      obtain ⟨d', hd', hsections⟩ := ih _
      refine ⟨d', hd', ?_⟩
      rw [hsections, List.append_assoc, List.length_map]
      rfl
  | @other id content told sections parts h ih =>
    rw [List.foldlM_cons, rewriteFrom]
    obtain ⟨d', hd', hsections⟩ := ih { d with sections := d.sections ++ [.other id content] }
    refine ⟨d', hd', ?_⟩
    rw [hsections, List.append_assoc, List.singleton_append]

lemma foldlM_addPart (parts : List Payload) (d : Draft) :
    (parts.map Except.ok).foldlM (Draft.addPart live keeps) d =
      parts.foldlM (Draft.add live keeps) d :=
  List.foldlM_map

lemma rewrite_eq {parts : List Payload} (h : Frames sections parts) :
    rewrite live keeps marker (.ok (.version .module) :: parts.map .ok) =
      .ok (writeModule (rewriteFrom live keeps [] 0 sections ++
        (marker.map markerSection).toList)) := by
  obtain ⟨d, hd, hsections⟩ := foldlM_add live keeps h {}
  rw [rewrite, List.foldlM_cons]
  change ((parts.map Except.ok).foldlM (Draft.addPart live keeps) {} >>= _) = _
  rw [foldlM_addPart, hd]
  change Except.ok (writeModule (d.sections ++ _)) = _
  rw [hsections]
  rfl

/-- Only parts that can be read are written again, and no components. -/
lemma part_of_foldlM {parts : List (Except String Payload)} {d d' : Draft}
    (h : parts.foldlM (Draft.addPart live keeps) d = .ok d') :
    ∀ part ∈ parts, ∃ a, part = .ok a ∧ a ≠ .version .component := by
  induction parts generalizing d with
  | nil => simp
  | cons part parts ih =>
    rw [List.foldlM_cons, except_bind_ok] at h
    obtain ⟨d₁, hd₁, hrest⟩ := h
    refine List.forall_mem_cons.mpr ⟨?_, ih hrest⟩
    cases part with
    | error reason => cases hd₁
    | ok a =>
      refine ⟨a, rfl, ?_⟩
      rintro rfl
      cases hd₁

lemma part_of_rewrite {parts : List (Except String Payload)} {out : Bytes}
    (h : rewrite live keeps marker parts = .ok out) :
    ∀ part ∈ parts, ∃ a, part = .ok a ∧ a ≠ .version .component := by
  obtain ⟨d, hd, -⟩ := except_bind_ok.mp h
  exact part_of_foldlM hd

end Rewrite

/-! ### Reduced sections can be written -/

section Fits

variable {live : ℕ → Bool} {keeps : String → Bool} {marker : Option Mode}
  {sections : List Section}

lemma length_writeGroups_mono (g : ℕ) {m n : ℕ} (h : m ≤ n) :
    (writeGroups g m).length ≤ (writeGroups g n).length := by
  induction g generalizing m n with
  | zero => exact Nat.le_refl _
  | succ g ih =>
    have hrest := ih (Nat.div_le_div_right h : m / 128 ≤ n / 128)
    rw [writeGroups, writeGroups]
    split_ifs with hm hn
    · exact Nat.le_refl _
    · rw [List.length_cons, List.length_cons, List.length_nil]
      exact Nat.add_le_add_right (Nat.zero_le _) 1
    · omega
    · rw [List.length_cons, List.length_cons]
      exact Nat.add_le_add_right hrest 1

lemma length_writeSized_mono {bs cs : Bytes} (h : bs.length ≤ cs.length) :
    (writeSized bs).length ≤ (writeSized cs).length := by
  rw [writeSized, writeSized, List.length_append, List.length_append]
  exact Nat.add_le_add (length_writeGroups_mono 5 h) h

lemma length_writeSized_snipBody_le (live : Bool) (b : Bytes) :
    (writeSized (snipBody live b)).length ≤ (writeSized b).length := by
  rw [snipBody]
  split_ifs with hb
  · simp only [Bool.and_eq_true, decide_eq_true_eq] at hb
    exact length_writeSized_mono (Nat.le_of_lt hb.2)
  · exact Nat.le_refl _

/-- Joined parts are no longer than others if each one is no longer than its counterpart. -/
lemma length_flatMap_le {α β γ : Type} {f : α → List γ} {g : β → List γ} {xs : List α} {ys : List β}
    (h : List.Forall₂ (fun x y => (f x).length ≤ (g y).length) xs ys) :
    (xs.flatMap f).length ≤ (ys.flatMap g).length := by
  induction h with
  | nil => exact Nat.le_refl _
  | cons hxy _ ih =>
    rw [List.flatMap_cons, List.flatMap_cons, List.length_append, List.length_append]
    exact Nat.add_le_add hxy ih

/-- Shorter bodies make no code section longer. -/
lemma length_toRaw_code_le {bodies bodies' : List Bytes}
    (h : List.Forall₂ (fun b' b => (writeSized b').length ≤ (writeSized b).length) bodies' bodies) :
    (Section.code bodies').toRaw.2.length ≤ (Section.code bodies).toRaw.2.length := by
  rw [Section.toRaw, Section.toRaw, List.length_append, List.length_append, h.length_eq]
  exact Nat.add_le_add_left (length_flatMap_le h) _

lemma forall₂_snip_le (live : ℕ → Bool) (bodies : List Bytes) :
    List.Forall₂ (fun b' b => (writeSized b').length ≤ (writeSized b).length)
      (snip live bodies) bodies := by
  refine List.forall₂_iff_get.mpr ⟨List.length_mapIdx, fun i hi hi' => ?_⟩
  simp only [snip, List.get_eq_getElem, List.getElem_mapIdx]
  exact length_writeSized_snipBody_le _ _

lemma length_toRaw_snip_le (live : ℕ → Bool) (bodies : List Bytes) :
    (Section.code (snip live bodies)).toRaw.2.length ≤ (Section.code bodies).toRaw.2.length :=
  length_toRaw_code_le (forall₂_snip_le live bodies)

lemma fits_code_of_le {bodies bodies' : List Bytes} (h : (Section.code bodies).Fits)
    (hle : (Section.code bodies').toRaw.2.length ≤ (Section.code bodies).toRaw.2.length) :
    (Section.code bodies').Fits :=
  Section.fits_code (lt_of_le_of_lt hle h.length_lt)

/-- A body may be replaced by a shorter one. -/
lemma fits_replaceBody {before after : List Section} {bodies bodies' : List Bytes} {b b' : Bytes}
    (h : ∀ s ∈ before ++ .code (bodies ++ b :: bodies') :: after, s.Fits)
    (hle : (writeSized b').length ≤ (writeSized b).length) :
    ∀ s ∈ before ++ .code (bodies ++ b' :: bodies') :: after, s.Fits := by
  rw [List.forall_mem_append, List.forall_mem_cons] at h ⊢
  refine ⟨h.1, fits_code_of_le h.2.1 (length_toRaw_code_le ?_), h.2.2⟩
  have hsame : ∀ bs : List Bytes,
      List.Forall₂ (fun b' b => (writeSized b').length ≤ (writeSized b).length) bs bs :=
    fun bs => List.forall₂_same.mpr fun _ _ => Nat.le_refl _
  exact List.rel_append (hsame bodies) (.cons hle (hsame bodies'))

lemma fits_markerSection (mode : Mode) : (markerSection mode).Fits := by
  refine Section.fits_custom ?_ ?_
  · decide
  · cases mode <;> decide

lemma fits_marker (marker : Option Mode) :
    ∀ s ∈ (marker.map markerSection).toList, s.Fits := by
  cases marker with
  | none => simp
  | some mode => simpa using fits_markerSection mode

lemma fits_reduceSection {s : Section} (h : s.Fits) : ∀ t ∈ reduceSection live keeps s, t.Fits := by
  cases s with
  | custom name data =>
    rw [reduceSection]
    split_ifs
    · simpa using h
    · simp
  | code bodies => simpa [reduceSection] using fits_code_of_le h (length_toRaw_snip_le live bodies)
  | other id content => simpa [reduceSection] using h

lemma fits_reduceSections (h : ∀ s ∈ sections, s.Fits) :
    ∀ s ∈ reduceSections live keeps marker sections, s.Fits := by
  rw [reduceSections, List.forall_mem_append]
  refine ⟨fun s hs => ?_, fits_marker marker⟩
  obtain ⟨t, ht, hs⟩ := List.mem_flatMap.mp hs
  exact fits_reduceSection (h t ht) s hs

/-- What is written of sections that fit does so too if it is not too long. -/
lemma fits_rewriteFrom {code : List Bytes} {next : ℕ} (h : ∀ s ∈ sections, s.Fits)
    (hlt : ∀ s ∈ rewriteFrom live keeps code next sections, s.toRaw.2.length < 2 ^ 32) :
    ∀ s ∈ rewriteFrom live keeps code next sections, s.Fits := by
  induction sections generalizing code next with
  | nil => simp [rewriteFrom]
  | cons s sections ih =>
    obtain ⟨hfirst, hrest⟩ := List.forall_mem_cons.mp h
    cases s with
    | custom name data =>
      rw [rewriteFrom, List.forall_mem_append] at hlt ⊢
      refine ⟨?_, ih hrest hlt.2⟩
      split_ifs
      · simpa using hfirst
      · simp
    | code bodies =>
      rw [rewriteFrom, List.forall_mem_cons] at hlt ⊢
      exact ⟨Section.fits_code hlt.1, ih hrest hlt.2⟩
    | other id content =>
      rw [rewriteFrom, List.forall_mem_cons] at hlt ⊢
      exact ⟨hfirst, ih hrest hlt.2⟩

end Fits

/-! ### What reduced sections hold -/

section Reduce

variable {live : ℕ → Bool} {keeps : String → Bool} {marker : Option Mode} {sections : List Section}

lemma bodiesOf_append (as bs : List Section) : bodiesOf (as ++ bs) = bodiesOf as ++ bodiesOf bs :=
  List.flatMap_append

lemma othersOf_append (as bs : List Section) : othersOf (as ++ bs) = othersOf as ++ othersOf bs :=
  List.filterMap_append

lemma bodiesOf_of_no_code (h : sections.filter (·.isCode) = []) : bodiesOf sections = [] := by
  refine List.flatMap_eq_nil_iff.mpr fun s hs => ?_
  have hcode := (List.filter_eq_nil_iff.mp h) s hs
  cases s with
  | custom name data => rfl
  | code bodies => exact absurd rfl hcode
  | other id content => rfl

lemma marker_no_code (marker : Option Mode) :
    (marker.map markerSection).toList.filter (·.isCode) = [] := by
  cases marker <;> rfl

lemma othersOf_marker (marker : Option Mode) : othersOf (marker.map markerSection).toList = [] := by
  cases marker <;> rfl

/-- The only section with code has all the bodies. -/
lemma SingleCode.bodiesOf_of_mem {bodies : List Bytes} (h : SingleCode sections)
    (hmem : .code bodies ∈ sections) : bodiesOf sections = bodies := by
  induction sections with
  | nil => cases hmem
  | cons s sections ih =>
    rw [← List.singleton_append, bodiesOf_append]
    rcases List.mem_cons.mp hmem with rfl | hrest
    · rw [bodiesOf_of_no_code h.no_code]
      simp [bodiesOf]
    · rw [ih h.tail hrest]
      cases s with
      | code bs => exact absurd rfl (List.filter_eq_nil_iff.mp h.no_code _ hrest)
      | custom name data => rfl
      | other id content => rfl

/-- The bodies of reduced sections are the bodies as they were, each in its place. -/
lemma SingleCode.bodiesOf_reduceSections (h : SingleCode sections) :
    bodiesOf (reduceSections live keeps marker sections) = snip live (bodiesOf sections) := by
  rw [reduceSections, bodiesOf_append, bodiesOf_of_no_code (marker_no_code marker), List.append_nil]
  induction sections with
  | nil => rfl
  | cons s sections ih =>
    rw [List.flatMap_cons, bodiesOf_append, ← List.singleton_append, bodiesOf_append]
    cases s with
    | custom name data =>
      have hnil : bodiesOf (reduceSection live keeps (.custom name data)) = [] := by
        rw [reduceSection]; split_ifs <;> rfl
      rw [hnil, ih h.tail]
      rfl
    | code bodies =>
      have hrest := ih h.tail
      rw [bodiesOf_of_no_code h.no_code] at hrest ⊢
      rw [hrest]
      simp [reduceSection, bodiesOf, snip]
    | other id content =>
      rw [ih h.tail]
      rfl

/-- Sections that hold neither code nor custom data stay as they are. -/
lemma othersOf_reduceSections :
    othersOf (reduceSections live keeps marker sections) = othersOf sections := by
  rw [reduceSections, othersOf_append, othersOf_marker, List.append_nil]
  induction sections with
  | nil => rfl
  | cons s sections ih =>
    rw [List.flatMap_cons, othersOf_append, ih, ← List.singleton_append, othersOf_append]
    congr 1
    cases s with
    | custom name data =>
      rw [reduceSection]
      split_ifs <;> rfl
    | code bodies => rfl
    | other id content => rfl

/-- A section with its bodies snipped. -/
def snipSection (live : ℕ → Bool) : Section → Section
  | .code bodies => .code (snip live bodies)
  | s => s

lemma filter_reduceSections :
    (reduceSections live keeps marker sections).filter (!·.isCustom) =
      (sections.map (snipSection live)).filter (!·.isCustom) := by
  have hmarker : (marker.map markerSection).toList.filter (!·.isCustom) = [] := by
    cases marker <;> rfl
  rw [reduceSections, List.filter_append, hmarker, List.append_nil]
  induction sections with
  | nil => rfl
  | cons s sections ih =>
    rw [List.flatMap_cons, List.filter_append, ih, List.map_cons, ← List.singleton_append,
      List.filter_append]
    congr 1
    cases s with
    | custom name data =>
      rw [reduceSection]
      split_ifs <;> rfl
    | code bodies => rfl
    | other id content => rfl

end Reduce

end ContractBuild.Wasm

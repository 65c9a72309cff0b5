import Mathlib
import ContractBuild.Proofs.Python.Line
import ContractBuild.Proofs.Python.Spelling
import ContractBuild.Proofs.Text.Outside
import ContractBuild.Python.Module

/-!
Import statements are found: an `import` however it is spelled, unless it is a fault, and a `from`
if it is spelled in one of the ways that are looked for. The others are lost without a fault.
-/

namespace ContractBuild.Python

open ContractBuild.Text

/-! ### Statements -/

/-- A base is its names. -/
lemma IsBase.exists_names {b : List Char} (hb : IsBase b) : ∃ ns : List (List Char),
    (∀ n ∈ ns, IsName n) ∧ b.splitOn '.' = ns ∧ joinWith ['.'] ns = b := by
  obtain ⟨ns, hne, hns, rfl⟩ := hb.names
  have hdot : ∀ n ∈ ns, '.' ∉ n := fun n hn => (hns n hn).not_mem (by decide)
  exact ⟨ns, hns, List.splitOn_intercalate '.' hdot hne, rfl⟩

lemma IsBase.ne_nil {b : List Char} (hb : IsBase b) : b ≠ [] := by
  rintro rfl
  obtain ⟨ns, hns, rfl, -⟩ := hb.exists_names
  exact (hns [] (by simp)).ne_nil rfl

lemma IsBase.normalizeDotted {b : List Char} (hb : IsBase b) : Import.normalizeDotted b = b := by
  obtain ⟨ns, hns, hsplit, hjoin⟩ := hb.exists_names
  have htrim : ns.map trim = ns := by
    conv_rhs => rw [← List.map_id ns]
    exact List.map_congr_left fun n hn => trim_self (hns n hn).isSolid
  rw [Import.normalizeDotted, hsplit, htrim, hjoin]

section Statements

variable {g t b x : List Char} {ns : List (List Char)}

lemma afterWord_gap (word : String) (hg : IsGap g) (hne : g ≠ []) (ht : IsSolid t ∧ t ≠ []) :
    Import.afterWord word (word.toList ++ (g ++ t)) = some t := by
  have hpre : word.toList.isPrefixOf? (word.toList ++ (g ++ t)) = some (g ++ t) :=
    List.isPrefixOf?_eq_some_iff_append_eq.mpr rfl
  have hlength : t.length < (g ++ t).length := by
    simpa using List.length_pos_iff.mpr hne
  rw [Import.afterWord, hpre]
  simp only [trimLeft_of_head ht.1.head hg, hlength, List.isEmpty_eq_false_iff.mpr ht.2]
  rfl

/-- What a `from` imports does not start with the keyword. -/
lemma SpellsMembers.afterWord (hm : SpellsMembers t ns) : Import.afterWord "import" t = none := by
  unfold Import.afterWord
  split
  · next rest hpre =>
    rw [List.isPrefixOf?_eq_some_iff_append_eq] at hpre
    cases hm with
    | star => cases hpre
    | enclosed => cases hpre
    | trailing => cases hpre
    | bare h =>
      obtain ⟨n, r, hn, rfl, hr⟩ := h.exists_name
      rw [if_neg]
      rw [Bool.and_eq_true, decide_eq_true_eq]
      rintro ⟨hshorter, -⟩
      rcases rest with _ | ⟨c, rest⟩
      · cases hshorter
      · by_cases hc : isBlank c = true
        · exact hn.ne_import (hn.eq_of_append hr (by simp [isNameChar])
            (isNameChar_of_isBlank hc) hpre)
        · simp [trimLeft, hc] at hshorter
  · rfl

lemma head?_gap (hg : IsGap g) (hne : g ≠ []) : (g ++ x).head?.any isBlank = true := by
  obtain ⟨c, g', rfl⟩ := List.exists_cons_of_ne_nil hne
  simpa using hg c List.mem_cons_self

lemma isWordOrDot_of_gap (hg : IsGap g) (hne : g ≠ []) :
    ∀ c ∈ (g ++ x).head?, (isWordChar c || c == '.') = false := by
  obtain ⟨c, g', rfl⟩ := List.exists_cons_of_ne_nil hne
  intro c' hc'
  obtain rfl : c = c' := by simpa using hc'
  have hblank := hg c List.mem_cons_self
  have hdot : c ≠ '.' := by
    rintro rfl
    revert hblank
    decide
  simp [isWordChar_of_isBlank hblank, hdot]

lemma isNameChar_of_ascii {c : Char} (h : isAsciiLetterOrUnderscore c = true) :
    isNameChar c = true := by
  simp only [isAsciiLetterOrUnderscore, Bool.or_eq_true, beq_iff_eq] at h
  simp only [isNameChar, Char.isAlphanum, Bool.or_eq_true, beq_iff_eq]
  exact .inl (h.imp_left .inl)

/-- The parts of a `from`, where `base` is the word after its dots. -/
lemma fromParts_of_dots {g₁ g₂ base r : List Char} (level : ℕ) (hg₁ : IsGap g₁) (hne₁ : g₁ ≠ [])
    (hg₂ : IsGap g₂) (hlevel : level = 0 → g₂ = []) (hne : base ≠ [])
    (hbase : ∀ c ∈ base, (isWordChar c || c == '.') = true)
    (hfirst : ∀ c ∈ base.head?, isAsciiLetterOrUnderscore c = true)
    (hr : ∀ c ∈ r.head?, (isWordChar c || c == '.') = false) :
    Import.fromParts ("from".toList ++ (g₁ ++ (List.replicate level '.' ++ (g₂ ++ (base ++ r))))) =
      match if r.head?.any isBlank then (Import.afterWord "import" (trimLeft r)).map fun names =>
          (level, some base, names) else none with
      | some parts => some parts
      | none =>
        if (if level = 0 then 2 ≤ g₁.length else g₂ ≠ []) then
          (Import.afterWord "import" (base ++ r)).map fun names => (level, none, names)
        else none := by
  obtain ⟨c, base', rfl⟩ := List.exists_cons_of_ne_nil hne
  have hc : isAsciiLetterOrUnderscore c = true := hfirst c rfl
  have hcblank : isBlank c = false := isBlank_of_isNameChar (isNameChar_of_ascii hc)
  have hcdot : c ≠ '.' := by
    rintro rfl
    revert hc
    decide
  have hpre : ∀ y, "from".toList.isPrefixOf? ("from".toList ++ y) = some y :=
    fun y => List.isPrefixOf?_eq_some_iff_append_eq.mpr rfl
  have hgap : ∀ x ∈ (c :: base' ++ r).head?, isBlank x = false := by simpa using hcblank
  have hdots : ∀ x ∈ List.replicate level '.', (x == '.') = true := by
    intro x hx
    rw [List.eq_of_mem_replicate hx]
    rfl
  have hafterDots : ∀ x ∈ (g₂ ++ (c :: base' ++ r)).head?, (x == '.') = false := by
    refine forall_head?_append (fun x hx => ?_) (by simpa using hcdot)
    refine beq_eq_false_iff_ne.mpr fun hdot => ?_
    exact hg₂.not_mem (x := '.') (by decide) (hdot ▸ List.mem_of_mem_head? hx)
  have hafterLead : ∀ x ∈ (List.replicate level '.' ++ (g₂ ++ (c :: base' ++ r))).head?,
      isBlank x = false := by
    cases level with
    | zero =>
      rw [hlevel rfl]
      exact hgap
    | succ level =>
      intro x hx
      obtain rfl : '.' = x := by simpa [List.replicate_succ] using hx
      decide
  rw [Import.fromParts, hpre]
  simp only [takeWhile_span hg₁ hafterLead, dropWhile_span hg₁ hafterLead,
    takeWhile_span hdots hafterDots, dropWhile_span hdots hafterDots, takeWhile_span hg₂ hgap,
    dropWhile_span hg₂ hgap, takeWhile_span hbase hr, List.drop_left, List.length_replicate]
  have hhead : (c :: base' ++ r).head?.any isAsciiLetterOrUnderscore = true := hc
  rw [if_neg (by simpa using hne₁), hhead, Bool.true_and]
  congr 2
  simp

lemma fromParts_based {g₁ g₂ g₃ g₄ : List Char} (level : ℕ) (hg₁ : IsGap g₁) (hne₁ : g₁ ≠ [])
    (hg₂ : IsGap g₂) (hb : IsBase b) (hg₃ : IsGap g₃) (hne₃ : g₃ ≠ []) (hg₄ : IsGap g₄)
    (hne₄ : g₄ ≠ []) (ht : IsSolid t ∧ t ≠ []) :
    Import.fromParts ("from".toList ++ (g₁ ++ (List.replicate level '.' ++ (g₂ ++ (b ++ (g₃ ++
      ("import".toList ++ (g₄ ++ t)))))))) = some (level, some b, t) := by
  have hword : Import.afterWord "import" (trimLeft (g₃ ++ ("import".toList ++ (g₄ ++ t)))) =
      some t := by
    have hhead : ∀ c ∈ ("import".toList ++ (g₄ ++ t)).head?, isBlank c = false :=
      forall_head?_cons (by decide)
    rw [trimLeft_of_head hhead hg₃]
    exact afterWord_gap "import" hg₄ hne₄ ht
  have hparts : ∀ g₁ g₂ : List Char, IsGap g₁ → g₁ ≠ [] → IsGap g₂ → (level = 0 → g₂ = []) →
      Import.fromParts ("from".toList ++ (g₁ ++ (List.replicate level '.' ++ (g₂ ++ (b ++ (g₃ ++
        ("import".toList ++ (g₄ ++ t)))))))) = some (level, some b, t) := by
    intro g₁ g₂ hg₁ hne₁ hg₂ hlevel
    rw [fromParts_of_dots level hg₁ hne₁ hg₂ hlevel hb.ne_nil
      (fun c hc => by simpa using hb.chars c hc) hb.first (isWordOrDot_of_gap hg₃ hne₃),
      head?_gap hg₃ hne₃, hword]
    rfl
  -- without dots, the blanks after them belong to those before
  rcases level with _ | level
  · have hmerged := hparts (g₁ ++ g₂) [] (fun c hc => (List.mem_append.mp hc).elim (hg₁ c) (hg₂ c))
      (by simp [hne₁]) isGap_nil fun _ => rfl
    simpa using hmerged
  · exact hparts g₁ g₂ hg₁ hne₁ hg₂ nofun

/-- After dots alone the keyword is first taken for a base; only a blank in front of it tells. -/
lemma fromParts_relative {g₁ g₂ g₃ : List Char} (level : ℕ) (hg₁ : IsGap g₁) (hne₁ : g₁ ≠ [])
    (hg₂ : IsGap g₂) (hg₃ : IsGap g₃) (hne₃ : g₃ ≠ []) (ht : SpellsMembers t ns) :
    Import.fromParts ("from".toList ++ (g₁ ++ (List.replicate (level + 1) '.' ++ (g₂ ++
      ("import".toList ++ (g₃ ++ t)))))) = if g₂ = [] then none else some (level + 1, none, t) := by
  have hletters : ∀ c ∈ "import".toList, (isWordChar c || c == '.') = true :=
    List.all_eq_true.mp (by decide +kernel)
  rw [fromParts_of_dots (level + 1) hg₁ hne₁ hg₂ nofun (by simp) hletters
    (forall_head?_cons (by decide)) (isWordOrDot_of_gap hg₃ hne₃), head?_gap hg₃ hne₃,
    trimLeft_of_head ht.isSolid.1.head hg₃, ht.afterWord, afterWord_gap "import" hg₃ hne₃ ht.isSolid]
  simp

/-- The words that are looked for at the start of a line. -/
def keywords : List String := "import" :: "from" :: Import.compoundKeywords

lemma mem_keywords_of_header {k : String} (hk : k ∈ Import.compoundKeywords) : k ∈ keywords :=
  List.mem_cons_of_mem _ (List.mem_cons_of_mem _ hk)

lemma mem_keywords_of_eq {w : String} (hw : w = "import" ∨ w = "from") : w ∈ keywords := by
  rcases hw with rfl | rfl <;> decide

lemma letters_of_keyword {k : String} (hk : k ∈ keywords) : k.toList ≠ [] ∧
    ∀ c ∈ k.toList, (isLetterOrNumber c || c == '_') = true ∧ isBlank c = false := by
  have hall : keywords.all fun k => !k.toList.isEmpty &&
      k.toList.all fun c => (isLetterOrNumber c || c == '_') && !isBlank c := by decide +kernel
  have hk' := List.all_eq_true.mp hall k hk
  simp only [Bool.and_eq_true, List.all_eq_true, Bool.not_eq_true', List.isEmpty_eq_false_iff]
    at hk'
  exact hk'

/-- A word in front of a text keeps it solid. -/
lemma isSolid_keyword {k : String} {y : List Char} (hk : k ∈ keywords) (hy : IsSolid y ∧ y ≠ [])
    (x : List Char) : IsSolid (k.toList ++ x ++ y) := by
  obtain ⟨hne, hletters⟩ := letters_of_keyword hk
  exact (isSolid_of_forall fun c hc => (hletters c hc).2).append hy.1 hne hy.2 x

/-- An import statement starts with a keyword and a blank. -/
lemma Spells.exists_word {s : Statement} (hs : Spells t s) : ∃ w : String,
    (w = "import" ∨ w = "from") ∧ ∃ g x y, IsGap g ∧ g ≠ [] ∧ (IsSolid y ∧ y ≠ []) ∧
      t = w.toList ++ (g ++ (x ++ y)) := by
  cases hs with
  | modules hg hne h =>
    exact ⟨_, .inl rfl, _, [], _, hg, hne, h.isSolid fun _ _ => SpellsModule.isSolid, rfl⟩
  | @based g₁ g₂ b g₃ g₄ y ns level hg₁ hne₁ _ _ _ _ _ _ h =>
    exact ⟨_, .inr rfl, g₁,
      List.replicate level '.' ++ (g₂ ++ (b ++ (g₃ ++ ("import".toList ++ g₄)))), y, hg₁, hne₁,
      h.isSolid, by simp⟩
  | @relative g₁ g₂ g₃ y ns level hg₁ hne₁ _ _ _ _ h =>
    exact ⟨_, .inr rfl, g₁, List.replicate (level + 1) '.' ++ (g₂ ++ ("import".toList ++ g₃)),
      y, hg₁, hne₁, h.isSolid, by simp⟩

lemma Spells.isSolid {s : Statement} (hs : Spells t s) : IsSolid t ∧ t ≠ [] := by
  obtain ⟨w, hw, g, x, y, -, -, hy, rfl⟩ := hs.exists_word
  have hsolid := isSolid_keyword (mem_keywords_of_eq hw) hy (g ++ x)
  exact ⟨by simpa using hsolid, by simp [hy.2]⟩

/-- The word that a statement starts with ends at a blank. -/
lemma takeWhile_word {w : String} (hw : w = "import" ∨ w = "from") (hg : IsGap g) (hne : g ≠ []) :
    (w.toList ++ (g ++ x)).takeWhile (fun c => isLetterOrNumber c || c == '_') = w.toList := by
  have hletters := (letters_of_keyword (mem_keywords_of_eq hw)).2
  have hblank : ∀ c ∈ (g ++ x).head?, (isLetterOrNumber c || c == '_') = false := by
    intro c hc
    rw [List.head?_append_of_ne_nil _ hne] at hc
    have hc' := hg c (List.mem_of_mem_head? hc)
    have hunderscore : c ≠ '_' := by
      rintro rfl
      revert hc'
      decide
    simp [isLetterOrNumber_of_isBlank hc', hunderscore]
  exact takeWhile_span (fun c hc => (hletters c hc).1) hblank

/-- A statement that is an import itself has no header. -/
lemma inlineBody_of_word {w : String} (hw : w = "import" ∨ w = "from") (hg : IsGap g)
    (hne : g ≠ []) : Import.inlineBody (w.toList ++ (g ++ x)) = none := by
  rw [Import.inlineBody, takeWhile_word hw hg hne, String.ofList_toList, if_neg]
  rcases hw with rfl | rfl <;> decide

lemma Spells.inlineBody {s : Statement} (hs : Spells t s) : Import.inlineBody t = none := by
  obtain ⟨w, hw, g, x, y, hg, hne, -, rfl⟩ := hs.exists_word
  exact inlineBody_of_word hw hg hne

/-- The imports of a statement are found, or it is a fault. -/
lemma Spells.ofLine {s : Statement} (hs : Spells t s) {l : Line}
    (htext : (Import.inlineBody l.text.toList).getD l.text.toList = t) :
    (∃ f, Import.ofLine l = .error f) ∨ Import.ofLine l = .ok (some (s.imports l.number)) := by
  unfold Import.ofLine
  simp only [htext]
  cases hs with
  | @modules g t ns hg hne h =>
    rw [afterWord_gap "import" hg hne (h.isSolid fun _ _ => SpellsModule.isSolid)]
    dsimp only
    split_ifs with hall
    · refine .inr ?_
      rw [h.modules hall]
      rfl
    · exact .inl ⟨_, rfl⟩
  | @based g₁ g₂ b g₃ g₄ t ns level hg₁ hne₁ hg₂ hb hg₃ hne₃ hg₄ hne₄ h =>
    have hnone : ∀ x, Import.afterWord "import" ("from".toList ++ x) = none := fun x => rfl
    rw [hnone, fromParts_based level hg₁ hne₁ hg₂ hb hg₃ hne₃ hg₄ hne₄ h.isSolid]
    refine .inr ?_
    cases level <;> simp [Statement.imports, hb.normalizeDotted, h.listedNames]
  | @relative g₁ g₂ g₃ t ns level hg₁ hne₁ hg₂ hne₂ hg₃ hne₃ h =>
    have hnone : ∀ x, Import.afterWord "import" ("from".toList ++ x) = none := fun x => rfl
    rw [hnone, fromParts_relative level hg₁ hne₁ hg₂ hg₃ hne₃ h, if_neg hne₂]
    exact .inr (by simp [Statement.imports, h.listedNames])

end Statements

/-! ### Headers -/

section Headers

variable {h g t r x : List Char} {s : Statement}

/-- A header has no colon outside its brackets. -/
lemma IsHeader.colon (hh : IsHeader h) : ':' ∉ outside h := by
  intro hcolon
  obtain ⟨p, q, hpq, hclosed⟩ := exists_of_mem_outsideFrom hcolon
  have hinside := hh.colons p q hpq
  omega

lemma IsHeader.inlineBody (hh : IsHeader h) (hg : IsGap g) (ht : IsSolid t ∧ t ≠ []) :
    Import.inlineBody (h ++ ':' :: (g ++ t)) = some t := by
  have hcut : cutTop ':' (h ++ ':' :: (g ++ t)) = some (h, g ++ t) :=
    cutTop_at hh.closed hh.colon (by decide) (by decide)
  have htrim : trim (g ++ t) = t := by
    simpa using trim_solid ht.1 hg isGap_nil
  obtain ⟨k, hk, r, rfl, hr⟩ := hh.keyword
  have hletters := (letters_of_keyword (mem_keywords_of_header hk)).2
  have hend : ∀ c ∈ (r ++ ':' :: (g ++ t)).head?, (isLetterOrNumber c || c == '_') = false := by
    refine forall_head?_append (fun c hc => ?_) (forall_head?_cons (by decide +kernel))
    simpa using hr c hc
  have hkeyword : (k.toList ++ r ++ ':' :: (g ++ t)).takeWhile
      (fun c => isLetterOrNumber c || c == '_') = k.toList := by
    rw [List.append_assoc, takeWhile_span (fun c hc => (hletters c hc).1) hend]
  rw [Import.inlineBody, hkeyword, String.ofList_toList, if_pos hk, hcut]
  simp [htrim, ht.2]

lemma IsHeader.isSolid (hh : IsHeader h) (ht : IsSolid t ∧ t ≠ []) :
    IsSolid (h ++ ':' :: (g ++ t)) := by
  obtain ⟨k, hk, r, rfl, -⟩ := hh.keyword
  simpa using isSolid_keyword (mem_keywords_of_header hk) ht (r ++ ':' :: g)

lemma Carries.isSolid (hx : Carries s x) : IsSolid x ∧ x ≠ [] := by
  cases hx with
  | alone hs => exact hs.isSolid
  | inline hh hg hs => exact ⟨hh.isSolid hs.isSolid, by simp⟩

lemma Carries.ofLine (hx : Carries s x) {l : Line} (htext : l.text = String.ofList x) :
    (∃ f, Import.ofLine l = .error f) ∨ Import.ofLine l = .ok (some (s.imports l.number)) := by
  cases hx with
  | alone hs =>
    refine hs.ofLine ?_
    rw [htext, String.toList_ofList, hs.inlineBody]
    rfl
  | inline hh hg hs =>
    refine hs.ofLine ?_
    rw [htext, String.toList_ofList, hh.inlineBody hg hs.isSolid]
    rfl

end Headers

/-! ### The whole module -/

section Modules

variable {s s' : Module.St} {l : Line} {ls : List Line}

/-- What one line adds to the imports. -/
lemma imports_step (h : Module.step s l = .ok s') : ∃ found, Import.ofLine l = .ok found ∧
    s'.module.imports = s.module.imports ++ found.getD [] := by
  obtain ⟨found, hfound, h⟩ := except_bind_ok.mp h
  refine ⟨found, hfound, ?_⟩
  cases found with
  | some found =>
    cases h
    rfl
  | none =>
    rw [Option.getD_none, List.append_nil]
    dsimp only at h
    split_ifs at h
    · cases h
      rfl
    split at h
    · obtain ⟨decorator, -, h⟩ := except_bind_ok.mp h
      cases h
      rfl
    · obtain ⟨function, -, h⟩ := except_bind_ok.mp h
      cases function <;> cases h <;> rfl

lemma imports_foldlM (h : ls.foldlM Module.step s = .ok s') :
    s.module.imports ⊆ s'.module.imports ∧ ∀ l ∈ ls, ∃ found, Import.ofLine l = .ok found ∧
      found.getD [] ⊆ s'.module.imports := by
  induction ls generalizing s with
  | nil =>
    cases h
    exact ⟨List.Subset.refl _, nofun⟩
  | cons l ls ih =>
    rw [List.foldlM_cons] at h
    obtain ⟨s₁, hstep, hrest⟩ := except_bind_ok.mp h
    obtain ⟨found, hfound, himports⟩ := imports_step hstep
    obtain ⟨hkept, hall⟩ := ih hrest
    rw [himports] at hkept
    refine ⟨List.Subset.trans (List.subset_append_left _ _) hkept,
      List.forall_mem_cons.mpr ⟨?_, hall⟩⟩
    exact ⟨found, hfound, List.Subset.trans (List.subset_append_right _ _) hkept⟩

/-- The imports of a module are those of its lines. -/
lemma exists_line_of_mem_imports (h : ls.foldlM Module.step s = .ok s') {i : Import}
    (hi : i ∈ s'.module.imports) : i ∈ s.module.imports ∨
      ∃ l ∈ ls, ∃ found, Import.ofLine l = .ok (some found) ∧ i ∈ found := by
  induction ls generalizing s with
  | nil =>
    cases h
    exact .inl hi
  | cons l ls ih =>
    rw [List.foldlM_cons] at h
    obtain ⟨s₁, hstep, hrest⟩ := except_bind_ok.mp h
    obtain ⟨found, hfound, himports⟩ := imports_step hstep
    rcases ih hrest with hi | ⟨l', hl', hi⟩
    · rw [himports, List.mem_append] at hi
      rcases hi with hi | hi
      · exact .inl hi
      · cases found with
        | none => cases hi
        | some found => exact .inr ⟨l, List.mem_cons_self, found, hfound, hi⟩
    · exact .inr ⟨l', List.mem_cons_of_mem _ hl', hi⟩

/-- Names are imported from somewhere: after `from` stands a dot or a base. -/
def Import.HasOrigin : Import → Prop
  | .whole _ _ => True
  | .names _ level base _ => level = 0 → base.isSome = true

lemma Import.hasOrigin_of_ofLine {found : List Import} (h : Import.ofLine l = .ok (some found)) :
    ∀ i ∈ found, i.HasOrigin := by
  unfold Import.ofLine at h
  dsimp only at h
  intro i hi
  split at h
  · split_ifs at h
    cases h
    obtain ⟨n, -, rfl⟩ := List.mem_map.mp hi
    trivial
  · split at h
    · cases h
    · cases h
    · next level base items hnone _ =>
      cases h
      obtain rfl := List.mem_singleton.mp hi
      rintro rfl
      cases base with
      | none => exact (hnone rfl rfl).elim
      | some b => rfl

lemma hasOrigin_of_parse {source : String} {m : Module} (h : Module.parse source = .ok m) :
    ∀ i ∈ m.imports, i.HasOrigin := by
  obtain ⟨ls, -, hlines⟩ := except_bind_ok.mp h
  obtain ⟨s, hfold, hm⟩ := except_bind_ok.mp hlines
  cases hm
  intro i hi
  obtain hnone | ⟨l, -, found, hfound, hi⟩ := exists_line_of_mem_imports hfold hi
  · cases hnone
  · exact Import.hasOrigin_of_ofLine hfound i hi

/-- **No import statement is lost** that is spelled in one of these ways. Wherever a source can be
read up to the end of such a statement, alone or after a header, its module has the imports that the
statement stands for, unless it has a fault. -/
theorem imports_of_reads {source : String} {rest g x g' : List Char} {stmt : Statement}
    (hread : Reads source.toList rest 0 (g ++ x ++ g')) (hend : EndsStatement rest)
    (hg : IsGap g) (hg' : IsGap g') (hx : Carries stmt x) :
    (∃ f, Module.parse source = .error f) ∨
      ∃ m line, Module.parse source = .ok m ∧ stmt.imports line ⊆ m.imports := by
  obtain ⟨hsolid, hne⟩ := hx.isSolid
  have htrim := trim_solid hsolid hg hg'
  rcases hparse : Module.parse source with f | m
  · exact .inl ⟨f, rfl⟩
  obtain ⟨ls, hscan, hlines⟩ := except_bind_ok.mp hparse
  obtain ⟨s, hfold, hm⟩ := except_bind_ok.mp hlines
  cases hm
  obtain ⟨l, hl, htext⟩ := Line.exists_line_of_reads hread hend (by rwa [htrim]) hscan
  rw [htrim] at htext
  obtain ⟨found, hfound, hmem⟩ := (imports_foldlM hfold).2 l hl
  rcases hx.ofLine htext with ⟨f, hfault⟩ | hok
  · rw [hfound] at hfault
    cases hfault
  · rw [hfound] at hok
    cases hok
    exact .inr ⟨s.module, l.number, rfl, hmem⟩

theorem imports_of_reads_header :
    ∃ m line, Module.parse "s = '#';if x: from .p import (y as z,)\n" = .ok m ∧
      [.names line 1 (some "p") ["y"]] ⊆ m.imports := by
  have hread : Reads "s = '#';if x: from .p import (y as z,)\n".toList ['\n'] 0
      ([] ++ "if x: from .p import (y as z,)".toList ++ []) := by
    have hassigned : Reads "s = '#';if x: from .p import (y as z,)\n".toList
        "'#';if x: from .p import (y as z,)\n".toList 0 ([] ++ "s = ".toList) :=
      .plains _ (by decide) .start
    have hlit : Literal '\'' "'#'".toList ";if x: from .p import (y as z,)\n".toList :=
      .short (.char (by decide) (by decide) (by decide) .close) (by decide)
    have hsecond := (hassigned.literal (.inl rfl) hlit).semicolon
    have hopened := (hsecond.plains "if x: from .p import ".toList (by decide)).opening rfl
    exact (hopened.plains "y as z,".toList (by decide)).closing rfl
  have hname : ∀ c : Char, isNameChar c = true → IsName [c] := fun c hc =>
    ⟨by simp, by simpa using hc, by simp, by simp⟩
  have hgap : IsGap [' '] := by simp [IsGap]; decide
  have hmembers : SpellsMembers "(y as z,)".toList [['y']] :=
    .trailing isGap_nil isGap_nil isGap_nil (.one (.mk (hname 'y' (by decide))
      (.some hgap hgap (by simp) (by simp) ⟨rfl, rfl⟩ (hname 'z' (by decide)))))
  have hbase : IsBase ['p'] := ⟨⟨[['p']], by simp, by simpa using hname 'p' (by decide), rfl⟩,
    by simp; decide, forall_head?_cons (by decide)⟩
  have hstatement : Spells "from .p import (y as z,)".toList (.members 1 (some ['p']) [['y']]) :=
    .based 1 hgap (by simp) isGap_nil hbase hgap (by simp) hgap (by simp) hmembers
  have hheader : IsHeader "if x".toList := by
    refine ⟨⟨"if", by decide, " x".toList, rfl, forall_head?_cons (by decide +kernel)⟩,
      fun p q hpq => ?_, rfl⟩
    have hcolon : ':' ∈ "if x".toList := by simp [hpq]
    exact absurd hcolon (by decide)
  refine (imports_of_reads hread (.newline .feed []) isGap_nil isGap_nil
    (.inline (g := [' ']) hheader hgap hstatement)).resolve_left ?_
  have hparse : (Module.parse "s = '#';if x: from .p import (y as z,)\n").isOk = true := by
    decide +kernel
  rintro ⟨f, hfault⟩
  rw [hfault] at hparse
  cases hparse

end Modules

/-! ### What is lost -/

section Losses

variable {g g' t : List Char} {ns : List (List Char)} {l : Line}

/-- **A `from` whose dots touch its keyword is no import**: the keyword is taken for the base. -/
theorem ofLine_of_dots_touching (level : ℕ) (hg : IsGap g) (hne : g ≠ []) (hg' : IsGap g')
    (hne' : g' ≠ []) (ht : SpellsMembers t ns)
    (htext : l.text = String.ofList ("from".toList ++ (g ++ (List.replicate (level + 1) '.' ++
      ("import".toList ++ (g' ++ t)))))) : Import.ofLine l = .ok none := by
  have hparts : Import.fromParts ("from".toList ++ (g ++ (List.replicate (level + 1) '.' ++
      ("import".toList ++ (g' ++ t))))) = none :=
    fromParts_relative level hg hne isGap_nil hg' hne' ht
  have hnone : ∀ x, Import.afterWord "import" ("from".toList ++ x) = none := fun x => rfl
  unfold Import.ofLine
  simp only [htext, String.toList_ofList, inlineBody_of_word (.inr rfl) hg hne, Option.getD_none,
    hnone, hparts]

example : (Module.parse "from .import x\n").toOption = some {} := by decide +kernel

/-- **Only some words are looked for.** A line that starts with another one, such as a `def` or a
`class` with its body behind it, holds no import. -/
theorem ofLine_of_keyword
    (h : String.ofList (l.text.toList.takeWhile fun c => isLetterOrNumber c || c == '_') ∉
      keywords) : Import.ofLine l = .ok none := by
  simp only [keywords, List.mem_cons, not_or] at h
  obtain ⟨himport, hfrom, hheader⟩ := h
  have hword : ∀ {w : String} {c : Char} {r : List Char}, w = "import" ∨ w = "from" →
      w.toList ++ c :: r = l.text.toList → isBlank c = false := by
    intro w c r hw heq
    by_contra hc
    have hgap : IsGap [c] := by simpa [IsGap] using hc
    have htake := takeWhile_word (x := r) hw hgap (by simp)
    rw [List.singleton_append, heq] at htake
    rw [htake, String.ofList_toList] at himport hfrom
    exact hw.elim himport hfrom
  have hbody : Import.inlineBody l.text.toList = none := if_neg hheader
  have hafter : Import.afterWord "import" l.text.toList = none := by
    unfold Import.afterWord
    split
    · next rest hpre =>
      rw [List.isPrefixOf?_eq_some_iff_append_eq] at hpre
      rcases rest with _ | ⟨c, rest⟩
      · rfl
      · simp [trimLeft, hword (.inl rfl) hpre]
    · rfl
  have hparts : Import.fromParts l.text.toList = none := by
    unfold Import.fromParts
    split
    · rfl
    · next rest hpre =>
      rw [List.isPrefixOf?_eq_some_iff_append_eq] at hpre
      have hlead : (rest.takeWhile isBlank).isEmpty = true := by
        rcases rest with _ | ⟨c, rest⟩
        · rfl
        · simp [hword (.inr rfl) hpre]
      dsimp only
      rw [if_pos hlead]
  unfold Import.ofLine
  simp only [hbody, Option.getD_none, hafter, hparts]

example : (Module.parse "class C: import x\n").toOption = some {} := by decide +kernel

end Losses

end ContractBuild.Python

import Mathlib
import ContractBuild.Proofs.Version.Order
import ContractBuild.Proofs.Version.Pin

/-!
Versions in their normal form: what is read has three numbers and at most a tag with a number, and
its text is read as the same version again, both as a version and as a requirement.
-/

namespace ContractBuild.Version

open ContractBuild.Text

/-! ### What is read -/

section Read

variable {raw : String} {v : Version} {pre : PreRelease} {p : Phase} {ds : List Char}

/-- What tags are read as, without a number or with one. -/
inductive IsTagged : PreRelease → Prop where
  | final : IsTagged []
  | bare (p : Phase) : IsTagged [.word p.tag]
  | numbered (p : Phase) (n : ℕ) : IsTagged [.word p.tag, .number n]

lemma exists_phase {s t : String} (h : (s, t) ∈ tagSpellings) : ∃ p : Phase, t = p.tag := by
  have hall : ∀ e ∈ tagSpellings, e.2 = Phase.development.tag ∨ e.2 = Phase.alpha.tag ∨
      e.2 = Phase.beta.tag ∨ e.2 = Phase.candidate.tag := by decide
  rcases hall _ h with h | h | h | h
  · exact ⟨_, h⟩
  · exact ⟨_, h⟩
  · exact ⟨_, h⟩
  · exact ⟨_, h⟩

/-- A tag that is found is that of a phase, and digits stand behind it. -/
lemma phase_of_preTag {cs : List Char} {t : String} (h : (preTag cs).1 = some (t, ds)) :
    (∃ p : Phase, t = p.tag) ∧ ∀ c ∈ ds, isDecimalDigit c = true := by
  rw [preTag] at h
  dsimp only at h
  split at h
  · cases h
  · next tag r hfound =>
    obtain ⟨⟨w, t'⟩, hmem, hw⟩ := List.exists_of_findSome?_eq_some hfound
    obtain ⟨r', -, heq⟩ := Option.map_eq_some_iff.mp hw
    obtain ⟨rfl, rfl⟩ := Prod.mk.inj heq
    obtain ⟨rfl, rfl⟩ := Prod.mk.inj (Option.some.inj h)
    exact ⟨exists_phase hmem, fun c hc => List.mem_takeWhile_imp hc⟩

/-- Of the decimal digits only those of ASCII stand in identifiers. -/
lemma isDigit_of_isIdentifierChar {c : Char} (hdecimal : isDecimalDigit c = true)
    (hc : isIdentifierChar c = true) : c.isDigit = true := by
  rw [isIdentifierChar, Char.isAlphanum, Bool.or_eq_true, Bool.or_eq_true, beq_iff_eq] at hc
  rcases hc with (halpha | hdigit) | rfl
  · have hfold : foldCase c = c.toLower := by
      rw [foldCase, if_neg]
      intro hnat
      have hlong : c = Char.ofNat 0x17f := by rw [← hnat, Char.ofNat_toNat]
      rw [hlong] at halpha
      revert halpha
      decide
    have hlower : (foldCase c).isLower = true := by
      rw [hfold, Char.isLower_toLower_eq_isAlpha, halpha]
    rw [isDecimalDigit_of_isLower hlower] at hdecimal
    cases hdecimal
  · exact hdigit
  · revert hdecimal
    decide

lemma ofChars?_tag (p : Phase) : Identifier.ofChars? p.tag.toList = some (.word p.tag) := by
  cases p <;> decide

/-- Digits are read as a number if they are read. -/
lemma exists_number_of_digits (hds : ∀ c ∈ ds, isDecimalDigit c = true) {i : Identifier}
    (h : Identifier.ofChars? ds = some i) : ∃ n, i = .number n := by
  rw [Identifier.ofChars?] at h
  split_ifs at h with hchars hdigits
  · exact ⟨_, (Option.some.inj h).symm⟩
  · simp only [Bool.or_eq_true, not_or, Bool.not_eq_true, Bool.not_eq_false', List.all_eq_true]
      at hchars
    refine absurd (List.all_eq_true.mpr fun c hc => ?_) hdigits
    exact isDigit_of_isIdentifierChar (hds c hc) (hchars.2 c hc)

/-- A tag and the digits behind it. -/
lemma isTagged_of_preOfChars? (hds : ∀ c ∈ ds, isDecimalDigit c = true)
    (h : preOfChars? (p.tag.toList ++ if ds.isEmpty then [] else '.' :: ds) = some pre) :
    IsTagged pre := by
  by_cases hnil : ds = []
  · have hbare : preOfChars? (p.tag.toList ++ []) = some [.word p.tag] := by
      cases p <;> decide
    rw [hnil] at h
    obtain rfl := Option.some.inj (hbare.symm.trans h)
    exact .bare p
  · rw [List.isEmpty_eq_false_iff.mpr hnil, if_neg Bool.false_ne_true] at h
    have hsplit : (p.tag.toList ++ '.' :: ds).splitOn '.' = [p.tag.toList, ds] := by
      have htag : '.' ∉ p.tag.toList := by
        cases p <;> decide
      have hdot : '.' ∉ ds := fun hmem => absurd (hds '.' hmem) (by decide)
      rw [splitOn_append, splitOn_of_not_mem htag, splitOn_of_not_mem hdot]
      rfl
    -- all of the text is read, so its parts are the tag and the digits
    unfold preOfChars? at h
    split at h
    · next hhead =>
      obtain rfl := Option.some.inj h
      rw [preHead?_eq] at hhead
      split_ifs at hhead with hempty
      · exact absurd (Prod.mk.inj (Option.some.inj hhead)).2 (by simp)
      · obtain ⟨is, hread, heq⟩ := Option.map_eq_some_iff.mp hhead
        obtain ⟨rfl, hrest⟩ := Prod.mk.inj heq
        rw [drop_takeWhile_length, List.dropWhile_eq_nil_iff] at hrest
        rw [List.takeWhile_eq_self_iff.mpr hrest, hsplit] at hread
        obtain _ | @⟨_, i, _, _, htag, hdigits⟩ := option_mapM_eq_some.mp hread
        obtain _ | @⟨_, j, _, _, hnumber, hnone⟩ := hdigits
        obtain rfl := List.forall₂_nil_left_iff.mp hnone
        obtain rfl := Option.some.inj ((ofChars?_tag p).symm.trans htag)
        obtain ⟨n, rfl⟩ := exists_number_of_digits hds hnumber
        exact .numbered p n
    · cases h

lemma isTagged_of_ofRelease? (h : ofRelease? raw = some v) : IsTagged v.pre := by
  obtain ⟨-, -, -, -, hpre⟩ := ofRelease?_eq_some.mp h
  generalize htag : (preTag _).1 = tag at hpre
  cases tag with
  | none =>
    have hnil : [] = v.pre := Option.some.inj hpre
    rw [← hnil]
    exact .final
  | some found =>
    obtain ⟨⟨p, hp⟩, hds⟩ := phase_of_preTag htag
    rw [Option.map_some, Option.getD_some, hp] at hpre
    exact isTagged_of_preOfChars? hds hpre

end Read

/-! ### Reading the text of a version -/

section Text

variable {v : Version} {pre : PreRelease}

/-- What stands behind the numbers of a version. -/
def preSuffix (pre : PreRelease) : List Char :=
  if pre = [] then [] else '-' :: (preText pre).toList

lemma text_eq_dotted (v : Version) :
    v.text.toList = dotted [v.major, v.minor, v.patch] ++ preSuffix v.pre := by
  have hdot : toString "." = "." := rfl
  rw [text, preSuffix]
  cases v.pre <;> simp [dotted, joinWith, hdot]

/-- The suffix of a tag is read as the tag it is made of. -/
lemma IsTagged.preTag_preSuffix (h : IsTagged pre) : EndsNumbers (preSuffix pre) ∧
    ∃ tag, preTag (preSuffix pre) = (tag, []) ∧
      (tag.map fun t => preOfChars? (t.1.toList ++ if t.2.isEmpty then [] else '.' :: t.2)).getD
        (some []) = some pre := by
  have hdash : IsSeparation ['-'] := isSeparation_singleton (by decide)
  have hdot : IsSeparation ['.'] := isSeparation_singleton (by decide)
  have hspelling : ∀ p : Phase, p.tag ∈ p.spellings ∧ p.tag.toList.map foldCase = p.tag.toList ∧
      p.tag.toList ≠ [] ∧ ∀ c ∈ p.tag.toList, (foldCase c).isLower = true := by
    intro p
    have hmem : p.tag ∈ p.spellings := by
      cases p <;> decide
    have hfold : p.tag.toList.map foldCase = p.tag.toList := by
      cases p <;> decide
    have htable : (p.tag, p.tag) ∈ tagSpellings :=
      List.mem_of_find?_eq_some (Phase.find?_spelling hmem)
    exact ⟨hmem, hfold, ne_nil_of_spells htable hfold, isLower_of_spells htable hfold⟩
  cases h with
  | final => exact ⟨⟨nofun, nofun⟩, none, by decide, rfl⟩
  | bare p =>
    obtain ⟨hmem, hfold, hne, hlower⟩ := hspelling p
    have hsuffix : preSuffix [.word p.tag] = ['-'] ++ p.tag.toList ++ [] ++ [] := by
      simp [preSuffix, toList_preText, Identifier.text]
    refine ⟨?_, some (p.tag, []), ?_, ?_⟩
    · rw [hsuffix, List.append_assoc, List.append_assoc]
      exact endsNumbers_word hdash hne hlower _
    · rw [hsuffix]
      exact preTag_word hdash hmem hfold isSeparation_nil (List.forall_mem_nil _)
    · cases p <;> decide
  | numbered p n =>
    obtain ⟨hmem, hfold, hne, hlower⟩ := hspelling p
    have hsuffix : preSuffix [.word p.tag, .number n] =
        ['-'] ++ p.tag.toList ++ ['.'] ++ (toString n).toList := by
      simp [preSuffix, toList_preText, Identifier.text, List.intercalate_cons_cons]
    have hdigits : (toString n).toList.isEmpty = false :=
      List.isEmpty_eq_false_iff.mpr (toString_ne_nil n)
    refine ⟨?_, some (p.tag, (toString n).toList), ?_, ?_⟩
    · rw [hsuffix, List.append_assoc, List.append_assoc]
      exact endsNumbers_word hdash hne hlower _
    · rw [hsuffix]
      exact preTag_word hdash hmem hfold hdot fun c hc => isDecimalDigit_of_mem_toString hc
    · simp only [Option.map_some, Option.getD_some, hdigits]
      exact preOfChars?_tag p n

lemma isBlank_of_isPreChar {c : Char} (h : isPreChar c = true) : isBlank c = false := by
  have hnone : ∀ n ∈ blanks, isPreChar (Char.ofNat n) = false := by decide +kernel
  by_contra hblank
  have hpre := hnone _ (toNat_mem_blanks (by simpa using hblank))
  rw [Char.ofNat_toNat, h] at hpre
  cases hpre

/-- The text of a version has no blanks and no letter in front. -/
lemma IsProper.bare_text (hv : v.IsProper) : bare v.text = v.text.toList := by
  have hchars : ∀ c ∈ v.text.toList, isBlank c = false := by
    intro c hc
    rw [text_eq_dotted, List.mem_append] at hc
    rcases hc with hc | hc
    · exact isBlank_of_mem_dotted hc
    · rw [preSuffix] at hc
      split_ifs at hc
      · cases hc
      · rcases List.mem_cons.mp hc with rfl | hc
        · decide
        · exact isBlank_of_isPreChar (isPreChar_preText hv.pre c hc)
  have hfirst : afterFolded "v" v.text.toList = none := by
    rw [text_eq_dotted, dotted_cons, List.append_assoc]
    exact afterFolded_digits _ _
  rw [bare, trim_self (isSolid_of_forall hchars), hfirst]
  rfl

lemma IsProper.ofRelease?_text (hv : v.IsProper) (hpre : IsTagged v.pre) :
    ofRelease? v.text = some v := by
  have hnumbers : IsNumbers [v.major, v.minor, v.patch] :=
    ⟨List.cons_ne_nil _ _, by simp, by simpa using ⟨hv.major, hv.minor, hv.patch⟩⟩
  obtain ⟨hends, tag, htag, hread⟩ := hpre.preTag_preSuffix
  exact ofRelease?_of_bare hnumbers (hv.bare_text.trans (text_eq_dotted v)) hends htag hread

/-- An exact requirement is met by its version alone. -/
lemma IsProper.requirement_text (hv : v.IsProper) :
    ∃ r, Requirement.ofChars? ("=" ++ v.text).toList = some r ∧ ∀ w, r.isMet w = true ↔ w = v := by
  have hproper : ∀ c ∈ [v.comparator .exact], c.IsProper :=
    List.forall_mem_singleton.mpr (hv.comparator (by decide))
  have hlen : 1 ≤ Requirement.maxComparators := by decide
  have hread := ofChars?_joined hproper (List.cons_ne_nil _ _) hlen
  have hsign : Operator.exact.text = "=" := rfl
  rw [joined_singleton, text_comparator, hsign, ← String.toList_append] at hread
  refine ⟨⟨[v.comparator .exact]⟩, hread, fun w => ?_⟩
  have hmet : (v.comparator .exact).isMet w = true ↔ w = v := isExact_comparator
  simp only [Requirement.isMet, List.all_cons, List.all_nil, Bool.and_true, List.any_cons,
    List.any_nil, Bool.or_false, Bool.and_eq_true, Bool.or_eq_true, hmet, namesPreOf_comparator,
    List.isEmpty_iff]
  constructor
  · exact And.left
  · rintro rfl
    exact ⟨rfl, (em _).imp_right fun hpre => ⟨⟨rfl, rfl, rfl⟩, hpre⟩⟩

end Text

/-! ### Normal forms -/

section Normal

variable {raw : String} {v : Version}

/-- **What is read is in normal form**: its text is read as the same version, the requirement of
exactly that text is met by it alone, and a pin with the text as it was written asks for it. -/
theorem ofRelease?_normal (h : ofRelease? raw = some v) :
    ofRelease? v.text = some v ∧
      (∃ r, Requirement.ofChars? ("=" ++ v.text).toList = some r ∧ ∀ w, r.isMet w = true ↔ w = v) ∧
      ∀ (op : Comparison) (package : String), Pin.parse package (op.text ++ raw) =
        .ok ⟨package, op.text ++ raw, ⟨[v.comparator op.operator]⟩⟩ := by
  have hproper := isProper_of_ofRelease? h
  refine ⟨hproper.ofRelease?_text (isTagged_of_ofRelease? h), hproper.requirement_text,
    fun op package => ?_⟩
  have hspells : Clause.Spells (op.text.toList ++ ([] ++ raw.toList)) (.comparison op v) :=
    .comparison isGap_nil (by rwa [String.ofList_toList])
  have hsep : Separates ',' [(op.text ++ raw).toList] (op.text ++ raw).toList := by
    simpa using Separates.last isGap_nil isGap_nil
  rw [List.nil_append, ← String.toList_append] at hspells
  have hclauses : SpellsClauses (op.text ++ raw).toList [.comparison op v] :=
    ⟨_, .cons hspells .nil, hsep⟩
  have hlen : 1 ≤ Requirement.maxComparators := by decide
  exact Pin.parse_spelled hclauses hlen

theorem ofRelease?_normal_candidate :
    ofRelease? " v2.0-Preview_7.post1+local " = some ⟨2, 0, 0, [.word "rc", .number 7]⟩ ∧
      ofRelease? "2.0.0-rc.7" = some ⟨2, 0, 0, [.word "rc", .number 7]⟩ := by
  have h : ofRelease? " v2.0-Preview_7.post1+local " = some ⟨2, 0, 0, [.word "rc", .number 7]⟩ := by
    decide +kernel
  exact ⟨h, (ofRelease?_normal h).1⟩

end Normal

end ContractBuild.Version

import Mathlib
import ContractBuild.Proofs.Text.Nested
import ContractBuild.Proofs.Version.Requirement
import ContractBuild.Version.Release

/-!
Versions as distributions write them: which characters stand in them, and that the version that is
read is one that its text stands for.
-/

namespace ContractBuild.Version

open ContractBuild.Text

/-! ### Characters -/

/-- The words of versions. -/
def releaseWords : List String := "v" :: "post" :: tagSpellings.map (·.1)

/-- A character that is in no version. -/
structure IsForeign (x : Char) : Prop where
  blank : isBlank x = false
  word : isWordChar x = false
  separator : isSeparator x = false
  plus : x ≠ '+'
  letter : ∀ w ∈ releaseWords, foldCase x ∉ w.toList

section Foreign

variable {x : Char} {cs r : List Char}

lemma IsForeign.digit (hx : IsForeign x) : isDecimalDigit x = false := by
  by_contra h
  rw [Bool.not_eq_false] at h
  have hword := hx.word
  simp [isWordChar, h] at hword

lemma IsForeign.mem_skipSeparator (hx : IsForeign x) (h : x ∈ cs) : x ∈ skipSeparator cs := by
  cases cs with
  | nil => exact h
  | cons c r =>
    rw [skipSeparator]
    split_ifs with hc
    · refine (List.mem_cons.mp h).resolve_left ?_
      rintro rfl
      rw [hx.separator] at hc
      cases hc
    · exact h

lemma IsForeign.mem_dropWhile (hx : IsForeign x) (h : x ∈ cs) :
    x ∈ cs.dropWhile isDecimalDigit := by
  rw [← List.takeWhile_append_dropWhile (p := isDecimalDigit) (l := cs), List.mem_append] at h
  refine h.resolve_left fun htake => ?_
  have hdigit := List.mem_takeWhile_imp htake
  rw [hx.digit] at hdigit
  cases hdigit

lemma drop_takeWhile_length (cs : List Char) (p : Char → Bool) :
    cs.drop (cs.takeWhile p).length = cs.dropWhile p := by
  calc cs.drop (cs.takeWhile p).length
      = (cs.takeWhile p ++ cs.dropWhile p).drop (cs.takeWhile p).length := by
        rw [List.takeWhile_append_dropWhile]
    _ = cs.dropWhile p := List.drop_left

lemma IsForeign.mem_afterFolded (hx : IsForeign x) {w : String} (hw : w ∈ releaseWords)
    (hr : afterFolded w cs = some r) (h : x ∈ cs) : x ∈ r := by
  rw [afterFolded] at hr
  split_ifs at hr with hfold
  obtain rfl := Option.some.inj hr
  rw [← List.take_append_drop w.length cs, List.mem_append] at h
  refine h.resolve_left fun htake => hx.letter w hw ?_
  rw [← hfold]
  exact List.mem_map_of_mem htake

lemma IsForeign.mem_releaseNumbers (hx : IsForeign x) (fuel : ℕ) (h : x ∈ cs) :
    x ∈ (releaseNumbers fuel cs).2 := by
  induction fuel generalizing cs with
  | zero => exact h
  | succ fuel ih =>
    unfold releaseNumbers
    split
    · next r =>
      have hr : x ∈ r := by
        refine (List.mem_cons.mp h).resolve_left ?_
        rintro rfl
        exact absurd hx.separator (by decide)
      dsimp only
      split_ifs
      · exact h
      · rw [drop_takeWhile_length]
        exact ih (hx.mem_dropWhile hr)
    · exact h

lemma mem_releaseWords {w t : String} (h : (w, t) ∈ tagSpellings) : w ∈ releaseWords :=
  List.mem_cons_of_mem _ (List.mem_cons_of_mem _ (List.mem_map_of_mem (f := (·.1)) h))

lemma IsForeign.mem_preTag (hx : IsForeign x) (h : x ∈ cs) : x ∈ (preTag cs).2 := by
  rw [preTag]
  dsimp only
  split
  · exact h
  · next tag r hfound =>
    obtain ⟨⟨w, t⟩, hmem, hw⟩ := List.exists_of_findSome?_eq_some hfound
    obtain ⟨r', hr', heq⟩ := Option.map_eq_some_iff.mp hw
    obtain ⟨rfl, rfl⟩ := Prod.mk.inj heq
    rw [drop_takeWhile_length]
    exact hx.mem_dropWhile (hx.mem_skipSeparator
      (hx.mem_afterFolded (mem_releaseWords hmem) hr' (hx.mem_skipSeparator h)))

lemma IsForeign.mem_afterPost (hx : IsForeign x) (h : x ∈ cs) : x ∈ afterPost cs := by
  unfold afterPost
  split
  · next r hr =>
    exact hx.mem_dropWhile (hx.mem_skipSeparator
      (hx.mem_afterFolded (by decide) hr (hx.mem_skipSeparator h)))
  · split
    · next d r _ =>
      split_ifs with hd
      · have hne : x ≠ '-' ∧ x ≠ d := by
          constructor
          · rintro rfl
            exact absurd hx.separator (by decide)
          · rintro rfl
            rw [hx.digit] at hd
            cases hd
        simp only [List.mem_cons, hne, false_or] at h
        exact hx.mem_dropWhile h
      · exact h
    · exact h

lemma IsForeign.not_mem_localLabel (hx : IsForeign x) (hlabel : isLocalLabel cs = true) : x ∉ cs := by
  intro h
  unfold isLocalLabel at hlabel
  split at hlabel
  · cases h
  · next r =>
    rw [Bool.and_eq_true, List.all_eq_true] at hlabel
    have hr := hlabel.2 x ((List.mem_cons.mp h).resolve_left hx.plus)
    rw [hx.word, Bool.false_or, beq_iff_eq] at hr
    rw [hr] at hx
    exact absurd hx.separator (by decide)
  · cases hlabel

lemma IsForeign.mem_trim (hx : IsForeign x) (h : x ∈ cs) : x ∈ trim cs := by
  obtain ⟨g, g', hg, hg', heq⟩ := exists_gaps cs
  rw [heq] at h
  simpa [hg.not_mem hx.blank, hg'.not_mem hx.blank] using h

end Foreign

/-! ### What is read -/

section Read

variable {raw : String} {v : Version}

/-- The text of a version without the blanks around it and the letter in front. -/
def bare (raw : String) : List Char := (afterFolded "v" (trim raw.toList)).getD (trim raw.toList)

/-- What is read: a first number, those after it, and the tag of a pre-release, as long as only a
post-release and a label follow. -/
lemma ofRelease?_eq_some : ofRelease? raw = some v ↔
    let more := releaseNumbers (bare raw).length ((bare raw).dropWhile isDecimalDigit)
    let tag := preTag more.2
    isLocalLabel (afterPost tag.2) = true ∧
      wordOfDigits? ((bare raw).takeWhile isDecimalDigit) = some v.major ∧
      (more.1[0]?.map wordOfDigits?).getD (some 0) = some v.minor ∧
      (more.1[1]?.map wordOfDigits?).getD (some 0) = some v.patch ∧
      (tag.1.map fun t => preOfChars? (t.1.toList ++ if t.2.isEmpty then [] else '.' :: t.2)).getD
        (some []) = some v.pre := by
  obtain ⟨major, minor, patch, pre⟩ := v
  have hnone : wordOfDigits? [] = none := rfl
  simp only [ofRelease?, bare, drop_takeWhile_length]
  generalize (afterFolded "v" (trim raw.toList)).getD (trim raw.toList) = cs
  generalize releaseNumbers cs.length (cs.dropWhile isDecimalDigit) = more
  generalize cs.takeWhile isDecimalDigit = first
  generalize preTag more.2 = tag
  obtain ⟨_ | ⟨t, ds⟩, r⟩ := tag
  · cases first <;> cases isLocalLabel (afterPost r) <;>
      simp [hnone, Option.bind_eq_some_iff]
  · cases first <;> cases isLocalLabel (afterPost r) <;>
      simp [hnone, Option.bind_eq_some_iff]

lemma isProper_of_preOfChars? {cs : List Char} {pre : PreRelease} (h : preOfChars? cs = some pre) :
    ∀ i ∈ pre, i.IsProper := by
  unfold preOfChars? at h
  split at h
  · next hhead =>
    obtain rfl := Option.some.inj h
    exact isProper_of_preHead? hhead
  · cases h

/-- What is read is the version that its own text stands for. -/
lemma isProper_of_ofRelease? (h : ofRelease? raw = some v) : v.IsProper := by
  have hnumber : ∀ {o : Option (List Char)} {n : ℕ},
      (o.map wordOfDigits?).getD (some 0) = some n → n < wordLimit := by
    rintro (_ | ds) n hn
    · obtain rfl : 0 = n := Option.some.inj hn
      decide
    · exact lt_of_wordOfDigits? hn
  obtain ⟨-, hmajor, hminor, hpatch, hpre⟩ := ofRelease?_eq_some.mp h
  refine ⟨lt_of_wordOfDigits? hmajor, hnumber hminor, hnumber hpatch, ?_⟩
  generalize (preTag _).1 = tag at hpre
  cases tag with
  | none =>
    have hnil : [] = v.pre := Option.some.inj hpre
    rw [← hnil]
    nofun
  | some t => exact isProper_of_preOfChars? hpre

/-- A text that is read as a version has the characters of versions only. -/
lemma IsForeign.not_mem {x : Char} (hx : IsForeign x) (h : ofRelease? raw = some v) :
    x ∉ raw.toList := by
  intro hmem
  have hbare : x ∈ bare raw := by
    have htrim := hx.mem_trim hmem
    rw [bare]
    cases hv : afterFolded "v" (trim raw.toList) with
    | none => exact htrim
    | some r => exact hx.mem_afterFolded (by decide) hv htrim
  exact hx.not_mem_localLabel (ofRelease?_eq_some.mp h).1
    (hx.mem_afterPost (hx.mem_preTag (hx.mem_releaseNumbers _ (hx.mem_dropWhile hbare))))

end Read

/-! ### Numbers of releases -/

section Numbers

variable {ns : List ℕ}

/-- What a release may start with. -/
structure IsNumbers (ns : List ℕ) : Prop where
  ne_nil : ns ≠ []
  length_le : ns.length ≤ 3
  lt : ∀ n ∈ ns, n < wordLimit

/-- Numbers with dots between them. -/
def dotted (ns : List ℕ) : List Char := joinWith ['.'] (ns.map fun n => (toString n).toList)

lemma mem_dotted {x : Char} (h : x ∈ dotted ns) : x = '.' ∨ x.isDigit = true := by
  by_cases hdot : x = '.'
  · exact .inl hdot
  · rw [dotted, joinWith, mem_intercalate (by simpa using hdot)] at h
    obtain ⟨_, hmem, hx⟩ := h
    obtain ⟨n, -, rfl⟩ := List.mem_map.mp hmem
    exact .inr (isDigit_of_mem_toString hx)

lemma not_mem_dotted {x : Char} (hdot : x ≠ '.') (hdigit : x.isDigit = false) : x ∉ dotted ns := by
  intro h
  rcases mem_dotted h with h | h
  · exact hdot h
  · rw [hdigit] at h
    cases h

lemma isBlank_of_mem_dotted {x : Char} (h : x ∈ dotted ns) : isBlank x = false := by
  rcases mem_dotted h with rfl | hx
  · decide
  · exact isBlank_of_isWordChar (by simp [isWordChar, isDecimalDigit_of_isDigit hx])

lemma splitOn_dotted (hne : ns ≠ []) :
    (dotted ns).splitOn '.' = ns.map fun n => (toString n).toList := by
  refine List.splitOn_intercalate '.' (List.forall_mem_map.mpr fun n _ => ?_) (by simpa using hne)
  exact not_mem_toString (by decide) n

end Numbers

end ContractBuild.Version

import Mathlib
import ContractBuild.Proofs.Version.Precedence
import ContractBuild.Proofs.Version.Release
import ContractBuild.Version.Pin

/-!
The order of Python's versions, and what becomes of it when they are read: releases, alphas, betas
and candidates keep their places, and a development release comes after the alphas and betas that it
precedes.
-/

namespace ContractBuild.Version

open ContractBuild.Text

/-! ### Releases and the phases before them -/

/-- The phases of a release, in their order. -/
inductive Phase where
  | development
  | alpha
  | beta
  | candidate

namespace Phase

def rank : Phase → ℕ
  | development => 0
  | alpha => 1
  | beta => 2
  | candidate => 3

def spellings : Phase → List String
  | development => ["dev"]
  | alpha => ["a", "alpha"]
  | beta => ["b", "beta"]
  | candidate => ["rc", "c", "pre", "preview"]

/-- What every spelling is read as. -/
def tag : Phase → String
  | development => "dev"
  | alpha => "a"
  | beta => "b"
  | candidate => "rc"

/-- A development release and an alpha or a beta. -/
def clashes : Phase → Phase → Bool
  | development, alpha | development, beta | alpha, development | beta, development => true
  | _, _ => false

end Phase

/-- A release of up to three numbers, or a numbered step of a phase before it. -/
structure Edition where
  release : List ℕ
  step : Option (Phase × ℕ)

/-- The final release comes after all steps. -/
def compareSteps : Option (Phase × ℕ) → Option (Phase × ℕ) → Ordering
  | none, none => .eq
  | none, some _ => .gt
  | some _, none => .lt
  | some (p, m), some (q, n) => (Ord.compare p.rank q.rank).then (Ord.compare m n)

namespace Edition

/-- Numbers that are not written are zero. -/
def number (e : Edition) (i : ℕ) : ℕ := e.release[i]?.getD 0

def compareReleases (e f : Edition) : Ordering :=
  (Ord.compare (e.number 0) (f.number 0)).then <|
    (Ord.compare (e.number 1) (f.number 1)).then (Ord.compare (e.number 2) (f.number 2))

/-- The order of Python's versions. -/
def compare (e f : Edition) : Ordering := (e.compareReleases f).then (compareSteps e.step f.step)

/-- A development release and an alpha or a beta of the same release. -/
def clashes (e f : Edition) : Bool :=
  e.compareReleases f == .eq && (e.step.any fun p => f.step.any fun q => p.1.clashes q.1)

/-- What is read. -/
def version (e : Edition) : Version :=
  ⟨e.number 0, e.number 1, e.number 2,
    (e.step.map fun (p, n) => [.word p.tag, .number n]).getD []⟩

end Edition

/-- At most one separator. -/
def IsSeparation (sep : List Char) : Prop := sep.length ≤ 1 ∧ ∀ c ∈ sep, isSeparator c = true

inductive SpellsStep : List Char → Option (Phase × ℕ) → Prop where
  | final : SpellsStep [] none
  | before {p : Phase} {n : ℕ} {s : String} {sep word sep' : List Char} (hsep : IsSeparation sep)
      (hs : s ∈ p.spellings) (hword : word.map foldCase = s.toList) (hsep' : IsSeparation sep') :
      SpellsStep (sep ++ word ++ sep' ++ (toString n).toList) (some (p, n))

inductive Edition.Spells : List Char → Edition → Prop where
  | mk {e : Edition} {g v t g' : List Char} (hg : IsGap g) (hg' : IsGap g')
      (hv : v ∈ [[], ['v'], ['V']]) (he : IsNumbers e.release) (ht : SpellsStep t e.step) :
      Spells (g ++ (v ++ dotted e.release ++ t) ++ g') e

/-! ### Letters -/

section Letters

variable {c : Char} {s t : String} {word r : List Char}

/-- No letter of a word is a digit. -/
lemma isDecimalDigit_of_isLower (h : (foldCase c).isLower = true) : isDecimalDigit c = false := by
  by_contra hdigit
  rw [Bool.not_eq_false] at hdigit
  obtain ⟨range, hmem, hc⟩ := List.any_eq_true.mp hdigit
  have hranges : ∀ r ∈ decimalDigitRanges, r.2 < 65 ∨ 0x180 ≤ r.1 := by decide
  have hrange := hranges range hmem
  simp only [Bool.and_eq_true, decide_eq_true_eq] at hc
  rw [foldCase, if_neg (by omega), Char.isLower_toLower_eq_isAlpha] at h
  have hnat : c.toNat = c.val.toNat := rfl
  have hletters : 'A'.val.toNat = 65 ∧ 'Z'.val.toNat = 90 ∧ 'a'.val.toNat = 97 ∧
      'z'.val.toNat = 122 := by decide
  simp only [Char.isAlpha, Char.isUpper, Char.isLower, Bool.or_eq_true, Bool.and_eq_true,
    decide_eq_true_eq, ge_iff_le, UInt32.le_iff_toNat_le, ← hnat] at h
  omega

lemma isSeparator_of_isLower (h : (foldCase c).isLower = true) : isSeparator c = false := by
  by_contra hsep
  simp only [isSeparator, Bool.not_eq_false, Bool.or_eq_true, beq_iff_eq] at hsep
  rcases hsep with (rfl | rfl) | rfl <;> revert h <;> decide

lemma isLower_of_mem_tagSpellings (h : (s, t) ∈ tagSpellings) : ∀ c ∈ s.toList, c.isLower = true := by
  have hall : ∀ e ∈ tagSpellings, e.1.toList.all Char.isLower = true := by decide
  exact List.all_eq_true.mp (hall _ h)

lemma isLower_of_spells (h : (s, t) ∈ tagSpellings) (hword : word.map foldCase = s.toList) :
    ∀ c ∈ word, (foldCase c).isLower = true := by
  intro c hc
  refine isLower_of_mem_tagSpellings h _ ?_
  rw [← hword]
  exact List.mem_map_of_mem hc

lemma ne_nil_of_spells (h : (s, t) ∈ tagSpellings) (hword : word.map foldCase = s.toList) :
    word ≠ [] := by
  have hall : ∀ e ∈ tagSpellings, e.1.toList ≠ [] := by decide
  rintro rfl
  exact hall _ h hword.symm

/-- A word of letters in front of something else than letters is found in a longer one only. -/
lemma afterFolded_append {w : String} (hw : ∀ c ∈ w.toList, c.isLower = true)
    (hword : word.map foldCase = s.toList) (hr : ∀ c ∈ r.head?, (foldCase c).isLower = false) :
    afterFolded w (word ++ r) =
      if w.toList <+: s.toList then some ((word ++ r).drop w.length) else none := by
  have hstarts : ((word ++ r).take w.length).map foldCase = w.toList ↔ w.toList <+: s.toList := by
    rw [List.map_take, List.map_append, hword, ← String.length_toList, eq_comm,
      ← List.prefix_iff_eq_take]
    refine ⟨fun h => ?_, fun h => h.trans (List.prefix_append _ _)⟩
    rcases List.prefix_or_prefix_of_prefix h (List.prefix_append _ _) with h' | ⟨u, hu⟩
    · exact h'
    · rw [← hu, List.prefix_append_right_inj] at h
      rcases u with _ | ⟨x, u⟩
      · rw [← hu, List.append_nil]
      · -- the longer word goes on with what is no letter
        rcases r with _ | ⟨c, r⟩
        · simp at h
        · obtain rfl : x = foldCase c := (List.cons_prefix_cons.mp h).1
          have hlower := hw (foldCase c) (by rw [← hu]; simp)
          rw [hr c rfl] at hlower
          cases hlower
  rw [afterFolded]
  simp only [hstarts]

/-- The first spelling of a table that starts the word is found. -/
lemma findSome?_afterFolded {table : List (String × String)}
    (htable : ∀ e ∈ table, ∀ c ∈ e.1.toList, c.isLower = true)
    (hfind : table.find? (fun e => e.1.toList.isPrefixOf s.toList) = some (s, t))
    (hword : word.map foldCase = s.toList) (hr : ∀ c ∈ r.head?, (foldCase c).isLower = false) :
    table.findSome? (fun (w, tag) => (afterFolded w (word ++ r)).map fun r => (tag, r)) =
      some (t, r) := by
  induction table with
  | nil => cases hfind
  | cons e table ih =>
    obtain ⟨w, tag⟩ := e
    obtain ⟨hlower, htable⟩ := List.forall_mem_cons.mp htable
    rw [List.findSome?_cons]
    dsimp only
    rw [afterFolded_append hlower hword hr]
    by_cases hstarts : w.toList <+: s.toList
    · rw [List.find?_cons_of_pos (by simpa using hstarts)] at hfind
      obtain ⟨rfl, rfl⟩ := Prod.mk.inj (Option.some.inj hfind)
      have hlen : w.length = word.length := by
        rw [← String.length_toList, ← hword, List.length_map]
      rw [if_pos hstarts, hlen, List.drop_left]
      rfl
    · rw [List.find?_cons_of_neg (by simpa using hstarts)] at hfind
      rw [if_neg hstarts]
      exact ih htable hfind

lemma Phase.find?_spelling {p : Phase} (hs : s ∈ p.spellings) :
    tagSpellings.find? (fun e => e.1.toList.isPrefixOf s.toList) = some (s, p.tag) := by
  have hall : ∀ s ∈ p.spellings,
      tagSpellings.find? (fun e => e.1.toList.isPrefixOf s.toList) = some (s, p.tag) := by
    cases p <;> decide
  exact hall s hs

end Letters

/-! ### Reading -/

section Reading

variable {e : Edition} {step : Option (Phase × ℕ)} {n : ℕ} {ns : List ℕ} {t : List Char}

lemma isDecimalDigit_of_mem_toString {c : Char} (h : c ∈ (toString n).toList) :
    isDecimalDigit c = true := isDecimalDigit_of_isDigit (isDigit_of_mem_toString h)

lemma skipSeparator_append {sep r : List Char} (hsep : IsSeparation sep)
    (hr : ∀ c ∈ r.head?, isSeparator c = false) : skipSeparator (sep ++ r) = r := by
  obtain ⟨hlen, hall⟩ := hsep
  rcases sep with _ | ⟨c, _ | ⟨d, sep⟩⟩
  · rcases r with _ | ⟨c, r⟩
    · rfl
    · rw [List.nil_append, skipSeparator, hr c rfl, if_neg Bool.false_ne_true]
  · rw [List.singleton_append, skipSeparator, hall c List.mem_cons_self, if_pos rfl]
  · simp only [List.length_cons] at hlen
    omega

/-- What follows the numbers of a release. -/
structure EndsNumbers (t : List Char) : Prop where
  head : ∀ c ∈ t.head?, isDecimalDigit c = false
  point : ∀ r, t = '.' :: r → ∀ c ∈ r.head?, isDecimalDigit c = false

lemma isDecimalDigit_of_isSeparator {c : Char} (h : isSeparator c = true) :
    isDecimalDigit c = false := by
  simp only [isSeparator, Bool.or_eq_true, beq_iff_eq] at h
  rcases h with (rfl | rfl) | rfl <;> decide

/-- A word behind a separator ends the numbers of a release. -/
lemma endsNumbers_word {sep word : List Char} (hsep : IsSeparation sep) (hne : word ≠ [])
    (hword : ∀ c ∈ word, (foldCase c).isLower = true) (r : List Char) :
    EndsNumbers (sep ++ (word ++ r)) := by
  obtain ⟨x, word, rfl⟩ := List.exists_cons_of_ne_nil hne
  have hx := hword x List.mem_cons_self
  obtain ⟨hlen, hall⟩ := hsep
  rcases sep with _ | ⟨c, _ | ⟨d, sep⟩⟩
  · refine ⟨?_, ?_⟩
    · rintro c ⟨rfl⟩
      exact isDecimalDigit_of_isLower hx
    · intro r' heq
      obtain rfl : x = '.' := (List.cons.inj heq).1
      exact absurd (isSeparator_of_isLower hx) (by decide)
  · refine ⟨?_, ?_⟩
    · rintro c' ⟨rfl⟩
      exact isDecimalDigit_of_isSeparator (hall c List.mem_cons_self)
    · rintro r' heq c' hc'
      rw [← (List.cons.inj heq).2] at hc'
      obtain rfl : x = c' := Option.some.inj hc'
      exact isDecimalDigit_of_isLower hx
  · simp only [List.length_cons] at hlen
    omega

/-- A tag is read with the digits behind it, if there are any. -/
lemma preTag_word {p : Phase} {s : String} {sep word sep' ds : List Char}
    (hsep : IsSeparation sep) (hs : s ∈ p.spellings) (hword : word.map foldCase = s.toList)
    (hsep' : IsSeparation sep') (hds : ∀ c ∈ ds, isDecimalDigit c = true) :
    preTag (sep ++ word ++ sep' ++ ds) = (some (p.tag, ds), []) := by
  have hfind := Phase.find?_spelling hs
  have hmem : (s, p.tag) ∈ tagSpellings := List.mem_of_find?_eq_some hfind
  have hlower := isLower_of_spells hmem hword
  have hrest : ∀ c ∈ (sep' ++ ds).head?, (foldCase c).isLower = false := by
    intro c hc
    rw [Bool.eq_false_iff]
    intro h
    rcases List.mem_append.mp (List.mem_of_mem_head? hc) with hc | hc
    · exact absurd (hsep'.2 c hc) (by simp [isSeparator_of_isLower h])
    · exact absurd (hds c hc) (by simp [isDecimalDigit_of_isLower h])
  have hfound := findSome?_afterFolded (fun e he => isLower_of_mem_tagSpellings he) hfind hword
    hrest
  have hbody : skipSeparator (sep ++ word ++ sep' ++ ds) = word ++ (sep' ++ ds) := by
    rw [List.append_assoc, List.append_assoc]
    refine skipSeparator_append hsep fun c hc => ?_
    rw [List.head?_append_of_ne_nil _ (ne_nil_of_spells hmem hword)] at hc
    exact isSeparator_of_isLower (hlower c (List.mem_of_mem_head? hc))
  have hnumber : skipSeparator (sep' ++ ds) = ds := by
    refine skipSeparator_append hsep' fun c hc => ?_
    by_contra hc'
    have hdigit := hds c (List.mem_of_mem_head? hc)
    rw [isDecimalDigit_of_isSeparator (by simpa using hc')] at hdigit
    cases hdigit
  have htake : ds.takeWhile isDecimalDigit = ds := List.takeWhile_eq_self_iff.mpr hds
  rw [preTag]
  dsimp only
  rw [hbody, hfound]
  dsimp only
  rw [hnumber, htake, List.drop_length]

/-- The tag and the number of a step are read. -/
lemma preTag_spelled (ht : SpellsStep t step) :
    preTag t = (step.map fun (p, n) => (p.tag, (toString n).toList), []) := by
  cases ht with
  | final => decide
  | before hsep hs hword hsep' =>
    exact preTag_word hsep hs hword hsep' fun c hc => isDecimalDigit_of_mem_toString hc

/-- The numbers after the first one. -/
def furtherNumbers (ns : List ℕ) : List Char := ns.flatMap fun n => '.' :: (toString n).toList

lemma dotted_cons (n : ℕ) (ns : List ℕ) :
    dotted (n :: ns) = (toString n).toList ++ furtherNumbers ns := by
  induction ns generalizing n with
  | nil => simp [dotted, joinWith, furtherNumbers]
  | cons m ns ih =>
    have hcons : dotted (n :: m :: ns) = (toString n).toList ++ '.' :: dotted (m :: ns) := by
      simp [dotted, joinWith, List.intercalate_cons_cons]
    rw [hcons, ih]
    rfl

lemma isDecimalDigit_head_further (ht : EndsNumbers t) (ns : List ℕ) :
    ∀ c ∈ (furtherNumbers ns ++ t).head?, isDecimalDigit c = false := by
  cases ns with
  | nil => exact ht.head
  | cons n ns =>
    rintro c ⟨rfl⟩
    decide

/-- The numbers of a release are read up to what follows them. -/
lemma releaseNumbers_further (ht : EndsNumbers t) {fuel : ℕ} (hfuel : ns.length ≤ fuel) :
    releaseNumbers fuel (furtherNumbers ns ++ t) = (ns.map fun n => (toString n).toList, t) := by
  induction ns generalizing fuel with
  | nil =>
    cases fuel with
    | zero => rfl
    | succ fuel =>
      change releaseNumbers (fuel + 1) t = ([], t)
      unfold releaseNumbers
      split
      · next r =>
        have hnone : r.takeWhile isDecimalDigit = [] := by
          cases r with
          | nil => rfl
          | cons c r => exact List.takeWhile_cons_of_neg (by simp [ht.point _ rfl c rfl])
        rw [hnone]
        rfl
      · rfl
  | cons n ns ih =>
    obtain ⟨fuel, rfl⟩ : ∃ k, fuel = k + 1 :=
      Nat.exists_eq_add_one.mpr (lt_of_lt_of_le (Nat.succ_pos _) hfuel)
    have hhead := isDecimalDigit_head_further ht ns
    have htake := takeWhile_span (fun _ hc => isDecimalDigit_of_mem_toString (n := n) hc) hhead
    have hread := ih (Nat.le_of_succ_le_succ hfuel)
    have hne : (toString n).toList.isEmpty = false :=
      List.isEmpty_eq_false_iff.mpr (toString_ne_nil n)
    have hcons : furtherNumbers (n :: ns) ++ t =
        '.' :: ((toString n).toList ++ (furtherNumbers ns ++ t)) := by simp [furtherNumbers]
    rw [hcons, releaseNumbers]
    dsimp only
    rw [htake, hne, List.drop_left, hread]
    rfl

lemma endsNumbers_of_spells (ht : SpellsStep t step) : EndsNumbers t := by
  cases ht with
  | final => exact ⟨nofun, nofun⟩
  | @before p n s sep word sep' hsep hs hword hsep' =>
    have hmem : (s, p.tag) ∈ tagSpellings := List.mem_of_find?_eq_some (Phase.find?_spelling hs)
    rw [List.append_assoc, List.append_assoc]
    exact endsNumbers_word hsep (ne_nil_of_spells hmem hword) (isLower_of_spells hmem hword) _

/-- An edition neither starts nor ends with a blank. -/
lemma isSolid_edition {u : List Char} (hu : ∀ c ∈ u, isBlank c = false) (hne : u ≠ [])
    (ht : SpellsStep t step) : IsSolid (u ++ t) := by
  cases ht with
  | final =>
    rw [List.append_nil]
    exact isSolid_of_forall hu
  | @before p n s sep word sep' =>
    have hnumber : IsSolid (toString n).toList := isSolid_of_forall fun c hc =>
      isBlank_of_isWordChar (by simp [isWordChar, isDecimalDigit_of_mem_toString hc])
    have hsolid := (isSolid_of_forall hu).append hnumber hne (toString_ne_nil n) (sep ++ word ++ sep')
    simpa using hsolid

lemma afterFolded_digits (n : ℕ) (r : List Char) :
    afterFolded "v" ((toString n).toList ++ r) = none := by
  obtain ⟨d, ds, hcons, hd⟩ := exists_digit n
  rw [hcons, afterFolded, if_neg]
  intro h
  have hfold : foldCase d = 'v' := (List.cons.inj h).1
  have hdigit := isDecimalDigit_of_isLower (c := d) (by rw [hfold]; decide)
  rw [isDecimalDigit_of_isDigit hd] at hdigit
  cases hdigit

lemma Edition.Spells.bare {raw : String} (h : e.Spells raw.toList) :
    IsNumbers e.release ∧ ∃ t, SpellsStep t e.step ∧ bare raw = dotted e.release ++ t := by
  generalize htext : raw.toList = text at h
  obtain @⟨_, g, v, t, g', hg, hg', hv, he, ht⟩ := h
  refine ⟨he, t, ht, ?_⟩
  obtain ⟨n, ns, hns⟩ := List.exists_cons_of_ne_nil he.ne_nil
  have hletter : ∀ c ∈ v, isBlank c = false := by
    fin_cases hv <;> exact List.all_iff_forall_prop.mp (by decide)
  have hsolid : IsSolid (v ++ dotted e.release ++ t) := by
    refine isSolid_edition (fun c hc => ?_) ?_ ht
    · exact (List.mem_append.mp hc).elim (hletter c) isBlank_of_mem_dotted
    · simp [hns, dotted_cons]
  rw [Version.bare, htext, trim_solid hsolid hg hg', List.append_assoc]
  have hfirst : afterFolded "v" (dotted e.release ++ t) = none := by
    rw [hns, dotted_cons, List.append_assoc]
    exact afterFolded_digits n _
  fin_cases hv
  · rw [List.nil_append, hfirst]
    rfl
  · rfl
  · rfl

/-- The tag of a phase and its number as identifiers. -/
lemma preOfChars?_tag (p : Phase) (n : ℕ) :
    preOfChars? (p.tag.toList ++ '.' :: (toString n).toList) = some [.word p.tag, .number n] := by
  have htag : Identifier.ofChars? p.tag.toList = some (.word p.tag) := by
    cases p <;> decide
  have hpre : ∀ i ∈ [Identifier.word p.tag, .number n], i.IsProper := by
    simp only [List.forall_mem_cons, List.not_mem_nil, false_implies, implies_true, and_true]
    exact ⟨Identifier.isProper_of_ofChars? htag, trivial⟩
  have htext : (preText [.word p.tag, .number n]).toList ++ [] =
      p.tag.toList ++ '.' :: (toString n).toList := by
    rw [toList_preText]
    simp [Identifier.text, List.intercalate_cons_cons]
  have hread := preHead?_preText (r := []) hpre (List.cons_ne_nil _ _) (by simp)
  rw [htext] at hread
  rw [preOfChars?, hread]

lemma length_le_furtherNumbers (ns : List ℕ) : ns.length ≤ (furtherNumbers ns).length := by
  induction ns with
  | nil => exact Nat.zero_le _
  | cons n ns ih =>
    simp only [furtherNumbers, List.flatMap_cons, List.length_append, List.length_cons] at ih ⊢
    omega

/-- What numbers and a tag are read as. -/
lemma ofRelease?_of_bare {raw : String} {tag : Option (String × List Char)} {pre : PreRelease}
    (hns : IsNumbers ns) (hbare : bare raw = dotted ns ++ t) (hends : EndsNumbers t)
    (htag : preTag t = (tag, []))
    (hpre : (tag.map fun t => preOfChars? (t.1.toList ++ if t.2.isEmpty then [] else '.' :: t.2)).getD
      (some []) = some pre) :
    Version.ofRelease? raw = some ⟨ns[0]?.getD 0, ns[1]?.getD 0, ns[2]?.getD 0, pre⟩ := by
  obtain ⟨n, ns, rfl⟩ := List.exists_cons_of_ne_nil hns.ne_nil
  have hhead := isDecimalDigit_head_further hends ns
  have hdigits := fun c hc => isDecimalDigit_of_mem_toString (c := c) (n := n) hc
  have hword : ∀ {m : ℕ}, m ∈ n :: ns → wordOfDigits? (toString m).toList = some m := by
    intro m hm
    rw [wordOfDigits?_toString, if_pos (hns.lt m hm)]
  have hmore : ∀ i : ℕ, ((ns.map fun m => (toString m).toList)[i]?.map wordOfDigits?).getD (some 0) =
      some (ns[i]?.getD 0) := by
    intro i
    rw [List.getElem?_map]
    cases hi : ns[i]? with
    | none => rfl
    | some m => exact hword (List.mem_cons_of_mem n (List.mem_of_getElem? hi))
  rw [dotted_cons, List.append_assoc] at hbare
  have htake : (Version.bare raw).takeWhile isDecimalDigit = (toString n).toList := by
    rw [hbare, takeWhile_span hdigits hhead]
  have hdrop : (Version.bare raw).dropWhile isDecimalDigit = furtherNumbers ns ++ t := by
    rw [hbare, dropWhile_span hdigits hhead]
  have hfuel : ns.length ≤ (Version.bare raw).length := by
    have hlen := length_le_furtherNumbers ns
    rw [hbare, List.length_append, List.length_append]
    omega
  rw [ofRelease?_eq_some, htake, hdrop, releaseNumbers_further hends hfuel]
  dsimp only
  rw [htag]
  exact ⟨rfl, hword List.mem_cons_self, hmore 0, hmore 1, hpre⟩

/-- **What an edition is read as.** -/
lemma Edition.Spells.ofRelease? {raw : String} (h : e.Spells raw.toList) :
    Version.ofRelease? raw = some e.version := by
  obtain ⟨he, t, ht, hbare⟩ := h.bare
  refine ofRelease?_of_bare he hbare (endsNumbers_of_spells ht) (preTag_spelled ht) ?_
  obtain ⟨release, step⟩ := e
  cases step with
  | none => rfl
  | some p =>
    have hne : (toString p.2).toList.isEmpty = false :=
      List.isEmpty_eq_false_iff.mpr (toString_ne_nil p.2)
    simp only [Option.map_some, Option.getD_some, hne]
    exact preOfChars?_tag p.1 p.2

end Reading

/-! ### The order that is kept -/

section Order

variable {e f : Edition}

lemma comparePre_steps (p q : Option (Phase × ℕ)) :
    comparePre ((p.map fun (p, n) => [Identifier.word p.tag, .number n]).getD [])
        ((q.map fun (p, n) => [Identifier.word p.tag, .number n]).getD []) =
      if p.any fun p => q.any fun q => p.1.clashes q.1 then (compareSteps p q).swap
      else compareSteps p q := by
  rcases p with _ | ⟨p, m⟩ <;> rcases q with _ | ⟨q, n⟩
  · rfl
  · rfl
  · rfl
  · have hnumbers : compareIdentifiers [Identifier.number m] [.number n] = Ord.compare m n := by
      rw [compareIdentifiers, compareIdentifiers, Ordering.then_eq]
      rfl
    change (Ord.compare p.tag q.tag).then (compareIdentifiers [Identifier.number m] [.number n]) =
      if p.clashes q then ((Ord.compare p.rank q.rank).then (Ord.compare m n)).swap
      else (Ord.compare p.rank q.rank).then (Ord.compare m n)
    rw [hnumbers]
    cases p <;> cases q <;> rfl

lemma Edition.compare_version :
    e.version.compare f.version = if e.clashes f then (e.compare f).swap else e.compare f := by
  have hsteps := comparePre_steps e.step f.step
  have hversion : e.version.compare f.version =
      (e.compareReleases f).then (comparePre e.version.pre f.version.pre) := by
    rw [compareReleases, Ordering.then_assoc, Ordering.then_assoc]
    rfl
  rw [hversion, compare, clashes]
  cases e.compareReleases f with
  | eq => exact hsteps
  | lt | gt => rfl

/-- **The order of Python's versions is that of what is read**, except that a development release
comes after the alphas and betas of its release. No two versions fall into one. -/
theorem ofRelease?_orders {raw raw' : String} (h : e.Spells raw.toList) (h' : f.Spells raw'.toList) :
    ∃ v w, ofRelease? raw = some v ∧ ofRelease? raw' = some w ∧
      v.compare w = (if e.clashes f then (e.compare f).swap else e.compare f) ∧
      (v.compare w = .eq ↔ e.compare f = .eq) := by
  have hcompare : e.version.compare f.version =
      if e.clashes f then (e.compare f).swap else e.compare f := Edition.compare_version
  refine ⟨_, _, h.ofRelease?, h'.ofRelease?, hcompare, ?_⟩
  rw [hcompare]
  split_ifs
  · exact Ordering.swap_eq_eq
  · rfl

lemma isSeparation_nil : IsSeparation [] := ⟨by decide, nofun⟩

lemma isSeparation_singleton {c : Char} (h : isSeparator c = true) : IsSeparation [c] :=
  ⟨le_rfl, by simpa using h⟩

def firstDevelopment : Edition := ⟨[1, 0], some (.development, 1)⟩

def firstAlpha : Edition := ⟨[1, 0], some (.alpha, 1)⟩

lemma spells_firstDevelopment : firstDevelopment.Spells "1.0.dev1".toList := by
  have hstep : SpellsStep (['.'] ++ "dev".toList ++ [] ++ (toString 1).toList)
      (some (.development, 1)) :=
    .before (s := "dev") (isSeparation_singleton (by decide)) (by decide) (by decide)
      isSeparation_nil
  have hspells := Edition.Spells.mk (e := firstDevelopment) (v := []) isGap_nil isGap_nil (by decide)
    ⟨by decide, by decide, by decide⟩ hstep
  exact hspells

lemma spells_firstAlpha : firstAlpha.Spells "v1.0-Alpha_1".toList := by
  have hstep : SpellsStep (['-'] ++ "Alpha".toList ++ ['_'] ++ (toString 1).toList)
      (some (.alpha, 1)) :=
    .before (s := "alpha") (isSeparation_singleton (by decide)) (by decide) (by decide)
      (isSeparation_singleton (by decide))
  have hspells := Edition.Spells.mk (e := firstAlpha) (v := ['v']) isGap_nil isGap_nil (by decide)
    ⟨by decide, by decide, by decide⟩ hstep
  exact hspells

/-- A development release precedes the alphas of its release, and what it is read as comes after
what they are read as. -/
theorem ofRelease?_orders_development :
    firstDevelopment.Spells "1.0.dev1".toList ∧ firstAlpha.Spells "v1.0-Alpha_1".toList ∧
      firstDevelopment.compare firstAlpha = .lt ∧
      ∃ v w, ofRelease? "1.0.dev1" = some v ∧ ofRelease? "v1.0-Alpha_1" = some w ∧
        v.compare w = .gt := by
  obtain ⟨v, w, hv, hw, hcompare, -⟩ :=
    ofRelease?_orders spells_firstDevelopment spells_firstAlpha
  exact ⟨spells_firstDevelopment, spells_firstAlpha, by decide, v, w, hv, hw,
    hcompare.trans (by decide)⟩

/-- So a pin that asks for the first alpha or later lets the development release before it in. -/
theorem Pin.alpha_admits_development :
    ∃ pin, Pin.parse "base58" ">=1.0a1" = .ok pin ∧
      ∃ v, ofRelease? "1.0.dev1" = some v ∧ pin.isMet v = true := by
  refine ⟨⟨"base58", ">=1.0a1", ⟨[⟨.greaterEq, 1, some 0, some 0, [.word "a", .number 1]⟩]⟩⟩, ?_,
    ⟨1, 0, 0, [.word "dev", .number 1]⟩, ?_, ?_⟩ <;> decide +kernel

end Order

end ContractBuild.Version

import Mathlib
import ContractBuild.Proofs.Text.Outside
import ContractBuild.Python.Import

/-!
How import statements are spelled, and how their lists are read: the names that they give are those
that stand in them.

Blanks may stand around dots, commas and parentheses. The conditions on a `from` and on a header are
those under which they are found: blanks set the words of a `from` apart, its base is written
without blanks and starts with an ASCII letter or underscore, and spaces set aliases apart; a header
has to be one of those that are looked for, and its colon the first one outside brackets.
-/

namespace ContractBuild.Python

open ContractBuild.Text

/-! ### Spelling -/

/-- The characters of names: of those in ASCII letters, digits and the underscore, and of the others
all but blanks. -/
def isNameChar (c : Char) : Bool := c.isAlphanum || c == '_' || (127 < c.toNat && !isBlank c)

/-- A name, which is none of the keywords that stand in import statements. -/
structure IsName (n : List Char) : Prop where
  ne_nil : n ≠ []
  chars : ∀ c ∈ n, isNameChar c = true
  ne_as : n ≠ ['a', 's']
  ne_import : n ≠ "import".toList

/-- A dotted name, with blanks around its dots. -/
inductive SpellsDotted : List Char → List (List Char) → Prop where
  | name {n : List Char} (hn : IsName n) : SpellsDotted n [n]
  | dot {n g g' t : List Char} {ns : List (List Char)} (hn : IsName n) (hg : IsGap g)
      (hg' : IsGap g') (h : SpellsDotted t ns) : SpellsDotted (n ++ g ++ '.' :: (g' ++ t)) (n :: ns)

/-- An alias after a name, or none. Blanks set its keyword apart. -/
inductive SpellsAlias (around : List Char → List Char → Prop) : List Char → Prop where
  | none : SpellsAlias around []
  | some {g g' n : List Char} (hg : IsGap g) (hg' : IsGap g') (hne : g ≠ []) (hne' : g' ≠ [])
      (haround : around g g') (hn : IsName n) : SpellsAlias around (g ++ 'a' :: 's' :: (g' ++ n))

/-- The blanks next to the keyword are spaces. -/
def Spaced (g g' : List Char) : Prop := g.getLast? = some ' ' ∧ g'.head? = some ' '

/-- A module to import. -/
inductive SpellsModule : List Char → List Char → Prop where
  | mk {d a : List Char} {ns : List (List Char)} (hd : SpellsDotted d ns)
      (ha : SpellsAlias (fun _ _ => True) a) : SpellsModule (d ++ a) (joinWith ['.'] ns)

/-- A name to import from a module. -/
inductive SpellsMember : List Char → List Char → Prop where
  | mk {n a : List Char} (hn : IsName n) (ha : SpellsAlias Spaced a) : SpellsMember (n ++ a) n

/-- A list with commas. -/
inductive SpellsList (Item : List Char → List Char → Prop) :
    List Char → List (List Char) → Prop where
  | one {t n : List Char} (h : Item t n) : SpellsList Item t [n]
  | more {t n g g' r : List Char} {ns : List (List Char)} (h : Item t n) (hg : IsGap g)
      (hg' : IsGap g') (hr : SpellsList Item r ns) :
      SpellsList Item (t ++ g ++ ',' :: (g' ++ r)) (n :: ns)

/-- What a `from` imports: all, or a list, which may stand in parentheses and then end with a
comma. -/
inductive SpellsMembers : List Char → List (List Char) → Prop where
  | star : SpellsMembers ['*'] [['*']]
  | bare {t : List Char} {ns : List (List Char)} (h : SpellsList SpellsMember t ns) :
      SpellsMembers t ns
  | enclosed {g t g' : List Char} {ns : List (List Char)} (hg : IsGap g) (hg' : IsGap g')
      (h : SpellsList SpellsMember t ns) : SpellsMembers ('(' :: (g ++ t ++ g' ++ [')'])) ns
  | trailing {g t g' g'' : List Char} {ns : List (List Char)} (hg : IsGap g) (hg' : IsGap g')
      (hg'' : IsGap g'') (h : SpellsList SpellsMember t ns) :
      SpellsMembers ('(' :: (g ++ t ++ g' ++ ',' :: g'' ++ [')'])) ns

/-- The base of a `from` that is found: names with dots between them, of word characters, the first
one in ASCII. -/
structure IsBase (b : List Char) : Prop where
  names : ∃ ns, ns ≠ [] ∧ (∀ n ∈ ns, IsName n) ∧ b = joinWith ['.'] ns
  chars : ∀ c ∈ b, isWordChar c = true ∨ c = '.'
  first : ∀ c ∈ b.head?, isAsciiLetterOrUnderscore c = true

/-- An import statement: the modules that it names, or the names that it takes from one. -/
inductive Statement where
  | modules (names : List (List Char))
  | members (level : ℕ) (base : Option (List Char)) (names : List (List Char))

/-- The imports that a statement stands for. -/
def Statement.imports (line : ℕ) : Statement → List Import
  | .modules ns => ns.map fun n => .whole line (String.ofList n)
  | .members level base ns =>
    [.names line level (base.map String.ofList) (ns.map String.ofList)]

/-- **The spellings of import statements** that are found. -/
inductive Spells : List Char → Statement → Prop where
  | modules {g t : List Char} {ns : List (List Char)} (hg : IsGap g) (hne : g ≠ [])
      (h : SpellsList SpellsModule t ns) : Spells ("import".toList ++ (g ++ t)) (.modules ns)
  | based {g₁ g₂ b g₃ g₄ t : List Char} {ns : List (List Char)} (level : ℕ) (hg₁ : IsGap g₁)
      (hne₁ : g₁ ≠ []) (hg₂ : IsGap g₂) (hb : IsBase b) (hg₃ : IsGap g₃) (hne₃ : g₃ ≠ [])
      (hg₄ : IsGap g₄) (hne₄ : g₄ ≠ []) (h : SpellsMembers t ns) :
      Spells ("from".toList ++ (g₁ ++ (List.replicate level '.' ++ (g₂ ++ (b ++ (g₃ ++
        ("import".toList ++ (g₄ ++ t)))))))) (.members level (some b) ns)
  | relative {g₁ g₂ g₃ t : List Char} {ns : List (List Char)} (level : ℕ) (hg₁ : IsGap g₁)
      (hne₁ : g₁ ≠ []) (hg₂ : IsGap g₂) (hne₂ : g₂ ≠ []) (hg₃ : IsGap g₃) (hne₃ : g₃ ≠ [])
      (h : SpellsMembers t ns) :
      Spells ("from".toList ++ (g₁ ++ (List.replicate (level + 1) '.' ++ (g₂ ++
        ("import".toList ++ (g₃ ++ t)))))) (.members (level + 1) none ns)

/-- A header before its colon: one of the keywords that are looked for, and no other colon outside
brackets. -/
structure IsHeader (h : List Char) : Prop where
  keyword : ∃ k ∈ Import.compoundKeywords, ∃ r, h = k.toList ++ r ∧
    ∀ c ∈ r.head?, isLetterOrNumber c = false ∧ c ≠ '_'
  colons : ∀ p q, h = p ++ ':' :: q → 0 < p.foldl depthAfter 0
  closed : h.foldl depthAfter 0 = 0

/-- A line with an import statement: the statement itself, or a compound statement with it. -/
inductive Carries (s : Statement) : List Char → Prop where
  | alone {t : List Char} (h : Spells t s) : Carries s t
  | inline {h g t : List Char} (hh : IsHeader h) (hg : IsGap g) (hs : Spells t s) :
      Carries s (h ++ ':' :: (g ++ t))

/-! ### Characters -/

section Characters

variable {c : Char} {n r : List Char}

lemma isBlank_of_isNameChar (h : isNameChar c = true) : isBlank c = false := by
  simp only [isNameChar, Char.isAlphanum, Char.isAlpha, Char.isUpper, Char.isLower, Char.isDigit,
    Bool.or_eq_true, Bool.and_eq_true, decide_eq_true_eq, beq_iff_eq, Bool.not_eq_true',
    ge_iff_le, UInt32.le_iff_toNat_le] at h
  rcases h with (h | rfl) | h
  · have hnat : c.toNat = c.val.toNat := rfl
    simp only [isBlank, inRanges, blankRanges, List.any_cons, List.any_nil, Bool.or_false,
      Bool.or_eq_false_iff, Bool.and_eq_false_iff, decide_eq_false_iff_not, hnat]
    change (65 ≤ c.val.toNat ∧ c.val.toNat ≤ 90 ∨ 97 ≤ c.val.toNat ∧ c.val.toNat ≤ 122) ∨
      48 ≤ c.val.toNat ∧ c.val.toNat ≤ 57 at h
    omega
  · decide
  · exact h.2

/-- A character of an item of a list. -/
def IsItemChar (c : Char) : Prop := isNameChar c = true ∨ isBlank c = true ∨ c = '.'

lemma IsItemChar.ne (h : IsItemChar c) {x : Char} (hname : isNameChar x = false)
    (hblank : isBlank x = false) (hdot : x ≠ '.') : c ≠ x := by
  rintro rfl
  rcases h with h | h | h
  · rw [hname] at h
    cases h
  · rw [hblank] at h
    cases h
  · exact hdot h

lemma IsItemChar.isOpening (h : IsItemChar c) : isOpening c = false := by
  have h₁ : c ≠ '(' := h.ne (by decide) (by decide) (by decide)
  have h₂ : c ≠ '[' := h.ne (by decide) (by decide) (by decide)
  have h₃ : c ≠ '\x7b' := h.ne (by decide) (by decide) (by decide)
  simp [Text.isOpening, h₁, h₂, h₃]

lemma IsItemChar.isClosing (h : IsItemChar c) : isClosing c = false := by
  have h₁ : c ≠ ')' := h.ne (by decide) (by decide) (by decide)
  have h₂ : c ≠ ']' := h.ne (by decide) (by decide) (by decide)
  have h₃ : c ≠ '\x7d' := h.ne (by decide) (by decide) (by decide)
  simp [Text.isClosing, h₁, h₂, h₃]

lemma IsName.isSolid (h : IsName n) : IsSolid n :=
  isSolid_of_forall fun c hc => isBlank_of_isNameChar (h.chars c hc)

lemma IsName.not_mem (h : IsName n) {x : Char} (hx : isNameChar x = false) : x ∉ n := by
  intro hmem
  rw [h.chars x hmem] at hx
  cases hx

/-- A name is a whole word. -/
lemma IsName.eq_of_append (h : IsName n) (hr : ∀ c ∈ r.head?, isNameChar c = false)
    {w z : List Char} {b : Char} (hw : ∀ c ∈ w, isNameChar c = true) (hb : isNameChar b = false)
    (heq : w ++ b :: z = n ++ r) : n = w := by
  have hleft : (w ++ b :: z).takeWhile isNameChar = w := takeWhile_span hw (by simpa using hb)
  rw [← takeWhile_span h.chars hr, ← heq, hleft]

end Characters

/-! ### Dotted names -/

section Dotted

variable {d g h r y : List Char} {ns : List (List Char)}

lemma isNameChar_of_isBlank {c : Char} (hc : isBlank c = true) : isNameChar c = false := by
  by_contra hname
  rw [isBlank_of_isNameChar (Bool.not_eq_false _ ▸ hname)] at hc
  cases hc

lemma SpellsDotted.chars (hd : SpellsDotted d ns) : ∀ c ∈ d, IsItemChar c := by
  induction hd with
  | name hn => exact fun c hc => .inl (hn.chars c hc)
  | dot hn hg hg' _ ih =>
    intro c hc
    simp only [List.mem_append, List.mem_cons] at hc
    rcases hc with (hc | hc) | rfl | hc | hc
    · exact .inl (hn.chars c hc)
    · exact .inr (.inl (hg c hc))
    · exact .inr (.inr rfl)
    · exact .inr (.inl (hg' c hc))
    · exact ih c hc

lemma SpellsDotted.ne_nil (hd : SpellsDotted d ns) : d ≠ [] := by
  cases hd with
  | name hn => exact hn.ne_nil
  | dot hn => simp

lemma SpellsDotted.isSolid (hd : SpellsDotted d ns) : IsSolid d := by
  induction hd with
  | name hn => exact hn.isSolid
  | @dot n g g' t ns hn hg hg' ht ih =>
    have hsolid := hn.isSolid.append ih hn.ne_nil ht.ne_nil (g ++ '.' :: g')
    simpa using hsolid

/-- A dotted name starts with a name and goes on with a dot or a blank. -/
lemma SpellsDotted.exists_name (hd : SpellsDotted d ns)
    (hr : ∀ c ∈ r.head?, isNameChar c = false) : ∃ n r', IsName n ∧ d ++ r = n ++ r' ∧
      ∀ c ∈ r'.head?, isNameChar c = false := by
  cases hd with
  | name hn => exact ⟨d, r, hn, rfl, hr⟩
  | @dot n g g' t ns hn hg hg' ht =>
    refine ⟨n, g ++ ('.' :: (g' ++ t) ++ r), hn, by simp, ?_⟩
    refine forall_head?_append (fun c hc => ?_) (forall_head?_cons (by decide))
    exact isNameChar_of_isBlank (hg c (List.mem_of_mem_head? hc))

lemma SpellsDotted.not_prefix (hd : SpellsDotted d ns)
    (hr : ∀ c ∈ r.head?, isNameChar c = false) : ¬ "as ".toList <+: d ++ r := by
  rintro ⟨z, hz⟩
  obtain ⟨n, r', hn, heq, hr'⟩ := hd.exists_name hr
  exact hn.ne_as (hn.eq_of_append hr' (w := ['a', 's']) (b := ' ') (z := z) (by simp [isNameChar])
    (by decide) (hz.trans heq))

/-- No alias stands within a dotted name. -/
lemma SpellsDotted.skipsAlias (hd : SpellsDotted d ns)
    (hr : ∀ c ∈ r.head?, isNameChar c = false) : SkipsAlias d r := by
  induction hd with
  | name hn => exact skipsAlias_of_not_mem (hn.not_mem (by decide))
  | @dot n g g' t ns hn hg hg' ht ih =>
    have hdot : SkipsAlias g ('.' :: (g' ++ t) ++ r) := by
      refine skipsAlias_gap hg (.inl fun hpre => ?_)
      exact absurd (List.cons_prefix_cons.mp hpre).1 (by decide)
    have htail : SkipsAlias (['.'] ++ (g' ++ t)) r := by
      refine SkipsAlias.append (skipsAlias_of_not_mem (by decide)) (SkipsAlias.append ?_ ih)
      exact skipsAlias_gap hg' (.inl (ht.not_prefix hr))
    exact SkipsAlias.append (SkipsAlias.append (skipsAlias_of_not_mem (hn.not_mem (by decide)))
      (by simpa using hdot)) htail

/-- The names between the dots. -/
lemma SpellsDotted.split (hd : SpellsDotted d ns) (hh : IsGap h) (hg : IsGap g) :
    ((h ++ d ++ g).splitOn '.').map trim = ns := by
  induction hd generalizing h with
  | @name n hn =>
    have hdot : '.' ∉ h ++ n ++ g := by
      simp [hh.not_mem (x := '.') (by decide), hg.not_mem (x := '.') (by decide),
        hn.not_mem (x := '.') (by decide)]
    rw [splitOn_of_not_mem hdot, List.map_singleton, trim_solid hn.isSolid hh hg]
  | @dot n g₁ g₂ t ns hn hg₁ hg₂ ht ih =>
    have hdot : '.' ∉ h ++ n ++ g₁ := by
      simp [hh.not_mem (x := '.') (by decide), hg₁.not_mem (x := '.') (by decide),
        hn.not_mem (x := '.') (by decide)]
    have heq : h ++ (n ++ g₁ ++ '.' :: (g₂ ++ t)) ++ g =
        (h ++ n ++ g₁) ++ '.' :: (g₂ ++ t ++ g) := by
      simp
    rw [heq, splitOn_append, splitOn_of_not_mem hdot, List.map_append, List.map_singleton,
      trim_solid hn.isSolid hh hg₁, ih hg₂]
    rfl

lemma SpellsDotted.normalizeDotted (hd : SpellsDotted d ns) (hg : IsGap g) :
    Import.normalizeDotted (d ++ g) = joinWith ['.'] ns := by
  rw [Import.normalizeDotted, ← hd.split isGap_nil hg]
  rfl

/-- What follows a dotted name after a blank stays with its last part. -/
lemma SpellsDotted.exists_blank (hd : SpellsDotted d ns) (hh : IsGap h) {c : Char}
    (hc : isBlank c = true) {m n : List Char} (hm : '.' ∉ m) (hn : IsName n) :
    ∃ p ∈ ((h ++ d ++ (c :: m ++ n)).splitOn '.').map trim, c ∈ p := by
  have hcdot : '.' ∉ c :: m ++ n := by
    have hc' : '.' ≠ c := by
      rintro rfl
      revert hc
      decide
    simp [hc', hm, hn.not_mem (x := '.') (by decide)]
  induction hd generalizing h with
  | @name n' hn' =>
    have hdot : '.' ∉ h ++ (n' ++ (c :: m) ++ n) ++ [] := by
      have hh' := hh.not_mem (x := '.') (by decide)
      have hn'' := hn'.not_mem (x := '.') (by decide)
      simp_all
    have heq : h ++ n' ++ (c :: m ++ n) = h ++ (n' ++ (c :: m) ++ n) ++ [] := by simp
    refine ⟨n' ++ (c :: m) ++ n, ?_, by simp⟩
    rw [heq, splitOn_of_not_mem hdot, List.map_singleton,
      trim_solid (hn'.isSolid.append hn.isSolid hn'.ne_nil hn.ne_nil _) hh isGap_nil]
    exact List.mem_singleton_self _
  | @dot n' g₁ g₂ t ns hn' hg₁ hg₂ ht ih =>
    obtain ⟨p, hp, hmem⟩ := ih hg₂
    have heq : h ++ (n' ++ g₁ ++ '.' :: (g₂ ++ t)) ++ (c :: m ++ n) =
        (h ++ n' ++ g₁) ++ '.' :: (g₂ ++ t ++ (c :: m ++ n)) := by
      simp
    refine ⟨p, ?_, hmem⟩
    rw [heq, splitOn_append, List.map_append]
    exact List.mem_append_right _ hp

end Dotted

/-! ### Aliases -/

section Aliases

variable {around : List Char → List Char → Prop} {a d g g' n : List Char} {ns : List (List Char)}

lemma SpellsAlias.chars (ha : SpellsAlias around a) : ∀ c ∈ a, IsItemChar c := by
  cases ha with
  | none => nofun
  | some hg hg' _ _ _ hn =>
    intro c hc
    simp only [List.mem_append, List.mem_cons] at hc
    rcases hc with hc | rfl | rfl | hc | hc
    · exact .inr (.inl (hg c hc))
    · exact .inl (by decide)
    · exact .inl (by decide)
    · exact .inr (.inl (hg' c hc))
    · exact .inl (hn.chars c hc)

lemma SpellsAlias.head (ha : SpellsAlias around a) : ∀ c ∈ a.head?, isNameChar c = false := by
  cases ha with
  | none => nofun
  | @some g g' n hg hg' hne =>
    intro c hc
    rw [List.head?_append_of_ne_nil _ hne] at hc
    exact isNameChar_of_isBlank (hg c (List.mem_of_mem_head? hc))

lemma SpellsAlias.isSolid (ha : SpellsAlias around a) (hd : IsSolid d) (hne : d ≠ []) :
    IsSolid (d ++ a) := by
  cases ha with
  | none => simpa using hd
  | @some g g' n hg hg' _ _ _ hn =>
    have hsolid := hd.append hn.isSolid hne hn.ne_nil (g ++ 'a' :: 's' :: g')
    simpa using hsolid

/-- The cut falls in the blanks before the keyword if spaces set it apart. -/
lemma splitOnce_spaced (hg : IsGap g) (h : Spaced g g') : ∃ g₀ z, IsGap g₀ ∧
    splitOnce " as ".toList (g ++ 'a' :: 's' :: (g' ++ n)) = some (g₀, z) := by
  obtain ⟨g₀, rfl⟩ := List.getLast?_eq_some_iff.mp h.1
  obtain ⟨g₁, rfl⟩ := List.head?_eq_some_iff.mp h.2
  have hg₀ : IsGap g₀ := fun c hc => hg c (List.mem_append_left _ hc)
  have hskip : SkipsAlias g₀ (' ' :: 'a' :: 's' :: ' ' :: (g₁ ++ n)) := by
    refine skipsAlias_gap hg₀ (.inl fun hpre => ?_)
    exact absurd (List.cons_prefix_cons.mp hpre).1 (by decide)
  refine ⟨g₀, g₁ ++ n, hg₀, ?_⟩
  have hcut : splitOnce " as ".toList (' ' :: 'a' :: 's' :: ' ' :: (g₁ ++ n)) =
      some ([], g₁ ++ n) := by
    simp [splitOnce, List.isPrefixOf?]
  have heq : g₀ ++ [' '] ++ 'a' :: 's' :: (' ' :: g₁ ++ n) =
      g₀ ++ (' ' :: 'a' :: 's' :: ' ' :: (g₁ ++ n)) := by
    simp
  rw [heq, hskip, hcut]
  simp

/-- There is no cut if another blank does. -/
lemma splitOnce_not_spaced (hg : IsGap g) (hg' : IsGap g') (hne' : g' ≠ []) (hn : IsName n)
    (h : ¬ Spaced g g') :
    splitOnce " as ".toList (g ++ 'a' :: 's' :: (g' ++ n)) = none := by
  have hblank : ' ' ∉ n := hn.not_mem (by decide)
  have hgap : SkipsAlias g (['a', 's'] ++ (g' ++ n)) := by
    refine skipsAlias_gap hg ?_
    by_contra hboth
    rw [not_or, not_not, not_not] at hboth
    obtain ⟨hpre, hlast⟩ := hboth
    obtain ⟨x, g₁, rfl⟩ := List.exists_cons_of_ne_nil hne'
    have hx := (List.cons_prefix_cons.mp (List.cons_prefix_cons.mp (List.cons_prefix_cons.mp
      hpre).2).2).1
    exact h ⟨hlast, by rw [← hx]; rfl⟩
  have hword : SkipsAlias ['a', 's'] (g' ++ n) := skipsAlias_of_not_mem (by decide)
  have hgap' : SkipsAlias g' n := by
    refine skipsAlias_gap hg' (.inl fun hpre => hblank ?_)
    exact hpre.subset (by decide)
  have hname : SkipsAlias n [] := skipsAlias_of_not_mem hblank
  have hnone : splitOnce " as ".toList n = none := by
    rw [← List.append_nil n, hname]
    rfl
  rw [show 'a' :: 's' :: (g' ++ n) = ['a', 's'] ++ (g' ++ n) from rfl, hgap, hword, hgap', hnone]
  rfl

/-- An item is its name if spaces set its alias apart. -/
lemma withoutAlias_of_spaced (hd : SpellsDotted d ns) (ha : SpellsAlias Spaced a) (hg : IsGap g)
    (hg' : IsGap g') : Import.withoutAlias (g ++ (d ++ a) ++ g') = joinWith ['.'] ns := by
  have hskip := hd.skipsAlias ha.head
  rw [Import.withoutAlias, trim_solid (ha.isSolid hd.isSolid hd.ne_nil) hg hg']
  cases ha with
  | none =>
    rw [hskip]
    simpa [splitOnce] using hd.normalizeDotted isGap_nil
  | @some g₁ g₂ n hg₁ hg₂ _ _ hspaced hn =>
    obtain ⟨g₀, z, hg₀, hcut⟩ := splitOnce_spaced (n := n) hg₁ hspaced
    rw [hskip, hcut]
    exact hd.normalizeDotted hg₀

lemma isDottedName_normalizeDotted (x : List Char) :
    Import.isDottedName (Import.normalizeDotted x) =
      ((x.splitOn '.').map trim).all isIdentifier := by
  rw [Import.isDottedName, Import.normalizeDotted, joinWith, List.splitOn_intercalate]
  · intro p hp
    obtain ⟨p', hp', rfl⟩ := List.mem_map.mp hp
    exact fun hdot => not_mem_of_mem_splitOn hp' (mem_of_mem_trim hdot)
  · simp

/-- An item whose alias is set apart otherwise is no dotted name. -/
lemma isDottedName_of_not_spaced (hd : SpellsDotted d ns) {g₁ g₂ : List Char} (hg₁ : IsGap g₁)
    (hg₂ : IsGap g₂) (hne₁ : g₁ ≠ []) (hne₂ : g₂ ≠ []) (hn : IsName n) (h : ¬ Spaced g₁ g₂)
    (hg : IsGap g) (hg' : IsGap g') : Import.isDottedName
      (Import.withoutAlias (g ++ (d ++ (g₁ ++ 'a' :: 's' :: (g₂ ++ n))) ++ g')) = false := by
  have ha : SpellsAlias (fun _ _ => True) (g₁ ++ 'a' :: 's' :: (g₂ ++ n)) :=
    .some hg₁ hg₂ hne₁ hne₂ trivial hn
  rw [Import.withoutAlias, trim_solid (ha.isSolid hd.isSolid hd.ne_nil) hg hg',
    hd.skipsAlias ha.head, splitOnce_not_spaced hg₁ hg₂ hne₂ hn h, Option.map_none,
    Option.map_none, Option.getD_none, isDottedName_normalizeDotted]
  obtain ⟨c, g₀, rfl⟩ := List.exists_cons_of_ne_nil hne₁
  have hm : '.' ∉ g₀ ++ 'a' :: 's' :: g₂ := by
    have hg₀ := hg₁.not_mem (x := '.') (by decide)
    have hg₂' := hg₂.not_mem (x := '.') (by decide)
    simp_all
  obtain ⟨p, hp, hmem⟩ := hd.exists_blank isGap_nil (hg₁ c List.mem_cons_self) hm hn
  refine List.all_eq_false.mpr ⟨p, by simpa using hp, fun hident => ?_⟩
  have hblank := isBlank_of_isIdentifier hident c hmem
  rw [hg₁ c List.mem_cons_self] at hblank
  cases hblank

/-- An item of an `import` is the name of its module, or no name at all. -/
lemma SpellsModule.withoutAlias {y name : List Char} (hy : SpellsModule y name) (hg : IsGap g)
    (hg' : IsGap g')
    (h : Import.isDottedName (Import.withoutAlias (g ++ y ++ g')) = true) :
    Import.withoutAlias (g ++ y ++ g') = name := by
  obtain ⟨hd, ha⟩ := hy
  cases ha with
  | none => exact withoutAlias_of_spaced hd .none hg hg'
  | @some g₁ g₂ n hg₁ hg₂ hne₁ hne₂ _ hn =>
    by_cases hspaced : Spaced g₁ g₂
    · exact withoutAlias_of_spaced hd (.some hg₁ hg₂ hne₁ hne₂ hspaced hn) hg hg'
    · rw [isDottedName_of_not_spaced hd hg₁ hg₂ hne₁ hne₂ hn hspaced hg hg'] at h
      cases h

lemma SpellsMember.withoutAlias {y name : List Char} (hy : SpellsMember y name) (hg : IsGap g)
    (hg' : IsGap g') : Import.withoutAlias (g ++ y ++ g') = name := by
  obtain ⟨hn, ha⟩ := hy
  rw [withoutAlias_of_spaced (.name hn) ha hg hg']
  simp [joinWith]

end Aliases

/-! ### Lists -/

section Lists

variable {Item : List Char → List Char → Prop} {t g g' h e : List Char} {ns : List (List Char)}

/-- A part of a list: an item among blanks. -/
def IsPart (Item : List Char → List Char → Prop) (x n : List Char) : Prop :=
  ∃ g y g', IsGap g ∧ IsGap g' ∧ Item y n ∧ x = g ++ y ++ g'

lemma isItemChar_of_gap (hg : IsGap g) : ∀ c ∈ g, IsItemChar c := fun c hc => .inr (.inl (hg c hc))

lemma isItemChar_among (hg : IsGap g) (hg' : IsGap g') (ht : ∀ c ∈ t, IsItemChar c) :
    ∀ c ∈ g ++ t ++ g', IsItemChar c := by
  simp only [List.mem_append]
  rintro c ((hc | hc) | hc)
  · exact isItemChar_of_gap hg c hc
  · exact ht c hc
  · exact isItemChar_of_gap hg' c hc

lemma splitTop_items {u : List Char} (hu : ∀ c ∈ u, IsItemChar c) : splitTop ',' u = [u] := by
  refine splitTop_of_outside (not_mem_outside fun hmem => ?_)
  exact (hu _ hmem).ne (by decide) (by decide) (by decide) rfl

/-- A list is cut into its items. -/
lemma SpellsList.split (hl : SpellsList Item t ns)
    (hitem : ∀ y n, Item y n → ∀ c ∈ y, IsItemChar c) (hh : IsGap h) (he : IsGap e) :
    List.Forall₂ (IsPart Item) (splitTop ',' (h ++ t ++ e)) ns := by
  induction hl generalizing h with
  | @one t n ht =>
    rw [splitTop_items (isItemChar_among hh he (hitem t n ht))]
    exact .cons ⟨h, t, e, hh, he, ht, rfl⟩ .nil
  | @more t n g g' r ns ht hg hg' _ ih =>
    have hchars := isItemChar_among hh hg (hitem t n ht)
    have hclosed : IsClosed (h ++ t ++ g) :=
      isClosed_of_forall fun c hc => ⟨(hchars c hc).isOpening, (hchars c hc).isClosing⟩
    have heq : h ++ (t ++ g ++ ',' :: (g' ++ r)) ++ e = (h ++ t ++ g) ++ ',' :: (g' ++ r ++ e) := by
      simp
    rw [heq, hclosed.splitTop_append (by decide), splitTop_items hchars]
    exact .cons ⟨h, t, g, hh, hg, ht, rfl⟩ (ih hg')

lemma SpellsModule.chars {y n : List Char} (hy : SpellsModule y n) : ∀ c ∈ y, IsItemChar c := by
  obtain ⟨hd, ha⟩ := hy
  intro c hc
  exact (List.mem_append.mp hc).elim (hd.chars c) (ha.chars c)

lemma SpellsMember.chars {y n : List Char} (hy : SpellsMember y n) : ∀ c ∈ y, IsItemChar c := by
  obtain ⟨hn, ha⟩ := hy
  intro c hc
  exact (List.mem_append.mp hc).elim (fun hc => .inl (hn.chars c hc)) (ha.chars c)

/-- The modules of an `import`, if they are all names. -/
lemma SpellsList.modules (hl : SpellsList SpellsModule t ns)
    (h : ((splitTop ',' t).map Import.withoutAlias).all Import.isDottedName = true) :
    (splitTop ',' t).map Import.withoutAlias = ns := by
  have hparts := hl.split (fun _ _ => SpellsModule.chars) isGap_nil isGap_nil
  rw [List.nil_append, List.append_nil] at hparts
  clear hl
  generalize splitTop ',' t = xs at h hparts ⊢
  induction hparts with
  | nil => rfl
  | cons hpart _ ih =>
    obtain ⟨g, y, g', hg, hg', hy, rfl⟩ := hpart
    rw [List.map_cons, List.all_cons, Bool.and_eq_true] at h
    rw [List.map_cons, hy.withoutAlias hg hg' h.1, ih h.2]

lemma map_withoutAlias {xs : List (List Char)} (h : List.Forall₂ (IsPart SpellsMember) xs ns) :
    xs.map Import.withoutAlias = ns := by
  induction h with
  | nil => rfl
  | cons hpart _ ih =>
    obtain ⟨g, y, g', hg, hg', hy, rfl⟩ := hpart
    rw [List.map_cons, hy.withoutAlias hg hg', ih]

lemma SpellsList.ne_nil (hl : SpellsList SpellsMember t ns) : ∀ n ∈ ns, n ≠ [] := by
  induction hl with
  | one h =>
    obtain ⟨hn, -⟩ := h
    simpa using hn.ne_nil
  | more h _ _ _ ih =>
    obtain ⟨hn, -⟩ := h
    exact List.forall_mem_cons.mpr ⟨hn.ne_nil, ih⟩

lemma SpellsList.isSolid (hl : SpellsList Item t ns)
    (hitem : ∀ y n, Item y n → IsSolid y ∧ y ≠ []) : IsSolid t ∧ t ≠ [] := by
  induction hl with
  | one h => exact hitem _ _ h
  | @more t n g g' r ns h hg hg' _ ih =>
    obtain ⟨hsolid, hne⟩ := hitem _ _ h
    have happend := hsolid.append ih.1 hne ih.2 (g ++ ',' :: g')
    exact ⟨by simpa using happend, by simp⟩

lemma SpellsMember.isSolid {y n : List Char} (hy : SpellsMember y n) : IsSolid y ∧ y ≠ [] := by
  obtain ⟨hn, ha⟩ := hy
  exact ⟨ha.isSolid hn.isSolid hn.ne_nil, by simp [hn.ne_nil]⟩

lemma SpellsModule.isSolid {y n : List Char} (hy : SpellsModule y n) : IsSolid y ∧ y ≠ [] := by
  obtain ⟨hd, ha⟩ := hy
  exact ⟨ha.isSolid hd.isSolid hd.ne_nil, by simp [hd.ne_nil]⟩

lemma SpellsList.brackets (hl : SpellsList SpellsMember t ns) :
    ∀ c ∈ t, isOpening c = false ∧ isClosing c = false := by
  have hitem : ∀ {c}, IsItemChar c → isOpening c = false ∧ isClosing c = false :=
    fun h => ⟨h.isOpening, h.isClosing⟩
  induction hl with
  | one h => exact fun c hc => hitem (h.chars c hc)
  | more h hg hg' _ ih =>
    simp only [List.mem_append, List.mem_cons]
    rintro c ((hc | hc) | rfl | hc | hc)
    · exact hitem (h.chars c hc)
    · exact hitem (isItemChar_of_gap hg c hc)
    · decide
    · exact hitem (isItemChar_of_gap hg' c hc)
    · exact ih c hc

/-- The names of a list, among blanks. -/
def namesIn (inner : List Char) : List (List Char) :=
  ((splitTop ',' inner).map Import.withoutAlias).filter (!·.isEmpty)

lemma filter_names (hl : SpellsList SpellsMember t ns) : ns.filter (!·.isEmpty) = ns := by
  rw [List.filter_eq_self]
  intro n hn
  simpa using hl.ne_nil n hn

lemma SpellsList.namesIn (hl : SpellsList SpellsMember t ns) (hg : IsGap g) (hg' : IsGap g') :
    namesIn (g ++ t ++ g') = ns := by
  rw [Python.namesIn, map_withoutAlias (hl.split (fun _ _ => SpellsMember.chars) hg hg'),
    filter_names hl]

lemma withoutAlias_gap (hg : IsGap g) : Import.withoutAlias g = [] := by
  rw [Import.withoutAlias, trim_gap hg]
  decide

/-- A comma at the end adds nothing. -/
lemma SpellsList.namesIn_trailing (hl : SpellsList SpellsMember t ns) (hg : IsGap g)
    (hg' : IsGap g') (he : IsGap e) : Python.namesIn (g ++ t ++ g' ++ ',' :: e) = ns := by
  have hclosed : IsClosed (g ++ t ++ g') := by
    refine isClosed_of_forall ?_
    simp only [List.mem_append]
    rintro c ((hc | hc) | hc)
    · exact ⟨(isItemChar_of_gap hg c hc).isOpening, (isItemChar_of_gap hg c hc).isClosing⟩
    · exact hl.brackets c hc
    · exact ⟨(isItemChar_of_gap hg' c hc).isOpening, (isItemChar_of_gap hg' c hc).isClosing⟩
  rw [Python.namesIn, hclosed.splitTop_append (by decide), List.map_append,
    map_withoutAlias (hl.split (fun _ _ => SpellsMember.chars) hg hg'),
    splitTop_items (isItemChar_of_gap he), List.map_singleton, withoutAlias_gap he,
    List.filter_append, filter_names hl]
  simp

/-- A list starts with a name, and the name ends there. -/
lemma SpellsList.exists_name (hl : SpellsList SpellsMember t ns) : ∃ n r, IsName n ∧ t = n ++ r ∧
    ∀ c ∈ r.head?, isNameChar c = false := by
  cases hl with
  | one h =>
    obtain ⟨hn, ha⟩ := h
    exact ⟨_, _, hn, rfl, ha.head⟩
  | @more _ n g g' r ns h hg hg' _ =>
    obtain @⟨_, a, hn, ha⟩ := h
    refine ⟨n, a ++ (g ++ ',' :: (g' ++ r)), hn, by simp, ?_⟩
    refine forall_head?_append ha.head (forall_head?_append (fun c hc => ?_)
      (forall_head?_cons (by decide)))
    exact isNameChar_of_isBlank (hg c (List.mem_of_mem_head? hc))

lemma SpellsMembers.isSolid (hm : SpellsMembers t ns) : IsSolid t ∧ t ≠ [] := by
  have hopen : IsSolid ['('] := isSolid_singleton (by decide)
  have hclose : IsSolid [')'] := isSolid_singleton (by decide)
  cases hm with
  | star => exact ⟨isSolid_singleton (by decide), by simp⟩
  | bare h => exact h.isSolid fun _ _ => SpellsMember.isSolid
  | @enclosed g t g' _ =>
    exact ⟨hopen.append hclose (by simp) (by simp) (g ++ t ++ g'), by simp⟩
  | @trailing g t g' g'' _ =>
    refine ⟨?_, by simp⟩
    have hsolid := hopen.append hclose (by simp) (by simp) (g ++ t ++ g' ++ ',' :: g'')
    simpa using hsolid

/-- The names that a `from` lists. -/
lemma SpellsMembers.listedNames (hm : SpellsMembers t ns) :
    Import.listedNames t = ns.map String.ofList := by
  have htrim := trim_self hm.isSolid.1
  rw [Import.listedNames, htrim]
  cases hm with
  | star => decide
  | bare h =>
    obtain ⟨n, r, hn, rfl, -⟩ := h.exists_name
    obtain ⟨c, n', rfl⟩ := List.exists_cons_of_ne_nil hn.ne_nil
    have hc : c ≠ '(' := by
      rintro rfl
      exact hn.not_mem (by decide) List.mem_cons_self
    have hinner : Python.namesIn (c :: n' ++ r) = ns := by
      simpa using h.namesIn isGap_nil isGap_nil
    rw [List.cons_append] at hinner ⊢
    split
    · next heq => exact absurd (List.cons.inj heq).1 hc
    · rw [← hinner]
      rfl
  | @enclosed g t g' ns hg hg' h =>
    change (Python.namesIn ((stripSuffix? [')'] (g ++ t ++ g' ++ [')'])).getD _)).map _ = _
    rw [stripSuffix?_eq_some.mpr rfl, Option.getD_some, h.namesIn hg hg']
  | @trailing g t g' g'' ns hg hg' hg'' h =>
    change (Python.namesIn ((stripSuffix? [')'] (g ++ t ++ g' ++ ',' :: g'' ++ [')'])).getD _)).map
      _ = _
    rw [stripSuffix?_eq_some.mpr rfl, Option.getD_some, h.namesIn_trailing hg hg' hg'']

end Lists

end ContractBuild.Python

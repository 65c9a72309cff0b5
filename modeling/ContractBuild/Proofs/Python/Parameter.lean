import Mathlib
import ContractBuild.Proofs.Text.Outside
import ContractBuild.Python.Signature

/-!
Parameter lists are read back: a list of parameters, written with any blanks around its commas,
stars, colons and equals signs, gives those parameters in their order, each with its kind.

Annotations and defaults are any texts that close their brackets and have no comma outside. What
tells them apart is that an annotation has no colon and no sign of a comparison outside brackets,
and that a default does not start with an equals sign.
-/

namespace ContractBuild.Python

open ContractBuild.Text

/-! ### Written parameters -/

/-- A parameter as it is written, without the stars in front. -/
structure Declared where
  name : List Char
  typeText : Option (List Char)
  default : Option (List Char)

/-- An item of a parameter list. -/
inductive ParamItem where
  | slash
  | star
  | plain (p : Declared)
  | args (p : Declared)
  | keywords (p : Declared)

/-- A parameter list: the parameters in front of a slash, if there is one, those after it, those
after a star or an `*args`, and `**keywords`. -/
structure ParamList where
  positionalOnly : Option (List Declared)
  positional : List Declared
  keywordOnly : Option (Option Declared × List Declared)
  keywords : Option Declared

/-- What a parameter is read as. -/
def Declared.param (p : Declared) (kind : ParamKind) : Param :=
  ⟨String.ofList p.name, kind, p.typeText.map fun t => String.ofList (trim t), p.default.isSome⟩

namespace ParamList

variable (l : ParamList)

def items : List ParamItem :=
  (l.positionalOnly.map fun ps => ps.map .plain ++ [.slash]).getD [] ++ l.positional.map .plain ++
    (l.keywordOnly.map fun (args, ps) => (args.map .args).getD .star :: ps.map .plain).getD [] ++
    (l.keywords.map .keywords).toList

def params : List Param :=
  (l.positionalOnly.getD [] ++ l.positional).map (·.param .positional) ++
    (l.keywordOnly.map fun (args, ps) =>
      (args.map (·.param .varArgs)).toList ++ ps.map (·.param .keywordOnly)).getD [] ++
    (l.keywords.map (·.param .varKeywords)).toList

end ParamList

/-! ### Texts of parameters -/

/-- The signs of parameter lists, which are in no name. -/
def signs : List Char := ['(', '[', '\x7b', ')', ']', '\x7d', '=', '<', '>', '!', ':', ',', '*', '/']

/-- A name. Every identifier is one. -/
structure IsParamName (n : List Char) : Prop where
  ne_nil : n ≠ []
  chars : ∀ c ∈ n, isBlank c = false ∧ c ∉ signs

/-- An expression in a parameter list: its brackets are closed, and there is no comma outside. -/
structure IsExpression (t : List Char) : Prop where
  not_gap : ¬ IsGap t
  closed : IsClosed t
  comma : ',' ∉ outside t

/-- The parts of a parameter can be told apart. -/
structure Declared.IsProper (p : Declared) : Prop where
  name : IsParamName p.name
  typeText : ∀ t ∈ p.typeText, IsExpression t ∧ ∀ c ∈ outside t, joinsEquals c = false
  default : ∀ t ∈ p.default, IsExpression t ∧ t.head? ≠ some '='

instance (n : List Char) : Decidable (IsParamName n) :=
  decidable_of_iff (n ≠ [] ∧ n.all (fun c => !isBlank c && decide (c ∉ signs)) = true)
    ⟨fun h => ⟨h.1, by simpa using h.2⟩, fun h => ⟨h.1, by simpa using h.2⟩⟩

instance (t : List Char) : Decidable (IsExpression t) :=
  decidable_of_iff (¬ IsGap t ∧ IsClosed t ∧ ',' ∉ outside t)
    ⟨fun h => ⟨h.1, h.2.1, h.2.2⟩, fun h => ⟨h.1, h.2, h.3⟩⟩

instance (p : Declared) : Decidable p.IsProper :=
  decidable_of_iff (IsParamName p.name ∧
      (∀ t ∈ p.typeText, IsExpression t ∧ (outside t).all (fun c => !joinsEquals c) = true) ∧
        ∀ t ∈ p.default, IsExpression t ∧ t.head? ≠ some '=')
    ⟨fun h => ⟨h.1, by simpa using h.2.1, h.2.2⟩, fun h => ⟨h.1, by simpa using h.2, h.3⟩⟩

/-- Nothing, or a text after a mark, with blanks around the mark. -/
inductive SpellsAfter (mark : Char) : List Char → Option (List Char) → Prop where
  | absent : SpellsAfter mark [] none
  | given {g g' t : List Char} (hg : IsGap g) (hg' : IsGap g') :
      SpellsAfter mark (g ++ mark :: (g' ++ t)) (some t)

/-- The annotation and the default of a parameter. -/
inductive Declared.Details (p : Declared) : List Char → Prop where
  | mk {t d : List Char} (ht : SpellsAfter ':' t p.typeText) (hd : SpellsAfter '=' d p.default) :
      Details p (t ++ d)

inductive ParamItem.Spells : List Char → ParamItem → Prop where
  | slash : Spells ['/'] .slash
  | star : Spells ['*'] .star
  | plain {p : Declared} {x : List Char} (hx : p.Details x) : Spells (p.name ++ x) (.plain p)
  | args {p : Declared} {g x : List Char} (hg : IsGap g) (hx : p.Details x) :
      Spells (['*'] ++ g ++ p.name ++ x) (.args p)
  | keywords {p : Declared} {g x : List Char} (hg : IsGap g) (hx : p.Details x) :
      Spells (['*', '*'] ++ g ++ p.name ++ x) (.keywords p)

/-- Items with commas between them, and maybe one after the last. -/
def SpellsItems (text : List Char) (items : List ParamItem) : Prop :=
  ∃ ws, List.Forall₂ ParamItem.Spells ws items ∧
    (Separates ',' ws text ∨ Separates ',' (ws ++ [[]]) text)

/-! ### Names -/

section Names

variable {c : Char} {n : List Char}

/-- No sign is a letter or a digit. -/
lemma not_mem_signs (h : isLetterOrNumber c = true) : c ∉ signs := by
  have hsigns : ∀ x ∈ signs, isLetterOrNumber x = false :=
    List.all_iff_forall_prop.mp (by decide +kernel)
  intro hc
  rw [hsigns c hc] at h
  cases h

/-- Identifiers are names. -/
lemma IsParamName.of_isIdentifier (h : isIdentifier n = true) : IsParamName n := by
  cases n with
  | nil => cases h
  | cons c n =>
    refine ⟨nofun, fun x hx => ⟨isBlank_of_isIdentifier h x hx, ?_⟩⟩
    simp only [isIdentifier, Bool.and_eq_true, Bool.or_eq_true, beq_iff_eq, List.all_eq_true] at h
    have hx' : x = '_' ∨ isLetterOrNumber x = true := by
      rcases List.mem_cons.mp hx with rfl | hx
      · exact h.1.imp_right fun hl => by rw [isLetterOrNumber, hl, Bool.true_or]
      · exact h.2 x hx
    rcases hx' with rfl | hx'
    · decide
    · exact not_mem_signs hx'

/-- No sign is a blank. -/
lemma IsGap.not_mem_signs {g : List Char} (hg : IsGap g) : ∀ c ∈ g, c ∉ signs := by
  have hsigns : ∀ x ∈ signs, isBlank x = false := List.all_iff_forall_prop.mp (by decide)
  intro c hc hsign
  exact hg.not_mem (hsigns c hsign) hc

/-- A name with its stars: neither signs of a parameter nor blanks at its ends. -/
structure IsLead (u : List Char) : Prop where
  solid : IsSolid u
  chars : ∀ c ∈ u, (isOpening c = false ∧ isClosing c = false) ∧ joinsEquals c = false ∧ c ≠ ','

lemma not_sign (h : c ∉ signs) :
    (isOpening c = false ∧ isClosing c = false) ∧ joinsEquals c = false ∧ c ≠ ',' := by
  simp only [signs, List.mem_cons, not_or] at h
  simp [isOpening, isClosing, joinsEquals, h]

lemma IsParamName.isLead (h : IsParamName n) : IsLead n :=
  ⟨isSolid_of_forall fun c hc => (h.chars c hc).1, fun c hc => not_sign (h.chars c hc).2⟩

/-- Stars and blanks in front of a name. -/
lemma IsParamName.isLead_stars (h : IsParamName n) {stars g : List Char}
    (hstars : stars = ['*'] ∨ stars = ['*', '*']) (hg : IsGap g) : IsLead (stars ++ g ++ n) := by
  have hstar : ∀ c ∈ stars, c = '*' := by
    rcases hstars with rfl | rfl <;> simp
  have hne : stars ≠ [] := by
    rcases hstars with rfl | rfl <;> simp
  have hsolid : IsSolid stars := isSolid_of_forall fun c hc => by rw [hstar c hc]; decide
  refine ⟨hsolid.append h.isLead.solid hne h.ne_nil g, fun c hc => ?_⟩
  simp only [List.mem_append] at hc
  rcases hc with (hc | hc) | hc
  · rw [hstar c hc]
    decide
  · exact not_sign (IsGap.not_mem_signs hg c hc)
  · exact h.isLead.chars c hc

end Names

/-! ### Items -/

section Pieces

variable {g u t d : List Char} {typeText default : Option (List Char)}

/-- What an item is cut into: its name with the stars, its annotation, and whether it has a
default. -/
def Param.pieces (item : List Char) : (List Char × Option (List Char)) × Bool :=
  let equals := cutTop '=' item
  let head := (equals.map (·.1)).getD item
  (match cutTop ':' item with
    | some (before, _) =>
      if equals.all fun e => before.length < e.1.length then
        (before, some (trim (head.drop (before.length + 1))))
      else (head, none)
    | none => (head, none), equals.isSome)

lemma IsLead.isClosed (hu : IsLead u) : IsClosed u := isClosed_of_forall fun c hc => (hu.chars c hc).1

lemma IsLead.not_mem (hu : IsLead u) {x : Char} (hx : joinsEquals x = true) : x ∉ u := by
  intro hmem
  rw [(hu.chars x hmem).2.1] at hx
  cases hx

/-- The characters that may join an equals sign. -/
lemma joinsEquals_iff {c : Char} : joinsEquals c = true ↔ c ∈ ['=', '<', '>', '!', ':'] := by
  simp [joinsEquals, or_assoc]

lemma joinsEquals_of_isBlank {c : Char} (h : isBlank c = true) : joinsEquals c = false := by
  have hsigns : ∀ x ∈ ['=', '<', '>', '!', ':'], isBlank x = false :=
    List.all_iff_forall_prop.mp (by decide)
  by_contra hjoins
  rw [Bool.not_eq_false, joinsEquals_iff] at hjoins
  rw [hsigns c hjoins] at h
  cases h

lemma joinsEquals_of_bracket {c : Char} (h : ¬ (isOpening c = false ∧ isClosing c = false)) :
    joinsEquals c = false := by
  have hsigns : ∀ x ∈ ['=', '<', '>', '!', ':'], isOpening x = false ∧ isClosing x = false :=
    List.all_iff_forall_prop.mp (by decide)
  by_contra hjoins
  rw [Bool.not_eq_false, joinsEquals_iff] at hjoins
  exact h (hsigns c hjoins)

/-- What stands in front of a default: it is closed, and an equals sign after it is alone. -/
structure IsHead (h : List Char) : Prop where
  closed : IsClosed h
  comma : ',' ∉ outside h
  equals : '=' ∉ outside h
  last : ∀ c ∈ h.getLast?, joinsEquals c = false

lemma IsLead.isHead (hu : IsLead u) : IsHead u where
  closed := hu.isClosed
  comma := not_mem_outside fun h => (hu.chars _ h).2.2 rfl
  equals := not_mem_outside (hu.not_mem (by decide))
  last c hc := (hu.chars c (List.mem_of_getLast? hc)).2.1

lemma IsHead.append_gap {h : List Char} (hh : IsHead h) (hg : IsGap g) : IsHead (h ++ g) := by
  have hout : ∀ x, isBlank x = false → x ∉ outside h → x ∉ outside (h ++ g) := by
    intro x hx hnot
    rw [hh.closed.outside_append, List.mem_append, not_or]
    exact ⟨hnot, not_mem_outside (hg.not_mem hx)⟩
  refine ⟨hh.closed.append hg.isClosed, hout _ (by decide) hh.comma, hout _ (by decide) hh.equals,
    fun c hc => ?_⟩
  rw [List.getLast?_append] at hc
  cases hlast : g.getLast? with
  | none => exact hh.last c (by simpa [hlast] using hc)
  | some x =>
    obtain rfl : x = c := by simpa [hlast] using hc
    exact joinsEquals_of_isBlank (hg x (List.mem_of_getLast? hlast))

/-- An annotation after a name. -/
lemma IsLead.isHead_typed (hu : IsLead u) (ht : SpellsAfter ':' t typeText)
    (htyped : ∀ y ∈ typeText, IsExpression y ∧ ∀ c ∈ outside y, joinsEquals c = false) :
    IsHead (u ++ t) := by
  cases ht with
  | absent => simpa using hu.isHead
  | @given g g' y hg hg' =>
    obtain ⟨hy, hsigns⟩ := htyped y rfl
    have hname := hu.isHead.append_gap hg
    have hcolon : IsClosed [':'] := isClosed_singleton (by decide)
    have htext : u ++ (g ++ ':' :: (g' ++ y)) = u ++ g ++ ([':'] ++ (g' ++ y)) := by simp
    have hout : ∀ x, x ≠ ':' → isBlank x = false → x ∉ outside (u ++ g) → x ∉ outside y →
        x ∉ outside (u ++ g ++ ([':'] ++ (g' ++ y))) := by
      intro x hx hblank hleft hright
      rw [hname.closed.outside_append, hcolon.outside_append, hg'.isClosed.outside_append]
      simp only [List.mem_append, not_or]
      exact ⟨hleft, not_mem_outside (by simpa using hx), not_mem_outside (hg'.not_mem hblank),
        hright⟩
    rw [htext]
    refine ⟨hname.closed.append (hcolon.append (hg'.isClosed.append hy.closed)),
      hout _ (by decide) (by decide) hname.comma hy.comma,
      hout _ (by decide) (by decide) hname.equals fun h => ?_, fun c hc => ?_⟩
    · exact absurd (hsigns _ h) (by decide)
    · have hne : y ≠ [] := by
        rintro rfl
        exact hy.not_gap isGap_nil
      rw [← List.append_assoc, ← List.append_assoc, List.getLast?_append_of_ne_nil _ hne] at hc
      -- a bracket at the end is no sign of a comparison, and anything else stands outside
      by_cases hbracket : isOpening c = false ∧ isClosing c = false
      · exact hsigns c (hy.closed.mem_outside_of_getLast? hc hbracket)
      · exact joinsEquals_of_bracket hbracket

lemma drop_cut (x r : List Char) (c : Char) : (x ++ c :: r).drop (x.length + 1) = r := by simp

/-- Each item is cut into what it was written from. -/
lemma IsLead.pieces (hu : IsLead u) (ht : SpellsAfter ':' t typeText)
    (htyped : ∀ y ∈ typeText, IsExpression y ∧ ∀ c ∈ outside y, joinsEquals c = false)
    (hd : SpellsAfter '=' d default) (hdefault : ∀ x ∈ default, x.head? ≠ some '=') :
    ∃ g, IsGap g ∧
      Param.pieces (u ++ t ++ d) = ((u ++ g, typeText.map trim), default.isSome) := by
  have hhead := hu.isHead_typed ht htyped
  -- the colon comes right after the name, or not before the equals sign
  have hcolon : ∀ g r : List Char, IsGap g → cutTop ':' (u ++ g ++ ':' :: r) = some (u ++ g, r) :=
    fun g r hg => cutTop_at (hu.isHead.append_gap hg).closed (not_mem_outside (by
      simpa using ⟨hu.not_mem (by decide), hg.not_mem (by decide)⟩)) (by decide) (by decide)
  cases hd with
  | absent =>
    rw [List.append_nil]
    have hequals : cutTop '=' (u ++ t) = none := cutTop_of_outside hhead.closed hhead.equals
    cases ht with
    | absent =>
      have hnone : cutTop ':' u = none :=
        cutTop_of_outside hu.isClosed (not_mem_outside (hu.not_mem (by decide)))
      rw [List.append_nil] at hequals ⊢
      exact ⟨[], isGap_nil, by simp [Param.pieces, hequals, hnone]⟩
    | @given g g' y hg hg' =>
      have htext : u ++ (g ++ ':' :: (g' ++ y)) = u ++ g ++ ':' :: (g' ++ y) := by simp
      rw [htext] at hequals ⊢
      refine ⟨g, hg, ?_⟩
      rw [Param.pieces, hequals, hcolon g _ hg]
      simp only [Option.map_none, Option.getD_none, Option.all_none, if_true, drop_cut]
      rw [← List.append_nil (g' ++ y), trim_gaps hg' isGap_nil]
      rfl
  | @given g g' x hg hg' =>
    have hnext : (g' ++ x).head? ≠ some '=' := by
      cases g' with
      | nil => exact hdefault x rfl
      | cons c g' =>
        rintro ⟨rfl⟩
        have hblank : isBlank '=' = true := hg' '=' List.mem_cons_self
        exact absurd hblank (by decide)
    have hbefore := hhead.append_gap hg
    have hequals : cutTop '=' (u ++ t ++ g ++ '=' :: (g' ++ x)) = some (u ++ t ++ g, g' ++ x) :=
      cutTop_equals hbefore.closed hbefore.equals hbefore.last hnext
    rw [← List.append_assoc]
    cases ht with
    | absent =>
      rw [List.append_nil] at hequals ⊢
      refine ⟨g, hg, ?_⟩
      have hlead := hu.isHead.append_gap hg
      have hcolon : ':' ∉ outside (u ++ g) :=
        not_mem_outside (by simpa using ⟨hu.not_mem (by decide), hg.not_mem (by decide)⟩)
      have hcut := cutTop_append (r := '=' :: (g' ++ x)) hlead.closed hcolon
      rw [Param.pieces, hequals, hcut]
      cases cutAtDepth ':' (u ++ g).getLast? 0 ('=' :: (g' ++ x)) with
      | none => rfl
      | some p => simp
    | @given h h' y hh hh' =>
      have htext : u ++ (h ++ ':' :: (h' ++ y)) ++ g ++ '=' :: (g' ++ x) =
          u ++ h ++ ':' :: (h' ++ y ++ g ++ '=' :: (g' ++ x)) := by simp
      have hhead' : u ++ (h ++ ':' :: (h' ++ y)) ++ g = u ++ h ++ ':' :: (h' ++ y ++ g) := by simp
      refine ⟨h, hh, ?_⟩
      rw [Param.pieces, hequals, htext, hcolon h _ hh, hhead']
      have hshort : (u ++ h).length < (u ++ h ++ ':' :: (h' ++ y ++ g)).length := by simp
      simp only [Option.map_some, Option.getD_some, Option.all_some, hshort, decide_true, if_true,
        drop_cut, trim_gaps hh' hg]
      rfl

end Pieces

section Trimmed

variable {g u x y : List Char} {p : Declared}

lemma IsExpression.not_nil (hy : IsExpression y) : y ≠ [] := by
  rintro rfl
  exact hy.not_gap isGap_nil

lemma outside_subset_append (hy : IsClosed y) : outside y ⊆ outside (y ++ g) := by
  rw [hy.outside_append]
  exact List.subset_append_left _ _

/-- Blanks at the end of an expression do not count. -/
lemma IsExpression.of_gap (hg : IsGap g) (h : IsExpression (y ++ g)) : IsExpression y where
  not_gap hy := h.not_gap (hy.append hg)
  closed := h.closed.of_gap hg
  comma hc := h.comma (outside_subset_append (h.closed.of_gap hg) hc)

/-- Without the blanks at its end, a text after a mark is one as well. -/
lemma SpellsAfter.exists_trimmed {mark : Char} (h : SpellsAfter mark x (some y))
    (hy : IsExpression y) : ∃ x' y' g, IsGap g ∧ x = x' ++ g ∧ y = y' ++ g ∧
      SpellsAfter mark x' (some y') ∧ ∀ c ∈ x'.getLast?, isBlank c = false := by
  cases h with
  | @given h h' _ hh hh' =>
    obtain ⟨g₁, g₂, hg₁, hg₂, heq⟩ := exists_gaps y
    have hne : trim y ≠ [] := fun hnil => hy.not_gap (isGap_of_trim hnil)
    refine ⟨h ++ mark :: (h' ++ (g₁ ++ trim y)), g₁ ++ trim y, g₂, hg₂, ?_, heq, .given hh hh', ?_⟩
    · conv_lhs => rw [heq]
      simp
    · intro c hc
      have htext : h ++ mark :: (h' ++ (g₁ ++ trim y)) = h ++ mark :: (h' ++ g₁) ++ trim y := by
        simp
      rw [htext, List.getLast?_append_of_ne_nil _ hne] at hc
      exact (isSolid_trim y).last c hc

/-- The blanks at the end of a parameter belong to none of its parts. -/
lemma Declared.Details.exists_trimmed (hx : p.Details x) (hp : p.IsProper) :
    ∃ (p' : Declared) (x' g : List Char), IsGap g ∧ x = x' ++ g ∧ p'.Details x' ∧ p'.IsProper ∧
      p'.typeText.map trim = p.typeText.map trim ∧ p'.default.isSome = p.default.isSome ∧
        ∀ c ∈ x'.getLast?, isBlank c = false := by
  obtain ⟨name, typeText, default⟩ := p
  obtain @⟨t, d, ht, hd⟩ := hx
  rcases default with _ | y
  · cases hd
    rcases typeText with _ | y
    · cases ht
      have hnothing : Declared.Details ⟨name, none, none⟩ ([] ++ []) := .mk .absent .absent
      exact ⟨_, [], [], isGap_nil, rfl, hnothing, hp, rfl, rfl, nofun⟩
    · obtain ⟨hy, hsigns⟩ := hp.typeText y rfl
      obtain ⟨t', y', g, hg, rfl, rfl, ht', hlast⟩ := ht.exists_trimmed hy
      have hy' := hy.of_gap hg
      have hdetails : Declared.Details ⟨name, some y', none⟩ (t' ++ []) := .mk ht' .absent
      rw [List.append_nil] at hdetails
      refine ⟨⟨name, some y', none⟩, t', g, hg, by simp, hdetails,
        ⟨hp.name, ?_, nofun⟩, ?_, rfl, hlast⟩
      · rintro _ ⟨rfl⟩
        exact ⟨hy', fun c hc => hsigns c (outside_subset_append hy'.closed hc)⟩
      · rw [Option.map_some, Option.map_some, ← trim_gaps isGap_nil hg, List.nil_append]
  · obtain ⟨hy, hhead⟩ := hp.default y rfl
    obtain ⟨d', y', g, hg, rfl, rfl, hd', hlast⟩ := hd.exists_trimmed hy
    have hy' := hy.of_gap hg
    refine ⟨⟨name, typeText, some y'⟩, t ++ d', g, hg, by simp, .mk ht hd',
      ⟨hp.name, hp.typeText, ?_⟩, rfl, rfl, ?_⟩
    · rintro _ ⟨rfl⟩
      rw [List.head?_append_of_ne_nil _ hy'.not_nil] at hhead
      exact ⟨hy', hhead⟩
    · have hne : d' ≠ [] := by
        cases hd'
        simp
      rw [List.getLast?_append_of_ne_nil _ hne]
      exact hlast

end Trimmed

/-! ### Lists -/

section Items

variable {k : Bool} {g n t u x : List Char} {p : Declared} {i : ParamItem} {is : List ParamItem}
  {w : List Char} {ws : List (List Char)}

/-- The kind of a parameter and the rest of its name, by the stars in front. -/
def Param.marked (keywordOnly : Bool) : List Char → ParamKind × List Char
  | '*' :: '*' :: r => (.varKeywords, r)
  | '*' :: r => (.varArgs, r)
  | r => (if keywordOnly then .keywordOnly else .positional, r)

lemma ofItem_eq (k : Bool) (item : List Char) : Param.ofItem k item =
    let named := Param.marked k (trim (Param.pieces item).1.1)
    ⟨String.ofList (trim named.2), named.1,
      ((Param.pieces item).1.2.filter (!·.isEmpty)).map String.ofList, (Param.pieces item).2⟩ :=
  rfl

/-- An item is read as its parameter, which takes its kind and its name from the stars. -/
lemma IsLead.ofItem (hu : IsLead u) (hne : u ≠ []) (hx : p.Details x) (hp : p.IsProper)
    {kind : ParamKind} (hmarked : Param.marked k u = (kind, n)) (hname : trim n = p.name) :
    ∃ y, trim (u ++ x) = u ++ y ∧ Param.ofItem k (u ++ y) = p.param kind := by
  obtain ⟨p', x', g, hg, rfl, hx', hp', htype, hdefault, hlast⟩ := hx.exists_trimmed hp
  refine ⟨x', ?_, ?_⟩
  · have hsolid : IsSolid (u ++ x') := by
      refine ⟨fun c hc => hu.solid.head c ?_, fun c hc => ?_⟩
      · rwa [List.head?_append_of_ne_nil _ hne] at hc
      · rw [List.getLast?_append] at hc
        cases hend : x'.getLast? with
        | none => exact hu.solid.last c (by simpa [hend] using hc)
        | some c' =>
          obtain rfl : c' = c := by simpa [hend] using hc
          exact hlast c' hend
    rw [← List.append_assoc, ← List.nil_append (u ++ x'), trim_gaps isGap_nil hg, trim_self hsolid,
      List.nil_append]
  · obtain @⟨t, d, ht, hd⟩ := hx'
    obtain ⟨g', hg', hpieces⟩ := hu.pieces ht hp'.typeText hd fun y hy => (hp'.default y hy).2
    have htrim : trim (u ++ g') = u := by
      simpa using trim_solid hu.solid isGap_nil hg'
    have hfilter : (p.typeText.map trim).filter (!·.isEmpty) = p.typeText.map trim := by
      cases hy : p.typeText with
      | none => rfl
      | some y =>
        have hne : trim y ≠ [] := fun hnil => (hp.typeText y hy).1.not_gap (isGap_of_trim hnil)
        simp [hne]
    rw [← List.append_assoc, ofItem_eq, hpieces]
    simp only [htrim, hmarked, hname, htype, hdefault, hfilter, Declared.param, Option.map_map]
    rfl

/-- The parameter that an item gives. -/
def ParamItem.read (keywordOnly : Bool) : ParamItem → Option Param
  | .slash | .star => none
  | .plain p => some (p.param (if keywordOnly then .keywordOnly else .positional))
  | .args p => some (p.param .varArgs)
  | .keywords p => some (p.param .varKeywords)

/-- Whether the parameters after an item are keyword-only. -/
def ParamItem.turns (keywordOnly : Bool) : ParamItem → Bool
  | .star | .args _ => true
  | _ => keywordOnly

def readItems : Bool → List ParamItem → List Param
  | _, [] => []
  | k, i :: is => (i.read k).toList ++ readItems (i.turns k) is

def ParamItem.IsProper : ParamItem → Prop
  | .slash | .star => True
  | .plain p | .args p | .keywords p => p.IsProper

lemma marked_of_head (k : Bool) {r : List Char} (hr : r.head? ≠ some '*') :
    Param.marked k r = (if k then .keywordOnly else .positional, r) ∧
      Param.marked k ('*' :: r) = (.varArgs, r) := by
  constructor
  · unfold Param.marked
    split
    · exact absurd rfl hr
    · exact absurd rfl hr
    · rfl
  · unfold Param.marked
    split
    · next heq =>
      rw [(List.cons.inj heq).2] at hr
      exact absurd rfl hr
    · next heq => rw [(List.cons.inj heq).2]
    · next hone => exact absurd rfl (hone r)

lemma IsParamName.head (hn : IsParamName n) (hg : IsGap g) : (g ++ n).head? ≠ some '*' := by
  intro hc
  have hsign : '*' ∈ signs := by decide
  rcases List.mem_append.mp (List.mem_of_mem_head? hc) with h | h
  · exact IsGap.not_mem_signs hg _ h hsign
  · exact (hn.chars _ h).2 hsign

lemma ofItems_cons {item : List Char} (hitem : trim w = item) (hempty : item ≠ [])
    (hslash : item ≠ ['/']) (hstar : item ≠ ['*']) (k : Bool) : Param.ofItems k (w :: ws) =
      Param.ofItem k item :: Param.ofItems (k || (Param.ofItem k item).kind == .varArgs) ws := by
  rw [Param.ofItems, hitem]
  simp [hempty, hslash, hstar]

/-- A parameter is read on its own, and tells whether those after it are keyword-only. -/
lemma IsLead.ofItems (hu : IsLead u) (hlone : ∀ y, u ++ y ≠ [] ∧ u ++ y ≠ ['/'] ∧ u ++ y ≠ ['*'])
    (hx : p.Details x) (hp : p.IsProper) {kind : ParamKind}
    (hmarked : Param.marked k u = (kind, n)) (hname : trim n = p.name) :
    Param.ofItems k ((u ++ x) :: ws) = p.param kind :: Param.ofItems (k || kind == .varArgs) ws := by
  have hne : u ≠ [] := by simpa using (hlone []).1
  obtain ⟨y, htrim, hread⟩ := hu.ofItem hne hx hp hmarked hname
  obtain ⟨hempty, hslash, hstar⟩ := hlone y
  rw [ofItems_cons htrim hempty hslash hstar, hread]
  rfl

lemma ParamItem.Spells.step (h : ParamItem.Spells w i) (hi : i.IsProper) (k : Bool) :
    Param.ofItems k (w :: ws) = (i.read k).toList ++ Param.ofItems (i.turns k) ws := by
  cases h with
  | slash =>
    have htrim : trim ['/'] = ['/'] := trim_self (isSolid_singleton (by decide))
    rw [Param.ofItems, htrim]
    rfl
  | star =>
    have htrim : trim ['*'] = ['*'] := trim_self (isSolid_singleton (by decide))
    rw [Param.ofItems, htrim]
    rfl
  | @plain p x hx =>
    have hn : IsParamName p.name := hi.name
    have hmarked := (marked_of_head k (hn.head isGap_nil)).1
    have hlone : ∀ y, p.name ++ y ≠ [] ∧ p.name ++ y ≠ ['/'] ∧ p.name ++ y ≠ ['*'] := by
      obtain ⟨c, n, hcons⟩ := List.exists_cons_of_ne_nil hn.ne_nil
      have hc : c ∉ signs := (hn.chars c (by simp [hcons])).2
      intro y
      rw [hcons]
      refine ⟨nofun, fun heq => ?_, fun heq => ?_⟩ <;>
      · rw [(List.cons.inj heq).1] at hc
        exact hc (by decide)
    rw [hn.isLead.ofItems hlone hx hi hmarked (trim_self hn.isLead.solid)]
    cases k <;> rfl
  | @args p g x hg hx =>
    have hn : IsParamName p.name := hi.name
    have hmarked := (marked_of_head k (hn.head hg)).2
    have hname : trim (g ++ p.name) = p.name := by
      simpa using trim_solid hn.isLead.solid hg isGap_nil
    rw [(hn.isLead_stars (.inl rfl) hg).ofItems (fun y => by simp [hn.ne_nil]) hx hi hmarked hname]
    cases k <;> rfl
  | @keywords p g x hg hx =>
    have hn : IsParamName p.name := hi.name
    have hmarked : Param.marked k (['*', '*'] ++ g ++ p.name) = (.varKeywords, g ++ p.name) := rfl
    have hname : trim (g ++ p.name) = p.name := by
      simpa using trim_solid hn.isLead.solid hg isGap_nil
    rw [(hn.isLead_stars (.inr rfl) hg).ofItems (fun y => by simp) hx hi hmarked hname]
    cases k <;> rfl

/-- No comma cuts a parameter. -/
lemma IsLead.passes (hu : IsLead u) (hx : p.Details x) (hp : p.IsProper) :
    Passes ',' 0 (u ++ x) := by
  obtain ⟨name, typeText, default⟩ := p
  obtain @⟨t, d, ht, hd⟩ := hx
  have hhead := hu.isHead_typed ht hp.typeText
  have hpasses := passes_of_outside hhead.closed hhead.comma
  rw [← List.append_assoc]
  cases hd with
  | absent => simpa using hpasses
  | @given g g' y hg hg' =>
    have hy := (hp.default y rfl).1
    have hequals : Passes ',' 0 ['='] := passes_singleton (by decide) (.inl (by decide))
    exact hpasses.append ((hg.passes (by decide)).append (hequals.append
      ((hg'.passes (by decide)).append (passes_of_outside hy.closed hy.comma))))

lemma ParamItem.Spells.passes (h : ParamItem.Spells w i) (hi : i.IsProper) : Passes ',' 0 w := by
  cases h with
  | slash => exact passes_singleton (by decide) (.inl (by decide))
  | star => exact passes_singleton (by decide) (.inl (by decide))
  | plain hx => exact (IsParamName.isLead hi.name).passes hx hi
  | args hg hx => exact (IsParamName.isLead_stars hi.name (.inl rfl) hg).passes hx hi
  | keywords hg hx => exact (IsParamName.isLead_stars hi.name (.inr rfl) hg).passes hx hi

lemma passes_of_spells (h : List.Forall₂ ParamItem.Spells ws is) (his : ∀ i ∈ is, i.IsProper) :
    ∀ w ∈ ws, Passes ',' 0 w := by
  induction h with
  | nil => nofun
  | cons hw _ ih =>
    obtain ⟨hi, his⟩ := List.forall_mem_cons.mp his
    exact List.forall_mem_cons.mpr ⟨hw.passes hi, ih his⟩

/-- Items are read one by one. -/
lemma ofItems_spelled (h : List.Forall₂ ParamItem.Spells ws is) (his : ∀ i ∈ is, i.IsProper)
    {rest : List (List Char)} (hrest : ∀ k, Param.ofItems k rest = []) :
    Param.ofItems k (ws ++ rest) = readItems k is := by
  induction h generalizing k with
  | nil => exact hrest k
  | cons hw _ ih =>
    obtain ⟨hi, his⟩ := List.forall_mem_cons.mp his
    rw [List.cons_append, hw.step hi, ih his]
    rfl

lemma ofItems_map_trim (k : Bool) (ws : List (List Char)) :
    Param.ofItems k (ws.map trim) = Param.ofItems k ws := by
  induction ws generalizing k with
  | nil => rfl
  | cons w ws ih =>
    rw [List.map_cons, Param.ofItems, Param.ofItems, trim_trim]
    simp only [ih]

/-- The text of a list is read as its items. -/
lemma SpellsItems.ofText {text : List Char} (h : SpellsItems text is)
    (his : ∀ i ∈ is, i.IsProper) : Param.ofText text = readItems false is := by
  obtain ⟨ws, hws, htext⟩ := h
  have hpasses := passes_of_spells hws his
  have hread : ∀ rest : List (List Char), Separates ',' (ws ++ rest) text →
      (∀ w ∈ rest, Passes ',' 0 w) → (∀ k, Param.ofItems k rest = []) →
      Param.ofText text = readItems false is := by
    intro rest hsep hpasses' hrest
    have hsplit := hsep.map_trim_eq (by decide) (by decide) fun w hw =>
      (List.mem_append.mp hw).elim (hpasses w) (hpasses' w)
    rw [Param.ofText, ← ofItems_map_trim, hsplit, ofItems_map_trim, ofItems_spelled hws his hrest]
  rcases htext with htext | htext
  · exact hread [] (by simpa using htext) nofun fun _ => rfl
  · exact hread [[]] htext (by simpa using passes_nil) fun _ => rfl

end Items

section Lists

variable {l : ParamList}

/-- All parameters of a list. -/
def ParamList.all (l : ParamList) : List Declared :=
  l.positionalOnly.getD [] ++ l.positional ++
    (l.keywordOnly.map fun (args, ps) => args.toList ++ ps).getD [] ++ l.keywords.toList

lemma readItems_plain (k : Bool) (ps : List Declared) (is : List ParamItem) :
    readItems k (ps.map .plain ++ is) =
      ps.map (·.param (if k then .keywordOnly else .positional)) ++ readItems k is := by
  induction ps with
  | nil => rfl
  | cons p ps ih =>
    rw [List.map_cons, List.cons_append, readItems]
    exact congrArg _ ih

lemma readItems_items (l : ParamList) : readItems false l.items = l.params := by
  obtain ⟨only, ps, after, last⟩ := l
  -- the tail of the list, which starts where the positional parameters end
  have htail : ∀ k, readItems k (last.map ParamItem.keywords).toList =
      (last.map (·.param .varKeywords)).toList := by
    intro k
    cases last <;> rfl
  have hafter : readItems false ((after.map fun (args, ps) =>
      (args.map ParamItem.args).getD .star :: ps.map .plain).getD [] ++
        (last.map ParamItem.keywords).toList) =
      (after.map fun (args, ps) => (args.map (·.param .varArgs)).toList ++
        ps.map (·.param .keywordOnly)).getD [] ++ (last.map (·.param .varKeywords)).toList := by
    rcases after with _ | ⟨_ | args, qs⟩
    · exact htail false
    · simp [readItems, ParamItem.read, ParamItem.turns, readItems_plain, htail]
    · simp [readItems, ParamItem.read, ParamItem.turns, readItems_plain, htail]
  rw [ParamList.items, ParamList.params]
  cases only with
  | none => simpa [readItems_plain] using hafter
  | some qs =>
    simpa [readItems_plain, readItems, ParamItem.read, ParamItem.turns] using hafter

lemma isProper_of_mem_items (hl : ∀ p ∈ l.all, p.IsProper) : ∀ i ∈ l.items, i.IsProper := by
  obtain ⟨only, ps, after, last⟩ := l
  have hplain : ∀ qs : List Declared, (∀ p ∈ qs, p.IsProper) →
      ∀ i ∈ qs.map ParamItem.plain, i.IsProper := by
    intro qs hqs i hi
    obtain ⟨p, hp, rfl⟩ := List.mem_map.mp hi
    exact hqs p hp
  intro i hi
  simp only [ParamList.items, List.mem_append] at hi
  simp only [ParamList.all, List.mem_append] at hl
  rcases hi with ((hi | hi) | hi) | hi
  · cases only with
    | none => cases hi
    | some qs =>
      rcases List.mem_append.mp hi with hi | hi
      · exact hplain qs (fun p hp => hl p (.inl (.inl (.inl hp)))) i hi
      · rw [List.mem_singleton.mp hi]
        trivial
  · exact hplain ps (fun p hp => hl p (.inl (.inl (.inr hp)))) i hi
  · rcases after with _ | ⟨args, qs⟩
    · cases hi
    · rcases List.mem_cons.mp hi with rfl | hi
      · cases args with
        | none => trivial
        | some p => exact hl p (.inl (.inr (by simp)))
      · exact hplain qs (fun p hp => hl p (.inl (.inr (by simp [hp])))) i hi
  · cases last with
    | none => cases hi
    | some p =>
      rw [List.mem_singleton.mp hi]
      exact hl p (.inr (by simp))

/-- **A parameter list is read back**: its parameters in their order, each with its kind, its
annotation, and whether it has a default. -/
theorem Param.ofText_spelled {text : List Char} (hl : ∀ p ∈ l.all, p.IsProper)
    (h : SpellsItems text l.items) : Param.ofText text = l.params := by
  rw [h.ofText (isProper_of_mem_items hl), readItems_items]

/-- A list with all kinds of parameters, whose expressions have the signs of lists in them. -/
def scaledParams : ParamList where
  positionalOnly := some [⟨"self".toList, none, none⟩]
  positional := [⟨"width".toList, some "Dict[str, int]".toList, some "\x7ba: b, c: d\x7d".toList⟩]
  keywordOnly := some (some ⟨"args".toList, none, none⟩,
    [⟨"scale".toList, none, some "lambda x: x >= 1".toList⟩])
  keywords := some ⟨"rest".toList, some "Any".toList, none⟩

def scaledText : String :=
  "self, / , width : Dict[str, int]= \x7ba: b, c: d\x7d,* args,scale =lambda x: x >= 1, **rest:Any ,"

lemma spellsItems_scaledText : SpellsItems scaledText.toList scaledParams.items := by
  have hspace : IsGap [' '] := by decide
  have hself : ParamItem.Spells ("self".toList ++ ([] ++ [])) _ :=
    .plain (.mk .absent .absent : Declared.Details ⟨"self".toList, none, none⟩ _)
  have hwidth : ParamItem.Spells ("width".toList ++
      ([' '] ++ ':' :: ([' '] ++ "Dict[str, int]".toList) ++
        ([] ++ '=' :: ([' '] ++ "\x7ba: b, c: d\x7d".toList)))) _ :=
    .plain (.mk (.given hspace hspace) (.given isGap_nil hspace) :
      Declared.Details ⟨"width".toList, some _, some _⟩ _)
  have hargs : ParamItem.Spells (['*'] ++ [' '] ++ "args".toList ++ ([] ++ [])) _ :=
    .args hspace (.mk .absent .absent : Declared.Details ⟨"args".toList, none, none⟩ _)
  have hscale : ParamItem.Spells ("scale".toList ++
      ([] ++ ([' '] ++ '=' :: ([] ++ "lambda x: x >= 1".toList)))) _ :=
    .plain (.mk .absent (.given hspace isGap_nil) :
      Declared.Details ⟨"scale".toList, none, some _⟩ _)
  have hrest : ParamItem.Spells (['*', '*'] ++ [] ++ "rest".toList ++
      ([] ++ ':' :: ([] ++ "Any".toList) ++ [])) _ :=
    .keywords isGap_nil (.mk (.given isGap_nil isGap_nil) .absent :
      Declared.Details ⟨"rest".toList, some _, none⟩ _)
  refine ⟨_, .cons hself (.cons .slash (.cons hwidth (.cons hargs (.cons hscale (.cons hrest
    .nil))))), .inr ?_⟩
  convert separates_splitTop ',' scaledText.toList using 1
  decide +kernel

theorem Param.ofText_scaledText : (∀ p ∈ scaledParams.all, p.IsProper) ∧
    SpellsItems scaledText.toList scaledParams.items ∧
      Param.ofText scaledText.toList =
        [⟨"self", .positional, none, false⟩, ⟨"width", .positional, some "Dict[str, int]", true⟩,
          ⟨"args", .varArgs, none, false⟩, ⟨"scale", .keywordOnly, none, true⟩,
          ⟨"rest", .varKeywords, some "Any", false⟩] := by
  have hproper : ∀ p ∈ scaledParams.all, p.IsProper := by decide +kernel
  have hspells := spellsItems_scaledText
  exact ⟨hproper, hspells, (Param.ofText_spelled hproper hspells).trans (by decide)⟩

end Lists

end ContractBuild.Python

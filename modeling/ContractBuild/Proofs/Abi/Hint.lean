import Mathlib
import ContractBuild.Abi.TypeTag
import ContractBuild.Proofs.Program
import ContractBuild.Proofs.Text.Nested

/-!
Type hints: which types they stand for, how they are spelled, and where their texts may be cut.
-/

namespace ContractBuild.Abi

open ContractBuild.Text TypeTag

/-! ### Hints -/

/-- A type hint. A collapsed string literal is the unknown scalar; `anyList`, `anyDict` and
`anyTuple` are the names without a subscript; operands with bars between them are a choice. -/
inductive Hint where
  | scalar (s : Scalar)
  | anyList
  | anyDict
  | anyTuple
  | list (item : Hint)
  | dict (key value : Hint)
  | tuple (items : List Hint)
  | tupleOf (item : Hint)
  | optional (inner : Hint)
  | union (first : Hint) (more : List Hint)
  | choice (first second : Hint) (more : List Hint)

namespace Hint

def isChoice : Hint → Bool
  | .choice _ _ _ => true
  | _ => false

mutual

/-- The type that a hint stands for. -/
def tag : Hint → TypeTag
  | .scalar s => .scalar s
  | .anyList => .list (.scalar .any)
  | .anyDict => .dict (.scalar .any) (.scalar .any)
  | .anyTuple => .tupleOf (.scalar .any)
  | .list item => .list (tag item)
  | .dict key value => .dict (tag key) (tag value)
  | .tuple items => .tuple (tags items)
  | .tupleOf item => .tupleOf (tag item)
  | .optional inner => unite [tag inner, .scalar .null]
  | .union first more => unite (tag first :: tags more)
  | .choice first second more => unite (tag first :: tag second :: tags more)

def tags : List Hint → List TypeTag
  | [] => []
  | a :: r => tag a :: tags r

end

lemma tags_eq_map (as : List Hint) : tags as = as.map tag := by
  induction as with
  | nil => rfl
  | cons a as ih => rw [tags, ih, List.map_cons]

end Hint

/-- The names of a scalar. -/
def Scalar.names : Scalar → List String
  | .str => ["str"]
  | .int => ["int"]
  | .float => ["float"]
  | .bool => ["bool"]
  | .bytes => ["bytes", "bytearray"]
  | .any => ["Any", "any", "object"]
  | .null => ["None"]
  | .never => ["NoReturn", "Never"]
  | .unknown => []

namespace TypeTag.Former

/-- The names that take a subscript. -/
def names : Former → List String
  | .list => ["list", "List"]
  | .dict => ["dict", "Dict"]
  | .tuple => ["tuple", "Tuple"]
  | .optional => ["Optional"]
  | .union => ["Union"]

/-- What a name stands for without its subscript. -/
def bare? : Former → Option Hint
  | .list => some .anyList
  | .dict => some .anyDict
  | .tuple => some .anyTuple
  | .optional | .union => none

/-- What a name stands for with items in its subscript. -/
def form? : Former → List Hint → Option Hint
  | .list, [item] => some (.list item)
  | .dict, [key, value] => some (.dict key value)
  | .tuple, items => some (.tuple items)
  | .optional, [inner] => some (.optional inner)
  | .union, first :: more => some (.union first more)
  | _, _ => none

/-- The type that is built from those of the items. -/
def build? : Former → List TypeTag → Option TypeTag
  | .list, [item] => some (.list item)
  | .dict, [key, value] => some (.dict key value)
  | .tuple, items => some (.tuple items)
  | .optional, [inner] => some (unite [inner, .scalar .null])
  | .union, t :: more => some (unite (t :: more))
  | _, _ => none

lemma map_tag_form? (f : Former) (items : List Hint) :
    (f.form? items).map Hint.tag = f.build? (Hint.tags items) := by
  rcases items with _ | ⟨a, _ | ⟨b, _ | ⟨c, items⟩⟩⟩ <;> cases f <;> rfl

end TypeTag.Former

lemma isChoice_of_bare? {f : Former} {a : Hint} (h : f.bare? = some a) :
    a.isChoice = false := by
  cases f <;> cases h <;> rfl

lemma isChoice_of_form? {f : Former} {items : List Hint} {a : Hint}
    (h : f.form? items = some a) : a.isChoice = false := by
  rcases items with _ | ⟨b, _ | ⟨c, _ | ⟨d, items⟩⟩⟩ <;> cases f <;> cases h <;> rfl

/-! ### Spelling -/

/-- The modules that a name may be qualified with. -/
def qualifiers : List String := ["", "typing.", "t."]

/-- One of the names, which may be qualified. -/
def IsNamed (names : List String) (n : List Char) : Prop :=
  ∃ q ∈ qualifiers, ∃ name ∈ names, n = q.toList ++ name.toList

/-- A subscript: parts between commas, of which those that are not blank are the items. -/
structure HasItems (inner : List Char) (ws : List (List Char)) : Prop where
  parts : ∃ ps, Separates ',' ps inner ∧ ws = ps.filter (!·.isEmpty)

/-- **The spellings of hints.** Blanks may stand around names, commas, bars and brackets. -/
inductive Spells : List Char → Hint → Prop where
  | scalar {n : List Char} {s : Scalar} (hn : IsNamed s.names n) : Spells n (.scalar s)
  | literal {n : List Char} (hn : n = "''".toList ∨ n = "\"\"".toList) :
      Spells n (.scalar .unknown)
  | bare {n : List Char} {f : Former} {a : Hint} (hn : IsNamed f.names n)
      (ha : f.bare? = some a) : Spells n a
  | subscripted {n g inner : List Char} {f : Former} {ws : List (List Char)}
      {items : List Hint} {a : Hint} (hn : IsNamed f.names n) (hg : IsGap g)
      (hws : HasItems inner ws) (hlen : ws.length = items.length)
      (h : ∀ {w b}, (w, b) ∈ ws.zip items → Spells w b) (ha : f.form? items = some a) :
      Spells (n ++ g ++ '[' :: (inner ++ [']'])) a
  | tupleOf {n g inner w : List Char} {item : Hint} (hn : IsNamed Former.tuple.names n)
      (hg : IsGap g) (hws : HasItems inner [w, ellipsis]) (h : Spells w item) :
      Spells (n ++ g ++ '[' :: (inner ++ [']'])) (.tupleOf item)
  | choice {text : List Char} {ws : List (List Char)} {first second : Hint}
      {more : List Hint} (htext : IsSolid text) (hws : Separates '|' ws text)
      (hlen : ws.length = (first :: second :: more).length)
      (h : ∀ {w b}, (w, b) ∈ ws.zip (first :: second :: more) → Spells w b)
      (hplain : ∀ b ∈ first :: second :: more, b.isChoice = false) :
      Spells text (.choice first second more)

/-! ### Names -/

section Names

variable {n : List Char} {names : List String} {name : String}

def knownNames : List String :=
  [.str, .int, .float, .bool, .bytes, .any, .null, .never].flatMap Scalar.names ++
    [.list, .dict, .tuple, .optional, .union].flatMap TypeTag.Former.names

lemma Scalar.names_subset (s : Scalar) : s.names ⊆ knownNames := by
  cases s <;> decide

lemma TypeTag.Former.names_subset (f : Former) : f.names ⊆ knownNames := by
  cases f <;> decide

/-- A character of a name. -/
def isNameChar (c : Char) : Bool :=
  !isBlank c && !isOpening c && !isClosing c && c != '|' && c != ','

lemma known_names : ∀ q ∈ qualifiers, ∀ name ∈ knownNames,
    (q.toList ++ name.toList).all isNameChar = true ∧
      unqualified (q.toList ++ name.toList) = name.toList ∧ name ≠ "" := by
  decide

lemma IsNamed.chars (h : IsNamed names n) (hnames : names ⊆ knownNames) :
    ∀ c ∈ n, isNameChar c = true := by
  obtain ⟨q, hq, name, hname, rfl⟩ := h
  exact List.all_eq_true.mp (known_names q hq name (hnames hname)).1

lemma isNamed_iff (hnames : names ⊆ knownNames) :
    IsNamed names n ↔ String.ofList (unqualified n) ∈ names := by
  constructor
  · rintro ⟨q, hq, name, hname, rfl⟩
    rw [(known_names q hq name (hnames hname)).2.1, String.ofList_toList]
    exact hname
  · intro h
    have hqualified : ∃ q ∈ qualifiers, n = q.toList ++ unqualified n := by
      unfold unqualified
      split
      · next r hr =>
        exact ⟨"typing.", by decide, (List.isPrefixOf?_eq_some_iff_append_eq.mp hr).symm⟩
      · rcases hr : "t.".toList.isPrefixOf? n with _ | r
        · exact ⟨"", by decide, rfl⟩
        · exact ⟨"t.", by decide, (List.isPrefixOf?_eq_some_iff_append_eq.mp hr).symm⟩
    obtain ⟨q, hq, hn⟩ := hqualified
    exact ⟨q, hq, _, h, by rw [String.toList_ofList]; exact hn⟩

lemma former_ofName?_eq_some {f : Former} : Former.ofName? name = some f ↔ name ∈ f.names := by
  constructor
  · intro h
    unfold Former.ofName? at h
    split at h <;> cases h <;> decide
  · intro h
    cases f <;> simp only [Former.names, List.mem_cons, List.not_mem_nil, or_false] at h <;>
      rcases h with rfl | rfl <;> rfl

lemma ofName?_scalar {s : Scalar} (h : name ∈ s.names) : ofName? name = some (.scalar s) := by
  revert h name
  cases s <;> simp [Scalar.names, ofName?]

lemma ofName?_bare {f : Former} {a : Hint} (h : name ∈ f.names) (ha : f.bare? = some a) :
    ofName? name = some a.tag := by
  revert h name
  cases f <;> cases ha <;> simp [Former.names, ofName?, Hint.tag]

lemma ofName?_eq_some {t : TypeTag} : ofName? name = some t ↔
    (∃ s : Scalar, name ∈ s.names ∧ t = .scalar s) ∨
      ∃ (f : Former) (a : Hint), name ∈ f.names ∧ f.bare? = some a ∧ t = a.tag := by
  constructor
  · intro h
    unfold ofName? at h
    split at h <;> cases h
    all_goals first
      | exact .inl ⟨_, by decide, rfl⟩
      | exact .inr ⟨.list, _, by decide, rfl, rfl⟩
      | exact .inr ⟨.dict, _, by decide, rfl, rfl⟩
      | exact .inr ⟨.tuple, _, by decide, rfl, rfl⟩
  · rintro (⟨s, hs, rfl⟩ | ⟨f, a, hf, ha, rfl⟩)
    · exact ofName?_scalar hs
    · exact ofName?_bare hf ha

end Names

/-! ### Spelled texts -/

section Spelled

variable {w n g inner : List Char} {a : Hint} {names : List String}

lemma exists_mem_zip {α β : Type} {xs : List α} {ys : List β} (hlen : xs.length = ys.length) {x : α}
    (hx : x ∈ xs) : ∃ y ∈ ys, (x, y) ∈ xs.zip ys := by
  obtain ⟨i, hi, rfl⟩ := List.mem_iff_getElem.mp hx
  refine ⟨ys[i], List.getElem_mem _, List.mem_iff_getElem.mpr ⟨i, by simp; omega, ?_⟩⟩
  simp

lemma IsNamed.isSolid (h : IsNamed names n) (hnames : names ⊆ knownNames) :
    IsSolid n ∧ n ≠ [] := by
  constructor
  · refine isSolid_of_forall fun c hc => ?_
    have hchar := h.chars hnames c hc
    simp only [isNameChar, Bool.and_eq_true, Bool.not_eq_true'] at hchar
    exact hchar.1.1.1.1
  · obtain ⟨q, hq, name, hname, rfl⟩ := h
    have hne := (known_names q hq name (hnames hname)).2.2
    simp [hne]

lemma IsNamed.passes (h : IsNamed names n) (hnames : names ⊆ knownNames) {sep : Char}
    (hsep : sep = ',' ∨ sep = '|') {d : ℕ} : Passes sep d n := by
  have hchars := h.chars hnames
  simp only [isNameChar, Bool.and_eq_true, Bool.not_eq_true', bne_iff_ne] at hchars
  refine passes_of_forall (fun c hc => ⟨(hchars c hc).1.1.1.2, (hchars c hc).1.1.2⟩)
    (.inl fun hmem => ?_)
  rcases hsep with rfl | rfl
  · exact (hchars _ hmem).2 rfl
  · exact (hchars _ hmem).1.2 rfl

/-- A name with a subscript. -/
lemma isSolid_subscripted (hn : IsNamed names n) (hnames : names ⊆ knownNames) :
    IsSolid (n ++ g ++ '[' :: (inner ++ [']'])) ∧ n ++ g ++ '[' :: (inner ++ [']']) ≠ [] := by
  obtain ⟨hsolid, hne⟩ := hn.isSolid hnames
  refine ⟨?_, by simp⟩
  have h := hsolid.append (isSolid_singleton (c := ']') (by decide)) hne nofun (g ++ '[' :: inner)
  simpa using h

lemma passes_subscripted (hn : IsNamed names n) (hnames : names ⊆ knownNames) (hg : IsGap g)
    {sep : Char} (hsep : sep = ',' ∨ sep = '|') {d : ℕ} (hinner : Passes sep (d + 1) inner) :
    Passes sep d (n ++ g ++ '[' :: (inner ++ [']'])) := by
  have hblank : isBlank sep = false := by
    rcases hsep with rfl | rfl <;> decide
  exact ((hn.passes hnames hsep).append (hg.passes hblank)).append hinner.bracketed

/-- What is passed over in every item is passed over in the subscript. -/
lemma HasItems.passes {ws : List (List Char)} (h : HasItems inner ws) {sep : Char}
    (hsep : isBlank sep = false) {d : ℕ} (hws : ∀ w ∈ ws, Passes sep (d + 1) w) :
    Passes sep (d + 1) inner := by
  obtain ⟨ps, hps, rfl⟩ := h.parts
  refine hps.passes (by decide) hsep (.inr (Nat.succ_pos d)) fun p hp => ?_
  rcases p with _ | ⟨c, p⟩
  · exact passes_nil
  · exact hws _ (List.mem_filter.mpr ⟨hp, rfl⟩)

lemma Spells.isSolid (h : Spells w a) : IsSolid w ∧ w ≠ [] := by
  cases h with
  | scalar hn => exact hn.isSolid (Scalar.names_subset _)
  | literal hn =>
    rcases hn with rfl | rfl
    · exact ⟨isSolid_of_forall (List.all_iff_forall_prop.mp (by decide)), by decide⟩
    · exact ⟨isSolid_of_forall (List.all_iff_forall_prop.mp (by decide)), by decide⟩
  | bare hn => exact hn.isSolid (TypeTag.Former.names_subset _)
  | subscripted hn => exact isSolid_subscripted hn (TypeTag.Former.names_subset _)
  | tupleOf hn => exact isSolid_subscripted hn (TypeTag.Former.names_subset _)
  | choice htext hws hlen =>
    refine ⟨htext, ?_⟩
    rintro rfl
    simp only [List.length_cons] at hlen
    obtain ⟨w, hw⟩ := List.exists_mem_of_length_eq_add_one hlen
    have hle := hws.length_le w hw
    simp only [List.length_nil] at hle
    omega

/-- A hint is passed over, unless it is cut at its own bars. -/
lemma Spells.passes (h : Spells w a) {sep : Char} (hsep : sep = ',' ∨ sep = '|') {d : ℕ}
    (hd : 0 < d ∨ sep = ',' ∨ a.isChoice = false) : Passes sep d w := by
  have hblank : isBlank sep = false := by
    rcases hsep with rfl | rfl <;> decide
  induction h generalizing d with
  | scalar hn => exact hn.passes (Scalar.names_subset _) hsep
  | literal hn =>
    rcases hsep with rfl | rfl <;> rcases hn with rfl | rfl <;>
      exact passes_of_forall (List.all_iff_forall_prop.mp (by decide)) (.inl (by decide))
  | bare hn => exact hn.passes (TypeTag.Former.names_subset _) hsep
  | subscripted hn hg hws hlen _ _ ih =>
    refine passes_subscripted hn (TypeTag.Former.names_subset _) hg hsep
      (hws.passes hblank fun w hw => ?_)
    obtain ⟨b, -, hb⟩ := exists_mem_zip hlen hw
    exact ih hb (.inl (Nat.succ_pos d))
  | tupleOf hn hg hws _ ih =>
    refine passes_subscripted hn (TypeTag.Former.names_subset _) hg hsep
      (hws.passes hblank fun w hw => ?_)
    rcases List.mem_pair.mp hw with rfl | rfl
    · exact ih (.inl (Nat.succ_pos d))
    · exact passes_of_forall (List.all_iff_forall_prop.mp (by decide)) (.inr (Nat.succ_pos d))
  | choice _ hws hlen _ hplain ih =>
    have hne : '|' ≠ sep ∨ 0 < d := by
      rcases hd with hd | rfl | hd
      · exact .inr hd
      · exact .inl (by decide)
      · cases hd
    refine hws.passes (by decide) hblank hne fun w hw => ?_
    obtain ⟨b, hb, hzip⟩ := exists_mem_zip hlen hw
    exact ih hzip (.inr (.inr (hplain b hb)))

end Spelled

end ContractBuild.Abi

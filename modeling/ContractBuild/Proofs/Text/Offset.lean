import Mathlib
import ContractBuild.Text.Nested

/-!
Cutting a text at byte offsets. An offset below zero and a slice that does not begin and end between
two characters of the text are missteps. Reading that way, with the offsets counted along, makes
none and finds what the cuts of the text itself find.
-/

namespace ContractBuild.Text

/-- What a reading by offsets must not do. -/
inductive Misstep where
  | underflow
  | badSlice
  deriving DecidableEq

/-- The number of bytes of a text. -/
def size (cs : List Char) : ℕ := (String.ofList cs).utf8ByteSize

/-- `m - n`, which must not be negative. -/
def difference (m n : ℕ) : Except Misstep ℕ := if m < n then .error .underflow else .ok (m - n)

/-- The text from offset `n` on. -/
def sliceFrom : ℕ → List Char → Except Misstep (List Char)
  | n, [] => if n = 0 then .ok [] else .error .badSlice
  | n, c :: r =>
    if n = 0 then .ok (c :: r)
    else if n < c.utf8Size then .error .badSlice
    else sliceFrom (n - c.utf8Size) r

/-- The text up to offset `n`. -/
def sliceTo : ℕ → List Char → Except Misstep (List Char)
  | n, [] => if n = 0 then .ok [] else .error .badSlice
  | n, c :: r =>
    if n = 0 then .ok []
    else if n < c.utf8Size then .error .badSlice
    else return c :: (← sliceTo (n - c.utf8Size) r)

def slice (lo hi : ℕ) (cs : List Char) : Except Misstep (List Char) := do
  if hi < lo then .error .badSlice else sliceFrom lo (← sliceTo hi cs)

/-- Where in the text that goes on with `cs` at offset `i` the first `target` at depth `0` stands,
for the depth at `i` and the character before it. -/
def findAtDepth (target : Char) : Option Char → (depth i : ℕ) → List Char → Option ℕ
  | _, _, _, [] => none
  | prev, d, i, c :: r =>
    let onward (d : ℕ) := findAtDepth target (some c) d (i + c.utf8Size) r
    if isOpening c || isClosing c then onward (depthAfter d c)
    else if c == target && d == 0 then
      if target == '=' && (prev.any joinsEquals || r.head? == some '=') then onward d
      else some i
    else onward d

def findTop (target : Char) (cs : List Char) : Option ℕ := findAtDepth target none 0 0 cs

/-- The parts of `text` between the occurrences of `sep` at depth `0`, where the part that is being
read begins at `start` and the text goes on with `cs` at `i`. -/
def slicesAtDepth (text : List Char) (sep : Char) :
    (start depth i : ℕ) → List Char → Except Misstep (List (List Char))
  | start, _, _, [] => return [← sliceFrom start text]
  | start, d, i, c :: r =>
    if isOpening c || isClosing c then
      slicesAtDepth text sep start (depthAfter d c) (i + c.utf8Size) r
    else if c == sep && d == 0 then
      return (← slice start i text) ::
        (← slicesAtDepth text sep (i + c.utf8Size) d (i + c.utf8Size) r)
    else slicesAtDepth text sep start d (i + c.utf8Size) r

def slicesTop (sep : Char) (cs : List Char) : Except Misstep (List (List Char)) :=
  slicesAtDepth cs sep 0 0 0 cs

/-- Where the bracket stands that leads back to depth `0`. Nothing keeps the depth from falling
below it. -/
def closingAt : (depth i : ℕ) → List Char → Except Misstep (Option ℕ)
  | _, _, [] => return none
  | d, i, c :: r => do
    if isOpening c then closingAt (d + 1) (i + c.utf8Size) r
    else if isClosing c then
      let d ← difference d 1
      if d = 0 then return some i else closingAt d (i + c.utf8Size) r
    else closingAt d (i + c.utf8Size) r

/-- Where the bracket at offset `n` is closed. -/
def matchingBracket (n : ℕ) (cs : List Char) : Except Misstep (Option ℕ) := do
  return (← closingAt 0 0 (← sliceFrom n cs)).map (n + ·)

section Offsets

variable {u v cs : List Char} {c sep target : Char} {d i : ℕ}

/-! ### Slices -/

lemma ok_bind {α β : Type} (a : α) (f : α → Except Misstep β) : (Except.ok a >>= f) = f a := rfl

@[simp] lemma size_nil : size [] = 0 := by simp [size]

@[simp] lemma size_cons (c : Char) (cs : List Char) : size (c :: cs) = c.utf8Size + size cs := by
  simp [size]

@[simp] lemma size_append (u v : List Char) : size (u ++ v) = size u + size v := by
  simp [size]

/-- The offset behind a part of a text is between two characters. -/
@[simp] lemma sliceFrom_size (u v : List Char) : sliceFrom (size u) (u ++ v) = .ok v := by
  induction u with
  | nil => cases v <;> simp [sliceFrom]
  | cons c u ih =>
    have hpos := c.utf8Size_pos
    rw [List.cons_append, sliceFrom, size_cons, if_neg (by omega), if_neg (by omega),
      Nat.add_sub_cancel_left]
    exact ih

@[simp] lemma sliceTo_size (u v : List Char) : sliceTo (size u) (u ++ v) = .ok u := by
  induction u with
  | nil => cases v <;> simp [sliceTo]
  | cons c u ih =>
    have hpos := c.utf8Size_pos
    rw [List.cons_append, sliceTo, size_cons, if_neg (by omega), if_neg (by omega),
      Nat.add_sub_cancel_left, ih]
    rfl

lemma slice_size (u v w : List Char) : slice (size u) (size (u ++ v)) (u ++ v ++ w) = .ok v := by
  rw [slice, if_neg (by simp), sliceTo_size]
  exact sliceFrom_size u v

/-! ### Cuts outside brackets -/

lemma findAtDepth_eq (prev : Option Char) (d i : ℕ) (cs : List Char) :
    findAtDepth target prev d i cs = (cutAtDepth target prev d cs).map fun p => i + size p.1 := by
  induction cs generalizing prev d i with
  | nil => rfl
  | cons c r ih =>
    simp only [findAtDepth, cutAtDepth, ih]
    split_ifs <;> simp [Function.comp_def, Nat.add_assoc]

lemma findTop_eq (target : Char) (cs : List Char) :
    findTop target cs = (cutTop target cs).map fun p => size p.1 := by
  simp [findTop, cutTop, findAtDepth_eq]

lemma eq_of_cutAtDepth {prev : Option Char} (h : cutAtDepth target prev d cs = some (u, v)) :
    cs = u ++ target :: v := by
  induction cs generalizing prev d u with
  | nil => cases h
  | cons c r ih =>
    have honward : ∀ {d'}, ((cutAtDepth target (some c) d' r).map fun p => (c :: p.1, p.2)) =
        some (u, v) → c :: r = u ++ target :: v := by
      intro d' h
      obtain ⟨⟨u', v'⟩, hcut, heq⟩ := Option.map_eq_some_iff.mp h
      cases heq
      rw [ih hcut, List.cons_append]
    simp only [cutAtDepth] at h
    split_ifs at h with hbracket hcut hequals
    · exact honward h
    · exact honward h
    · cases h
      obtain rfl := beq_iff_eq.mp (Bool.and_eq_true_iff.mp hcut).1
      rfl
    · exact honward h

/-- A cut at a character of one byte, by its offset. -/
lemma findTop_of_cutTop (h : cutTop target cs = some (u, v)) (hsize : target.utf8Size = 1) :
    findTop target cs = some (size u) ∧ sliceTo (size u) cs = .ok u ∧
      sliceFrom (size u + 1) cs = .ok v := by
  have heq := eq_of_cutAtDepth h
  have hbehind : size u + 1 = size (u ++ [target]) := by simp [hsize]
  refine ⟨by rw [findTop_eq, h]; rfl, by rw [heq, sliceTo_size], ?_⟩
  rw [hbehind, heq, List.append_cons u target v]
  exact sliceFrom_size _ v

/-- Of two cuts of one text the shorter one is the one with fewer bytes. -/
lemma size_lt_iff (hu : u <+: cs) (hv : v <+: cs) : size u < size v ↔ u.length < v.length := by
  rcases List.prefix_or_prefix_of_prefix hu hv with ⟨w, rfl⟩ | ⟨w, rfl⟩
  · cases w with
    | nil => simp
    | cons c w =>
      have hpos := c.utf8Size_pos
      simp only [size_append, size_cons, List.length_append, List.length_cons]
      omega
  · simp

/-- Of a part only what has been read of it matters. -/
lemma slicesAtDepth_eq {text : List Char} (before taken cs : List Char)
    (h : text = before ++ taken ++ cs) (d : ℕ) :
    slicesAtDepth text sep (size before) d (size (before ++ taken)) cs =
      .ok ((splitAtDepth sep d cs).modifyHead (taken ++ ·)) := by
  induction cs generalizing before taken d with
  | nil =>
    rw [slicesAtDepth, h, List.append_assoc, sliceFrom_size]
    rfl
  | cons c r ih =>
    have hsize : size (before ++ taken) + c.utf8Size = size (before ++ taken ++ [c]) := by
      simp [Nat.add_assoc]
    have honward : ∀ d', slicesAtDepth text sep (size before) d'
        (size (before ++ taken) + c.utf8Size) r =
          .ok (((splitAtDepth sep d' r).modifyHead (c :: ·)).modifyHead (taken ++ ·)) := by
      intro d'
      rw [hsize, List.append_assoc, ih before (taken ++ [c]) (by simp [h]),
        List.modifyHead_modifyHead]
      simp [Function.comp_def]
    simp only [slicesAtDepth, splitAtDepth]
    split_ifs with hbracket hcut
    · exact honward _
    · -- the separator ends the part, and the next one begins with nothing taken
      have hpart : slice (size before) (size (before ++ taken)) text = .ok taken := by
        rw [h]
        exact slice_size before taken (c :: r)
      have hrest : slicesAtDepth text sep (size (before ++ taken) + c.utf8Size) d
          (size (before ++ taken) + c.utf8Size) r = .ok (splitAtDepth sep d r) := by
        have hnext := ih (before ++ taken ++ [c]) [] (by simp [h]) d
        rw [List.append_nil, ← hsize] at hnext
        rw [hnext]
        exact congrArg _ (congrFun List.modifyHead_id _)
      rw [hpart, hrest, List.modifyHead_cons, List.append_nil]
      rfl
    · exact honward _

lemma slicesTop_eq (sep : Char) (cs : List Char) : slicesTop sep cs = .ok (splitTop sep cs) := by
  have h : slicesAtDepth cs sep (size []) 0 (size ([] ++ [])) cs = _ :=
    slicesAtDepth_eq [] [] cs rfl 0
  rw [List.append_nil, size_nil] at h
  rw [slicesTop, h]
  exact congrArg _ (congrFun List.modifyHead_id _)

/-! ### Matching brackets -/

lemma closingAt_eq (d i : ℕ) (cs : List Char) :
    closingAt (d + 1) i cs = .ok ((cutClosing (d + 1) cs).map fun p => i + size p.1) := by
  induction cs generalizing d i with
  | nil => rfl
  | cons c r ih =>
    have honward : ∀ d', closingAt (d' + 1) (i + c.utf8Size) r = .ok
        (((cutClosing (d' + 1) r).map fun p => (c :: p.1, p.2)).map fun p => i + size p.1) := by
      intro d'
      simp [ih, Function.comp_def, Nat.add_assoc]
    have hdown : difference (d + 1) 1 = .ok d := by simp [difference]
    -- at depth `1` a closing bracket is the one looked for, so that the depth stays positive
    cases d with
    | zero =>
      simp only [closingAt, cutClosing, hdown]
      split_ifs with hopen hclose hle
      · exact honward 1
      · rfl
      · exact absurd le_rfl hle
      · exact honward 0
    | succ d =>
      simp only [closingAt, cutClosing, hdown]
      split_ifs with hopen hclose hle
      · exact honward (d + 2)
      · omega
      · exact honward d
      · exact honward (d + 1)

lemma matchingBracket_eq (hc : isOpening c = true) (before body : List Char) :
    matchingBracket (size before) (before ++ c :: body) =
      .ok ((cutClosing 1 body).map fun p => size (before ++ c :: p.1)) := by
  have hfirst : closingAt 0 0 (c :: body) = closingAt 1 (0 + c.utf8Size) body := by
    simp [closingAt, hc]
  have hclosing := closingAt_eq 0 (0 + c.utf8Size) body
  rw [← hfirst] at hclosing
  rw [matchingBracket, sliceFrom_size]
  change (closingAt 0 0 (c :: body) >>= fun n? => pure (n?.map (size before + ·))) = _
  rw [hclosing]
  simp [Function.comp_def]

/-- Where nothing has been opened, a closing bracket is a misstep. -/
example : matchingBracket 0 [')'] = .error .underflow := by rfl

lemma eq_of_cutClosing (h : cutClosing d cs = some (u, v)) :
    ∃ c, isClosing c = true ∧ cs = u ++ c :: v := by
  induction cs generalizing d u with
  | nil => cases h
  | cons c r ih =>
    have honward : ∀ {d'}, ((cutClosing d' r).map fun p => (c :: p.1, p.2)) = some (u, v) →
        ∃ c', isClosing c' = true ∧ c :: r = u ++ c' :: v := by
      intro d' h
      obtain ⟨⟨u', v'⟩, hcut, heq⟩ := Option.map_eq_some_iff.mp h
      cases heq
      obtain ⟨c', hc', rfl⟩ := ih hcut
      exact ⟨c', hc', rfl⟩
    simp only [cutClosing] at h
    split_ifs at h with hopen hclose hle
    · exact honward h
    · cases h
      exact ⟨c, hclose, rfl⟩
    · exact honward h
    · exact honward h

/-- Brackets that are all closed at the end of a text are closed in it. -/
lemma exists_cutClosing (h : cs.foldl depthAfter (d + 1) = 0) :
    ∃ u v, cutClosing (d + 1) cs = some (u, v) := by
  induction cs generalizing d with
  | nil => cases h
  | cons c r ih =>
    have honward : ∀ {d'}, r.foldl depthAfter (d' + 1) = 0 →
        ∃ u v, ((cutClosing (d' + 1) r).map fun p => (c :: p.1, p.2)) = some (u, v) := by
      intro d' h
      obtain ⟨u, v, hcut⟩ := ih h
      exact ⟨c :: u, v, by rw [hcut]; rfl⟩
    rw [List.foldl_cons, depthAfter] at h
    simp only [cutClosing]
    split_ifs at h ⊢ with hopen hclose hle
    · exact honward h
    · exact ⟨[], r, rfl⟩
    · obtain ⟨d, rfl⟩ : ∃ d', d = d' + 1 := ⟨d - 1, by omega⟩
      exact honward h
    · exact honward h

lemma utf8Size_of_isClosing (hc : isClosing c = true) : c.utf8Size = 1 := by
  simp only [isClosing, Bool.or_eq_true, beq_iff_eq] at hc
  rcases hc with (rfl | rfl) | rfl <;> decide

end Offsets

end ContractBuild.Text

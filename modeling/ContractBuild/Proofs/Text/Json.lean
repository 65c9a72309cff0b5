import Mathlib
import ContractBuild.Text.Json
import ContractBuild.Proofs.Text.Decimal
import ContractBuild.Proofs.Text.Delimited
import ContractBuild.Proofs.Text.Utf8

/-!
The indented text of a value is read back as that value, if its numbers are natural numbers in
decimal.
-/

namespace ContractBuild.Text.Json

open Utf8 (Piece)

/-! ### Strings -/

lemma hexValue_hexDigit : ∀ n < 16, hexValue (hexDigit n) = some n := by decide

lemma hexFour_control {n : ℕ} (h : n < 0x20) :
    hexFour '0' '0' (hexDigit (n / 16)) (hexDigit (n % 16)) = some n := by
  have h0 : hexValue '0' = some 0 := by decide
  have h1 := hexValue_hexDigit (n / 16) (by omega)
  have h2 := hexValue_hexDigit (n % 16) (by omega)
  simp only [hexFour, h0, h1, h2, Option.bind_eq_bind, Option.bind_some, Option.pure_def]
  exact congrArg some (by omega)

lemma chars?_char (c : Char) (es : List Element) :
    chars? (.char c :: es) = (chars? es).map (c :: ·) := by
  rw [chars?]

lemma chars?_control {c : Char} (h : c.toNat < 0x20) (es : List Element) :
    chars? (.unit c.toNat :: es) = (chars? es).map (c :: ·) := by
  rw [chars?.eq_def]
  simp only []
  rw [if_neg (by omega), if_neg (by omega), Char.ofNat_toNat]

/-- A character is written as one element, which stands for it. -/
lemma stringBody_escape (c : Char) : ∃ e,
    (∀ r, stringBody ((escape c).map .char ++ r) = (stringBody r).map fun p => (e :: p.1, p.2)) ∧
      ∀ es, chars? (e :: es) = (chars? es).map (c :: ·) := by
  unfold escape
  split_ifs with h1 h2 h3 h4 h5 h6 h7 h8
  · exact ⟨.char c, fun r => by simp [stringBody, simpleEscape, beq_iff_eq.mp h1], chars?_char c⟩
  · exact ⟨.char c, fun r => by simp [stringBody, simpleEscape, beq_iff_eq.mp h2], chars?_char c⟩
  · exact ⟨.char c, fun r => by simp [stringBody, simpleEscape, beq_iff_eq.mp h3], chars?_char c⟩
  · exact ⟨.char c, fun r => by simp [stringBody, simpleEscape, beq_iff_eq.mp h4], chars?_char c⟩
  · exact ⟨.char c, fun r => by simp [stringBody, simpleEscape, beq_iff_eq.mp h5], chars?_char c⟩
  · exact ⟨.char c, fun r => by simp [stringBody, simpleEscape, beq_iff_eq.mp h6], chars?_char c⟩
  · exact ⟨.char c, fun r => by simp [stringBody, simpleEscape, beq_iff_eq.mp h7], chars?_char c⟩
  · -- a control character is written as its number
    refine ⟨.unit c.toNat, fun r => ?_, chars?_control h8⟩
    simp only [List.map_cons, List.map_nil, List.cons_append, List.nil_append]
    rw [stringBody, hexFour_control h8]
  · have hq : c ≠ '"' := by simpa using h1
    have hb : c ≠ '\\' := by simpa using h2
    refine ⟨.char c, fun r => ?_, chars?_char c⟩
    simp only [List.map_cons, List.map_nil, List.cons_append, List.nil_append]
    rw [stringBody]
    · rw [if_neg h8]
    · simpa using hq
    · simp [hb]
    · simp [hb]
    · simp [hb]

lemma stringBody_quote (cs : List Char) (r : List Piece) : ∃ es,
    stringBody ((cs.flatMap escape).map .char ++ .char '"' :: r) = some (es, r) ∧
      chars? es = some cs := by
  induction cs with
  | nil => exact ⟨[], by simp [stringBody], rfl⟩
  | cons c cs ih =>
    obtain ⟨es, hread, hchars⟩ := ih
    obtain ⟨e, hescape, hstands⟩ := stringBody_escape c
    refine ⟨e :: es, ?_, ?_⟩
    · rw [List.flatMap_cons, List.map_append, List.append_assoc, hescape, hread]
      rfl
    · rw [hstands, hchars]
      rfl

lemma string_quote (s : String) (r : List Piece) :
    string ((s.toList.flatMap escape).map .char ++ .char '"' :: r) = some (some s, r) := by
  obtain ⟨es, hread, hchars⟩ := stringBody_quote s.toList r
  rw [string, hread]
  simp only [Option.map_some, hchars, String.ofList_toList]

/-! ### Numbers -/

/-- What may come after a value: a number does not go on there. -/
def Stops (r : List Piece) : Prop :=
  r = [] ∨ r.head? = some (.char ',') ∨ r.head? = some (.char '\n')

lemma stops_comma (r : List Piece) : Stops (.char ',' :: r) := .inr (.inl rfl)

lemma stops_newline (depth : ℕ) (r : List Piece) : Stops ((newline depth).map .char ++ r) :=
  .inr (.inr rfl)

lemma fraction_of_stops {r : List Piece} (h : Stops r) : fraction r = some ([], r) := by
  rcases r with _ | ⟨c, r⟩
  · rfl
  · rcases h with h | h | h
    · cases h
    · cases h; rfl
    · cases h; rfl

lemma exponent_of_stops {r : List Piece} (h : Stops r) : exponent r = some ([], r) := by
  rcases r with _ | ⟨c, r⟩
  · rfl
  · rcases h with h | h | h
    · cases h
    · cases h; rfl
    · cases h; rfl

lemma run_append {p : Char → Bool} {cs : List Char} (hcs : ∀ c ∈ cs, p c = true)
    (r : List Piece) : run p (cs.map .char ++ r) = (cs ++ (run p r).1, (run p r).2) := by
  induction cs with
  | nil => rfl
  | cons c cs ih =>
    rw [List.map_cons, List.cons_append, run, if_pos (hcs c List.mem_cons_self),
      ih fun d hd => hcs d (List.mem_cons_of_mem c hd)]
    rfl

lemma run_digits {ds : List Char} {r : List Piece} (hds : ∀ c ∈ ds, c.isDigit = true)
    (hr : Stops r) : run Char.isDigit (ds.map .char ++ r) = (ds, r) := by
  rw [run_append hds]
  rcases r with _ | ⟨c, r⟩
  · simp [run]
  · rcases hr with h | h | h
    · cases h
    · cases h; simp [run]
    · cases h; simp [run]

lemma intDigits_toDigits (n : ℕ) {r : List Piece} (hr : Stops r) :
    intDigits ((Nat.toDigits 10 n).map .char ++ r) = some (Nat.toDigits 10 n, r) := by
  have hdigits : ∀ c ∈ Nat.toDigits 10 n, c.isDigit = true := fun c hc =>
    Nat.isDigit_of_mem_toDigits (by decide) (by decide) hc
  rcases toDigits_zero_or n with hz | ⟨c, cs, hc, hne⟩
  · rw [hz]; rfl
  · have hrun := run_digits hdigits hr
    rw [hc] at hrun ⊢
    unfold intDigits
    split
    · next h => exact absurd (Piece.char.inj (List.cons.inj h).1) hne
    · rw [hrun]
      rfl

lemma sign_digit {signs cs : List Char} {c : Char} (h : signs.contains c = false)
    (r : List Piece) : sign signs ((c :: cs).map .char ++ r) = ([], (c :: cs).map .char ++ r) := by
  rw [List.map_cons, List.cons_append, sign]
  simp only [h]
  rfl

lemma number_nat (n : ℕ) {r : List Piece} (hr : Stops r) :
    number ((toString n).toList.map .char ++ r) = some (.nat n, r) := by
  rw [Nat.toString_eq_ofList_toDigits, String.toList_ofList]
  have hsign : sign ['-'] ((Nat.toDigits 10 n).map .char ++ r) =
      ([], (Nat.toDigits 10 n).map .char ++ r) := by
    rcases hd : Nat.toDigits 10 n with _ | ⟨c, cs⟩
    · exact absurd hd Nat.toDigits_ne_nil
    · have hc : c.isDigit = true := by
        refine Nat.isDigit_of_mem_toDigits (b := 10) (n := n) (by decide) (by decide) ?_
        rw [hd]
        exact List.mem_cons_self
      have hne : c ≠ '-' := by rintro rfl; revert hc; decide
      exact sign_digit (by simp [hne]) r
  unfold number
  rw [hsign]
  simp only [Option.bind_eq_bind, intDigits_toDigits n hr, Option.bind_some, fraction_of_stops hr,
    exponent_of_stops hr, List.append_nil, List.nil_append, Option.pure_def]
  rw [Value.nat, Nat.toString_eq_ofList_toDigits]

/-! ### Values -/

lemma skipSpace_newline (depth : ℕ) (r : List Piece) :
    skipSpace ((newline depth).map .char ++ r) = skipSpace r := by
  rw [skipSpace, run_append]
  · rfl
  · intro c hc
    rcases List.mem_cons.mp hc with rfl | hc
    · decide
    · rw [(List.mem_replicate.mp hc).2]
      decide

lemma skipSpace_cons {c : Char} (h : isSpace c = false) (r : List Piece) :
    skipSpace (.char c :: r) = .char c :: r := by
  rw [skipSpace, run, h]
  rfl

lemma skipSpace_blank (r : List Piece) : skipSpace (.char ' ' :: r) = skipSpace r := by
  rw [skipSpace, run, if_pos (by decide)]
  rfl

mutual

/-- A value as it is read back. -/
def loose : Json → Loose
  | .null => .null
  | .bool b => .bool b
  | .num w => .num w
  | .str s => .str (some s)
  | .arr xs => .arr (looseItems xs)
  | .obj ms => .obj (looseMembers ms)

def looseItems : List Json → List Loose
  | [] => []
  | x :: xs => loose x :: looseItems xs

def looseMembers : List (String × Json) → List (Option String × Loose)
  | [] => []
  | (k, v) :: ms => (some k, loose v) :: looseMembers ms

end

/-- Values whose numbers are natural numbers in decimal. -/
inductive IsNatural : Json → Prop where
  | null : IsNatural .null
  | bool (b : Bool) : IsNatural (.bool b)
  | nat (n : ℕ) : IsNatural (.nat n)
  | str (s : String) : IsNatural (.str s)
  | arr {items : List Json} (h : ∀ x ∈ items, IsNatural x) : IsNatural (.arr items)
  | obj {members : List (String × Json)} (h : ∀ m ∈ members, IsNatural m.2) :
      IsNatural (.obj members)

/-- The text of a value is read as that value wherever it may end. -/
def Reads (j : Json) : Prop :=
  ∀ depth fuel r, (pretty depth j).length ≤ fuel → Stops r →
    value fuel ((pretty depth j).map .char ++ r) = some (loose j, r)

/-- Blanks in front of a value do not count. -/
lemma value_newline (fuel depth : ℕ) (ps : List Piece) :
    value fuel ((newline depth).map .char ++ ps) = value fuel ps := by
  cases fuel with
  | zero => rfl
  | succ fuel => rw [value, value, skipSpace_newline]

lemma items_newline (fuel depth : ℕ) (ps : List Piece) :
    items fuel ((newline depth).map .char ++ ps) = items fuel ps := by
  cases fuel with
  | zero => rfl
  | succ fuel => rw [items, items, value_newline]

lemma members_newline (fuel depth : ℕ) (ps : List Piece) :
    members fuel ((newline depth).map .char ++ ps) = members fuel ps := by
  cases fuel with
  | zero => rfl
  | succ fuel => rw [members, members, skipSpace_newline]

lemma stops_prettyItems (depth depth' : ℕ) (xs : List Json) (r : List Piece) :
    Stops ((prettyItems depth xs).map .char ++ ((newline depth').map .char ++ r)) := by
  cases xs with
  | nil => exact stops_newline depth' r
  | cons x xs => exact stops_comma _

lemma stops_prettyMembers (depth depth' : ℕ) (ms : List (String × Json)) (r : List Piece) :
    Stops ((prettyMembers depth ms).map .char ++ ((newline depth').map .char ++ r)) := by
  rcases ms with _ | ⟨⟨k, v⟩, ms⟩
  · exact stops_newline depth' r
  · exact stops_comma _

lemma items_pretty (depth depth' fuel : ℕ) {x : Json} {xs : List Json} (hx : Reads x)
    (hxs : ∀ y ∈ xs, Reads y) (r : List Piece)
    (hfuel : (pretty depth x ++ prettyItems depth xs).length < fuel) :
    items fuel ((pretty depth x).map .char ++ ((prettyItems depth xs).map .char ++
      ((newline depth').map .char ++ .char ']' :: r))) = some (looseItems (x :: xs), r) := by
  induction xs generalizing x fuel with
  | nil =>
    obtain ⟨fuel, rfl⟩ : ∃ n, fuel = n + 1 := ⟨fuel - 1, by omega⟩
    rw [List.length_append] at hfuel
    rw [items, hx depth fuel _ (by omega) (stops_prettyItems _ _ _ _)]
    simp only [prettyItems, List.map_nil, List.nil_append, skipSpace_newline]
    rw [skipSpace_cons (by decide)]
    rfl
  | cons y ys ih =>
    obtain ⟨fuel, rfl⟩ : ∃ n, fuel = n + 1 := ⟨fuel - 1, by omega⟩
    rw [prettyItems] at hfuel
    simp only [List.length_append, List.length_cons] at hfuel
    rw [items, hx depth fuel _ (by omega) (stops_prettyItems _ _ _ _)]
    simp only [prettyItems, List.map_cons, List.map_append, List.cons_append, List.append_assoc]
    rw [skipSpace_cons (by decide)]
    simp only []
    rw [items_newline, ih fuel (hxs y List.mem_cons_self)
      (fun z hz => hxs z (List.mem_cons_of_mem _ hz))]
    · rfl
    · rw [List.length_append]
      omega

/-- The name of a member is read, and then its value. -/
lemma members_quote (fuel : ℕ) (k : String) (ps : List Piece) :
    members (fuel + 1) ((quote k).map .char ++ .char ':' :: .char ' ' :: ps) =
      match value fuel ps with
      | none => none
      | some (v, r) =>
        match skipSpace r with
        | .char ',' :: r' => (members fuel r').map fun p => ((some k, v) :: p.1, p.2)
        | .char '\x7d' :: r' => some ([(some k, v)], r')
        | _ => none := by
  have hblank : value fuel (.char ' ' :: ps) = value fuel ps := by
    cases fuel with
    | zero => rfl
    | succ fuel => rw [value, value, skipSpace_blank]
  rw [members, quote, List.map_cons, List.cons_append, skipSpace_cons (by decide)]
  simp only [List.map_append, List.map_cons, List.map_nil, List.append_assoc,
    List.singleton_append, chars_eq, string_quote]
  rw [skipSpace_cons (by decide)]
  simp only []
  exact hblank ▸ rfl

lemma members_pretty (depth depth' fuel : ℕ) (k : String) {v : Json} {ms : List (String × Json)}
    (hv : Reads v) (hms : ∀ m ∈ ms, Reads m.2) (r : List Piece)
    (hfuel : (pretty depth v ++ prettyMembers depth ms).length < fuel) :
    members fuel ((quote k).map .char ++ .char ':' :: .char ' ' :: ((pretty depth v).map .char ++
      ((prettyMembers depth ms).map .char ++ ((newline depth').map .char ++ .char '\x7d' :: r)))) =
      some (looseMembers ((k, v) :: ms), r) := by
  induction ms generalizing k v fuel with
  | nil =>
    obtain ⟨fuel, rfl⟩ : ∃ n, fuel = n + 1 := ⟨fuel - 1, by omega⟩
    rw [List.length_append] at hfuel
    rw [members_quote, hv depth fuel _ (by omega) (stops_prettyMembers _ _ _ _)]
    simp only [prettyMembers, List.map_nil, List.nil_append, skipSpace_newline]
    rw [skipSpace_cons (by decide)]
    rfl
  | cons m ms ih =>
    obtain ⟨fuel, rfl⟩ : ∃ n, fuel = n + 1 := ⟨fuel - 1, by omega⟩
    obtain ⟨k', v'⟩ := m
    rw [prettyMembers] at hfuel
    simp only [List.length_append, List.length_cons] at hfuel
    rw [members_quote, hv depth fuel _ (by omega) (stops_prettyMembers _ _ _ _)]
    simp only [prettyMembers, List.map_cons, List.map_append, List.cons_append,
      List.append_assoc, List.nil_append]
    rw [skipSpace_cons (by decide)]
    simp only []
    rw [members_newline, ih fuel k' (show Reads v' from hms (k', v') List.mem_cons_self)
      (fun z hz => hms z (List.mem_cons_of_mem _ hz))]
    · rfl
    · rw [List.length_append]
      omega

/-- The text of a value begins neither with a blank nor with what closes a list. -/
lemma IsNatural.pretty_head {j : Json} (h : IsNatural j) (depth : ℕ) :
    ∃ c cs, pretty depth j = c :: cs ∧ isSpace c = false ∧ c ≠ ']' := by
  cases h with
  | null => exact ⟨'n', _, by rw [pretty]; rfl, by decide, by decide⟩
  | bool b =>
    cases b with
    | false => exact ⟨'f', _, by rw [pretty]; rfl, by decide, by decide⟩
    | true => exact ⟨'t', _, by rw [pretty]; rfl, by decide, by decide⟩
  | nat n =>
    rw [Value.nat, pretty]
    rcases hd : (toString n).toList with _ | ⟨c, cs⟩
    · rw [Nat.toString_eq_ofList_toDigits, String.toList_ofList] at hd
      exact absurd hd Nat.toDigits_ne_nil
    · have hc : c.isDigit = true := isDigit_of_mem_toString (by rw [hd]; exact List.mem_cons_self)
      refine ⟨c, cs, rfl, ?_, ?_⟩
      · cases hs : isSpace c with
        | false => rfl
        | true =>
          simp only [isSpace, Bool.or_eq_true, beq_iff_eq] at hs
          rcases hs with ((rfl | rfl) | rfl) | rfl <;> revert hc <;> decide
      · rintro rfl
        revert hc
        decide
  | str s => exact ⟨'"', _, by rw [pretty]; rfl, by decide, by decide⟩
  | @arr items h =>
    cases items with
    | nil => exact ⟨'[', _, by rw [pretty]; rfl, by decide, by decide⟩
    | cons x xs => exact ⟨'[', _, by rw [pretty], by decide, by decide⟩
  | @obj members h =>
    rcases members with _ | ⟨⟨k, v⟩, ms⟩
    · exact ⟨'\x7b', _, by rw [pretty], by decide, by decide⟩
    · exact ⟨'\x7b', _, by rw [pretty], by decide, by decide⟩

lemma IsNatural.exists_fuel {j : Json} (h : IsNatural j) {depth fuel : ℕ}
    (hfuel : (pretty depth j).length ≤ fuel) : ∃ n, fuel = n + 1 := by
  obtain ⟨c, cs, hc, -⟩ := h.pretty_head depth
  rw [hc, List.length_cons] at hfuel
  exact ⟨fuel - 1, by omega⟩

/-- A number is not mistaken for another value. -/
lemma value_digit {c : Char} (hc : c.isDigit = true) (fuel : ℕ) (ps : List Piece) :
    value (fuel + 1) (.char c :: ps) = number (.char c :: ps) := by
  have hne : ∀ d : Char, d.isDigit = false → c ≠ d := by
    rintro d hd rfl
    rw [hc] at hd
    cases hd
  have hspace : isSpace c = false := by
    simp only [isSpace, Bool.or_eq_false_iff, beq_eq_false_iff_ne]
    exact ⟨⟨⟨hne _ (by decide), hne _ (by decide)⟩, hne _ (by decide)⟩, hne _ (by decide)⟩
  rw [value, skipSpace_cons hspace]
  split
  · next h => exact absurd (Piece.char.inj (List.cons.inj h).1) (hne _ (by decide))
  · next h => exact absurd (Piece.char.inj (List.cons.inj h).1) (hne _ (by decide))
  · next h => exact absurd (Piece.char.inj (List.cons.inj h).1) (hne _ (by decide))
  · next h => exact absurd (Piece.char.inj (List.cons.inj h).1) (hne _ (by decide))
  · next h => exact absurd (Piece.char.inj (List.cons.inj h).1) (hne _ (by decide))
  · next h => exact absurd (Piece.char.inj (List.cons.inj h).1) (hne _ (by decide))
  · rfl

lemma IsNatural.reads {j : Json} (h : IsNatural j) : Reads j := by
  induction h with
  | null =>
    intro depth fuel r hfuel hr
    obtain ⟨fuel, rfl⟩ := IsNatural.null.exists_fuel hfuel
    rw [pretty, value]
    rfl
  | bool b =>
    intro depth fuel r hfuel hr
    obtain ⟨fuel, rfl⟩ := (IsNatural.bool b).exists_fuel hfuel
    rw [pretty, value]
    cases b <;> rfl
  | nat n =>
    intro depth fuel r hfuel hr
    obtain ⟨fuel, rfl⟩ := (IsNatural.nat n).exists_fuel hfuel
    have hread := number_nat n hr
    rw [Value.nat, pretty]
    rcases hd : (toString n).toList with _ | ⟨c, cs⟩
    · rw [Nat.toString_eq_ofList_toDigits, String.toList_ofList] at hd
      exact absurd hd Nat.toDigits_ne_nil
    · have hc : c.isDigit = true := isDigit_of_mem_toString (by rw [hd]; exact List.mem_cons_self)
      rw [hd, List.map_cons, List.cons_append] at hread
      rw [List.map_cons, List.cons_append, value_digit hc]
      exact hread
  | str s =>
    intro depth fuel r hfuel hr
    obtain ⟨fuel, rfl⟩ := (IsNatural.str s).exists_fuel hfuel
    rw [pretty, quote, value, List.map_cons, List.cons_append, skipSpace_cons (by decide)]
    simp only [List.map_append, List.map_cons, List.map_nil, List.append_assoc,
      List.singleton_append, chars_eq, string_quote, Option.map_some]
    rfl
  | @arr items h ih =>
    intro depth fuel r hfuel hr
    obtain ⟨fuel, rfl⟩ := (IsNatural.arr h).exists_fuel hfuel
    cases items with
    | nil =>
      rw [pretty, value]
      rfl
    | cons x xs =>
      obtain ⟨c, cs, hc, hspace, hclose⟩ := (h x List.mem_cons_self).pretty_head (depth + 1)
      rw [pretty] at hfuel ⊢
      simp only [List.length_cons, List.length_append] at hfuel
      have hitems := items_pretty (depth + 1) depth fuel
        (ih x List.mem_cons_self) (fun y hy => ih y (List.mem_cons_of_mem _ hy)) r
        (by rw [List.length_append]; omega)
      rw [value, List.map_cons, List.cons_append, skipSpace_cons (by decide)]
      simp only [List.map_append, List.map_cons, List.map_nil, List.append_assoc,
        skipSpace_newline, List.singleton_append]
      rw [hc, List.map_cons, List.cons_append] at hitems ⊢
      rw [skipSpace_cons hspace]
      split
      · next heq => exact absurd (Piece.char.inj (List.cons.inj heq).1) hclose
      · rw [hitems]
        rfl
  | @obj members h ih =>
    intro depth fuel r hfuel hr
    obtain ⟨fuel, rfl⟩ := (IsNatural.obj h).exists_fuel hfuel
    rcases members with _ | ⟨⟨k, v⟩, ms⟩
    · rw [pretty, value]
      rfl
    · rw [pretty] at hfuel ⊢
      simp only [List.length_cons, List.length_append] at hfuel
      have hmembers := members_pretty (depth + 1) depth fuel k
        (show Reads v from ih (k, v) List.mem_cons_self)
        (fun m hm => ih m (List.mem_cons_of_mem _ hm)) r (by rw [List.length_append]; omega)
      rw [value, List.map_cons, List.cons_append, skipSpace_cons (by decide)]
      simp only [List.map_append, List.map_cons, List.map_nil, List.append_assoc,
        skipSpace_newline, List.cons_append, List.nil_append]
      rw [quote, List.map_cons, List.cons_append] at hmembers ⊢
      rw [skipSpace_cons (by decide)]
      split
      · next heq => exact absurd (Piece.char.inj (List.cons.inj heq).1) (by decide)
      · rw [hmembers]
        rfl

/-- **Round trip**: the indented text of a value is read as the value. Blanks may follow it. -/
lemma parse_pretty {j : Json} (h : IsNatural j) {r : List Char} (hstops : Stops (r.map .char))
    (hblank : skipSpace (r.map .char) = []) :
    parse (Utf8.encodeChars (pretty 0 j ++ r)) = some (loose j) := by
  have hlength : (pretty 0 j).length ≤ (Utf8.encodeChars (pretty 0 j ++ r)).length :=
    calc (pretty 0 j).length ≤ (pretty 0 j ++ r).length := by rw [List.length_append]; omega
      _ ≤ _ := Utf8.length_le_encodeChars _
  rw [parse, Utf8.pieces_encodeChars, List.map_append, h.reads 0 _ _ (by omega) hstops]
  simp only [hblank]
  rfl

/-! ### Members and items -/

lemma member?_skip {k name : String} (h : k ≠ name) (ms ms' : List (String × Loose)) (v : Loose) :
    member? (ms ++ (k, v) :: ms') name = member? (ms ++ ms') name := by
  have hk : (k == name) = false := by simpa using h
  rw [member?, member?, List.filter_append, List.filter_cons, hk, List.filter_append]
  rfl

lemma named_append (ms ms' : List (Option String × Loose)) :
    named (ms ++ ms') = (named ms).bind fun as => (named ms').map (as ++ ·) := by
  rw [named, List.mapM_append]
  rcases hms : named ms with _ | as
  · rw [named] at hms
    rw [hms]
    rfl
  · rw [named] at hms
    rw [hms]
    exact (Option.map_eq_bind).symm

/-- A member under another name is skipped, whatever it holds. -/
lemma members?_skip {names : List String} {k : String} (h : k ∉ names)
    (ms ms' : List (Option String × Loose)) (v : Loose) :
    members? names (.obj (ms ++ (some k, v) :: ms')) = members? names (.obj (ms ++ ms')) := by
  have hnames : ∀ as as' : List (String × Loose),
      names.mapM (member? (as ++ (k, v) :: as')) = names.mapM (member? (as ++ as')) := by
    intro as as'
    induction names with
    | nil => rfl
    | cons name names ih =>
      rw [List.mem_cons, not_or] at h
      rw [List.mapM_cons, List.mapM_cons, member?_skip h.1, ih h.2]
  have hcons : named ((some k, v) :: ms') = (named ms').map ((k, v) :: ·) := by
    rw [named, List.mapM_cons]
    exact (Option.map_eq_bind).symm
  simp only [members?, named_append, hcons, Option.bind_eq_bind]
  rcases named ms with _ | as
  · rfl
  · rcases named ms' with _ | as'
    · rfl
    · exact hnames as as'

lemma looseItems_map {α : Type} (toJson : α → Json) (as : List α) :
    looseItems (as.map toJson) = as.map fun a => loose (toJson a) := by
  induction as with
  | nil => rfl
  | cons a as ih => rw [List.map_cons, looseItems, ih, List.map_cons]

lemma items?_map {α : Type} {item? : Loose → Option α} {toJson : α → Json}
    (h : ∀ a, item? (loose (toJson a)) = some a) (as : List α) :
    items? item? (loose (.arr (as.map toJson))) = some as := by
  rw [loose, looseItems_map, items?]
  induction as with
  | nil => rfl
  | cons a as ih =>
    rw [List.map_cons, List.mapM_cons, h, ih]
    rfl

end ContractBuild.Text.Json

import Mathlib
import ContractBuild.Text.Utf8

/-!
UTF-8 is read back exactly: writing a text and reading it gives the text, and bytes that are read
without a fault are what the text is written as.
-/

namespace ContractBuild.Text.Utf8

lemma toNat_ofNat {n : ℕ} (h : n < 256) : (UInt8.ofNat n).toNat = n := by
  simp [Nat.mod_eq_of_lt h]

/-- The code points of characters. -/
def IsScalar (n : ℕ) : Prop := n < 0xd800 ∨ 0xdfff < n ∧ n < 0x110000

lemma isScalar_toNat (c : Char) : IsScalar c.toNat := c.valid

lemma toNat_charOfNat {n : ℕ} (h : IsScalar n) : (Char.ofNat n).val.toNat = n := by
  have h' : n.isValidChar := h
  rw [Char.ofNat, dif_pos h']
  simp [Char.ofNatAux]

lemma isTail_iff (b : UInt8) : isTail b = true ↔ 0x80 ≤ b.toNat ∧ b.toNat < 0xc0 := by
  simp [isTail, UInt8.le_iff_toNat_le]
  omega

lemma secondOfThree_iff (a b : UInt8) : secondOfThree a b = true ↔
    0x80 ≤ b.toNat ∧ b.toNat < 0xc0 ∧ (a.toNat = 0xe0 → 0xa0 ≤ b.toNat) ∧
      (a.toNat = 0xed → b.toNat < 0xa0) := by
  have e0 : (a == 0xe0) = true ↔ a.toNat = 0xe0 := beq_iff_eq.trans UInt8.toNat_inj.symm
  have ed : (a == 0xed) = true ↔ a.toNat = 0xed := beq_iff_eq.trans UInt8.toNat_inj.symm
  unfold secondOfThree
  simp only [e0, ed]
  split_ifs with h1 h2
  · simp [UInt8.le_iff_toNat_le, h1]; omega
  · simp [UInt8.le_iff_toNat_le, h2]; omega
  · rw [isTail_iff]; omega

lemma secondOfFour_iff (a b : UInt8) : secondOfFour a b = true ↔
    0x80 ≤ b.toNat ∧ b.toNat < 0xc0 ∧ (a.toNat = 0xf0 → 0x90 ≤ b.toNat) ∧
      (a.toNat = 0xf4 → b.toNat < 0x90) := by
  have f0 : (a == 0xf0) = true ↔ a.toNat = 0xf0 := beq_iff_eq.trans UInt8.toNat_inj.symm
  have f4 : (a == 0xf4) = true ↔ a.toNat = 0xf4 := beq_iff_eq.trans UInt8.toNat_inj.symm
  unfold secondOfFour
  simp only [f0, f4]
  split_ifs with h1 h2
  · simp [UInt8.le_iff_toNat_le, h1]; omega
  · simp [UInt8.le_iff_toNat_le, h2]; omega
  · rw [isTail_iff]; omega

/-! ### The bytes of one character -/

/-- What the bytes of a character are, by their number. -/
inductive Sequence : Bytes → ℕ → Prop where
  | one {a : UInt8} (ha : a.toNat < 0x80) : Sequence [a] a.toNat
  | two {a b : UInt8} (ha : 0xc2 ≤ a.toNat) (ha' : a.toNat < 0xe0) (hb : isTail b = true) :
      Sequence [a, b] ((a.toNat - 0xc0) * 64 + (b.toNat - 0x80))
  | three {a b c : UInt8} (ha : 0xe0 ≤ a.toNat) (ha' : a.toNat < 0xf0)
      (hb : secondOfThree a b = true) (hc : isTail c = true) :
      Sequence [a, b, c]
        (((a.toNat - 0xe0) * 64 + (b.toNat - 0x80)) * 64 + (c.toNat - 0x80))
  | four {a b c d : UInt8} (ha : 0xf0 ≤ a.toNat) (ha' : a.toNat < 0xf5)
      (hb : secondOfFour a b = true) (hc : isTail c = true) (hd : isTail d = true) :
      Sequence [a, b, c, d]
        ((((a.toNat - 0xf0) * 64 + (b.toNat - 0x80)) * 64 + (c.toNat - 0x80)) * 64 +
          (d.toNat - 0x80))

lemma Sequence.isScalar {bs : Bytes} {n : ℕ} (h : Sequence bs n) : IsScalar n := by
  unfold IsScalar
  cases h with
  | one ha => omega
  | two ha ha' hb => rw [isTail_iff] at hb; omega
  | three ha ha' hb hc => rw [secondOfThree_iff] at hb; rw [isTail_iff] at hc; omega
  | four ha ha' hb hc hd =>
    rw [secondOfFour_iff] at hb; rw [isTail_iff] at hc hd; omega

/-- A sequence is cut off as one character. -/
lemma Sequence.pieces {bs : Bytes} {n : ℕ} (h : Sequence bs n) (r : Bytes) :
    pieces (bs ++ r) = .char (Char.ofNat n) :: pieces r := by
  cases h with
  | one ha =>
    rw [List.cons_append, List.nil_append, pieces.eq_def]
    simp [UInt8.lt_iff_toNat_lt, ha, charOf]
  | @two a b ha ha' hb =>
    have h1 : ¬ a.toNat < 0x80 := by omega
    have h2 : ¬ a.toNat < 0xc2 := by omega
    rw [List.cons_append, List.cons_append, List.nil_append, pieces.eq_def]
    simp [UInt8.lt_iff_toNat_lt, ha', h1, h2, hb, charOf]
  | @three a b c ha ha' hb hc =>
    have h1 : ¬ a.toNat < 0x80 := by omega
    have h2 : ¬ a.toNat < 0xc2 := by omega
    have h3 : ¬ a.toNat < 0xe0 := by omega
    simp only [List.cons_append, List.nil_append]
    rw [pieces.eq_def]
    simp [UInt8.lt_iff_toNat_lt, ha', h1, h2, h3, hb, hc, charOf]
  | @four a b c d ha ha' hb hc hd =>
    have h1 : ¬ a.toNat < 0x80 := by omega
    have h2 : ¬ a.toNat < 0xc2 := by omega
    have h3 : ¬ a.toNat < 0xe0 := by omega
    have h4 : ¬ a.toNat < 0xf0 := by omega
    simp only [List.cons_append, List.nil_append]
    rw [pieces.eq_def]
    simp [UInt8.lt_iff_toNat_lt, ha', h1, h2, h3, h4, hb, hc, hd, charOf]

lemma uint8_eq {a : UInt8} {n : ℕ} (h : n = a.toNat) : UInt8.ofNat n = a := by
  rw [h, UInt8.ofNat_toNat]

/-- A sequence is how its character is written. -/
lemma Sequence.encodeChar {bs : Bytes} {n : ℕ} (h : Sequence bs n) :
    String.utf8EncodeChar (Char.ofNat n) = bs := by
  unfold String.utf8EncodeChar
  rw [toNat_charOfNat h.isScalar]
  cases h with
  | @one a ha =>
    simp only []
    rw [if_pos (by omega), uint8_eq rfl]
  | @two a b ha ha' hb =>
    rw [isTail_iff] at hb
    simp only []
    rw [if_neg (by omega), if_pos (by omega)]
    rw [uint8_eq (a := a) (by omega), uint8_eq (a := b) (by omega)]
  | @three a b c ha ha' hb hc =>
    rw [secondOfThree_iff] at hb
    rw [isTail_iff] at hc
    simp only []
    rw [if_neg (by omega), if_neg (by omega), if_pos (by omega)]
    rw [uint8_eq (a := a) (by omega), uint8_eq (a := b) (by omega), uint8_eq (a := c) (by omega)]
  | @four a b c d ha ha' hb hc hd =>
    rw [secondOfFour_iff] at hb
    rw [isTail_iff] at hc hd
    simp only []
    rw [if_neg (by omega), if_neg (by omega), if_neg (by omega)]
    rw [uint8_eq (a := a) (by omega), uint8_eq (a := b) (by omega), uint8_eq (a := c) (by omega),
      uint8_eq (a := d) (by omega)]

/-- Every character is written as a sequence. -/
lemma sequence_encodeChar (c : Char) : Sequence (String.utf8EncodeChar c) c.toNat := by
  have hs := isScalar_toNat c
  unfold IsScalar at hs
  unfold String.utf8EncodeChar
  rw [show c.val.toNat = c.toNat from rfl]
  generalize c.toNat = n at hs ⊢
  simp only []
  split_ifs with h1 h2 h3
  · have := @Sequence.one (UInt8.ofNat n) (by rw [toNat_ofNat] <;> omega)
    rwa [toNat_ofNat (by omega)] at this
  · have := @Sequence.two (UInt8.ofNat (n / 64 % 32 + 192)) (UInt8.ofNat (n % 64 + 128))
      (by rw [toNat_ofNat] <;> omega) (by rw [toNat_ofNat] <;> omega)
      (by rw [isTail_iff, toNat_ofNat] <;> omega)
    rw [toNat_ofNat (by omega), toNat_ofNat (by omega)] at this
    convert this using 1
    omega
  · have := @Sequence.three (UInt8.ofNat (n / 4096 % 16 + 224)) (UInt8.ofNat (n / 64 % 64 + 128))
      (UInt8.ofNat (n % 64 + 128))
      (by rw [toNat_ofNat] <;> omega) (by rw [toNat_ofNat] <;> omega)
      (by rw [secondOfThree_iff, toNat_ofNat, toNat_ofNat] <;> omega)
      (by rw [isTail_iff, toNat_ofNat] <;> omega)
    rw [toNat_ofNat (by omega), toNat_ofNat (by omega), toNat_ofNat (by omega)] at this
    convert this using 1
    omega
  · have := @Sequence.four (UInt8.ofNat (n / 262144 % 8 + 240)) (UInt8.ofNat (n / 4096 % 64 + 128))
      (UInt8.ofNat (n / 64 % 64 + 128)) (UInt8.ofNat (n % 64 + 128))
      (by rw [toNat_ofNat] <;> omega) (by rw [toNat_ofNat] <;> omega)
      (by rw [secondOfFour_iff, toNat_ofNat, toNat_ofNat] <;> omega)
      (by rw [isTail_iff, toNat_ofNat] <;> omega) (by rw [isTail_iff, toNat_ofNat] <;> omega)
    rw [toNat_ofNat (by omega), toNat_ofNat (by omega), toNat_ofNat (by omega),
      toNat_ofNat (by omega)] at this
    convert this using 1
    omega

/-! ### Whole texts -/

lemma pieces_encodeChars (cs : List Char) : pieces (encodeChars cs) = cs.map .char := by
  induction cs with
  | nil => rfl
  | cons c cs ih =>
    rw [encodeChars, List.flatMap_cons, (sequence_encodeChar c).pieces, Char.ofNat_toNat]
    rw [← encodeChars, ih, List.map_cons]

lemma length_le_encodeChars (cs : List Char) : cs.length ≤ (encodeChars cs).length := by
  induction cs with
  | nil => exact Nat.le_refl 0
  | cons c cs ih =>
    have hpos : 0 < (String.utf8EncodeChar c).length := by
      rw [String.length_utf8EncodeChar]
      exact c.utf8Size_pos
    rw [encodeChars, List.flatMap_cons, List.length_append, ← encodeChars, List.length_cons]
    omega

lemma charsFrom_map_char (i : ℕ) (cs : List Char) : charsFrom i (cs.map .char) = .ok cs := by
  induction cs generalizing i with
  | nil => rfl
  | cons c cs ih => rw [List.map_cons, charsFrom, ih]; rfl

/-- What is written is read back. -/
lemma decode_encode (s : String) : decode (encode s) = .ok s := by
  rw [decode, encode_eq, pieces_encodeChars, charsFrom_map_char]
  simp [Except.map]

lemma charsFrom_char {i : ℕ} {c : Char} {ps : List Piece} {cs : List Char}
    (h : charsFrom i (.char c :: ps) = .ok cs) :
    ∃ cs', cs = c :: cs' ∧ charsFrom (i + c.utf8Size) ps = .ok cs' := by
  rw [charsFrom] at h
  rcases hr : charsFrom (i + c.utf8Size) ps with f | cs'
  · rw [hr] at h; cases h
  · rw [hr] at h; cases h; exact ⟨cs', rfl, rfl⟩

/-- Bytes that are read start with a sequence. -/
lemma sequence_of_charsFrom {bs : Bytes} {i : ℕ} {cs : List Char}
    (h : charsFrom i (pieces bs) = .ok cs) :
    bs = [] ∨ ∃ s n r, Sequence s n ∧ bs = s ++ r := by
  revert h
  fun_cases pieces bs
  case case1 => exact fun _ => .inl rfl
  case case2 a r ha =>
    rw [UInt8.lt_iff_toNat_lt] at ha
    exact fun _ => .inr ⟨[a], _, r, .one ha, rfl⟩
  case case5 a h1 h2 h3 b r hb =>
    rw [UInt8.lt_iff_toNat_lt] at h2 h3
    exact fun _ => .inr ⟨[a, b], _, r, .two (Nat.not_lt.mp h2) h3 hb, rfl⟩
  case case9 a h1 h2 h3 h4 b hb c r hc =>
    rw [UInt8.lt_iff_toNat_lt] at h3 h4
    exact fun _ => .inr ⟨[a, b, c], _, r, .three (Nat.not_lt.mp h3) h4 hb hc, rfl⟩
  case case15 a h1 h2 h3 h4 h5 b hb c hc d r hd =>
    rw [UInt8.lt_iff_toNat_lt] at h4 h5
    exact fun _ => .inr ⟨[a, b, c, d], _, r, .four (Nat.not_lt.mp h4) h5 hb hc hd, rfl⟩
  -- every other first piece is faulty
  all_goals exact fun h => nomatch h

/-- Only what would be written is read. -/
lemma encodeChars_of_charsFrom {bs : Bytes} {i : ℕ} {cs : List Char}
    (h : charsFrom i (pieces bs) = .ok cs) : encodeChars cs = bs := by
  induction hn : bs.length using Nat.strong_induction_on generalizing bs i cs with
  | _ n ih =>
    rcases sequence_of_charsFrom h with rfl | ⟨s, k, r, hs, rfl⟩
    · cases h; rfl
    · rw [hs.pieces] at h
      obtain ⟨cs', rfl, h'⟩ := charsFrom_char h
      have hlt : r.length < n := by
        have : s.length ≠ 0 := by cases hs <;> simp
        rw [List.length_append] at hn
        omega
      rw [encodeChars, List.flatMap_cons, hs.encodeChar, ← encodeChars, ih _ hlt h' rfl]

lemma encode_of_decode {bs : Bytes} {s : String} (h : decode bs = .ok s) : encode s = bs := by
  rw [decode] at h
  rcases hc : charsFrom 0 (pieces bs) with f | cs
  · rw [hc] at h; cases h
  · rw [hc] at h; cases h
    rw [encode_eq, String.toList_ofList, encodeChars_of_charsFrom hc]

@[simp] lemma encode_append (s t : String) : encode (s ++ t) = encode s ++ encode t := by
  simp [encode]

lemma encode_injective {s t : String} (h : encode s = encode t) : s = t := by
  have := decode_encode s
  rw [h, decode_encode] at this
  cases this; rfl

end ContractBuild.Text.Utf8

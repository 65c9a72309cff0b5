import Mathlib
import ContractBuild.Proofs.Text.Delimited
import ContractBuild.Text.CharClass
import ContractBuild.Text.Decimal

/-!
Numbers in decimal are read back, and there is one way only to write a number without leading
zeros.
-/

namespace ContractBuild.Text

variable {n : ℕ} {r : List Char}

lemma digitsValue_toDigits (n : ℕ) : digitsValue (Nat.toDigits 10 n) = n := by
  have hfold : ∀ (ds : List Char) (k : ℕ),
      ds.foldl (fun n d => n * 10 + (d.toNat - 48)) k = Nat.ofDigitChars 10 ds k := by
    intro ds
    induction ds with
    | nil => intro k; simp
    | cons d ds ih =>
      intro k
      rw [List.foldl_cons, ih, Nat.ofDigitChars_cons, Nat.mul_comm k 10]
      rfl
  rw [digitsValue, hfold, Nat.ofDigitChars_ten_toDigits]

/-- Only zero is written with a zero in front. -/
lemma toDigits_zero_or (n : ℕ) :
    Nat.toDigits 10 n = ['0'] ∨ ∃ c r, Nat.toDigits 10 n = c :: r ∧ c ≠ '0' := by
  induction n using Nat.strong_induction_on with
  | _ n ih =>
    rw [Nat.toDigits_eq_if (by decide)]
    split_ifs with h
    · by_cases h0 : n = 0
      · subst h0; exact .inl rfl
      · refine .inr ⟨_, [], rfl, ?_⟩
        interval_cases n <;> first | exact absurd rfl h0 | decide
    · rcases ih (n / 10) (by omega) with hz | ⟨c, r, hc, hne⟩
      · -- what stands before the last digit is not zero
        have hval := Nat.ofDigitChars_ten_toDigits (n := n / 10)
        rw [hz] at hval
        have : n / 10 = 0 := by rw [← hval]; decide
        omega
      · exact .inr ⟨c, r ++ _, by rw [hc]; rfl, hne⟩

/-! ### The digits of a number -/

lemma toList_toString (n : ℕ) : (toString n).toList = Nat.toDigits 10 n := by
  rw [Nat.toString_eq_ofList_toDigits, String.toList_ofList]

lemma toString_ne_nil (n : ℕ) : (toString n).toList ≠ [] := by
  rw [toList_toString]
  exact Nat.toDigits_ne_nil

/-- A number starts with one of its digits. -/
lemma exists_digit (n : ℕ) : ∃ c ds, (toString n).toList = c :: ds ∧ c.isDigit = true := by
  obtain ⟨c, ds, hcons⟩ := List.exists_cons_of_ne_nil (toString_ne_nil n)
  refine ⟨c, ds, hcons, isDigit_of_mem_toString (n := n) ?_⟩
  rw [hcons]
  exact List.mem_cons_self

lemma digitsValue_toString (n : ℕ) : digitsValue (toString n).toList = n := by
  rw [toList_toString, digitsValue_toDigits]

lemma all_isDigit_toString (n : ℕ) : (toString n).toList.all Char.isDigit = true :=
  List.all_eq_true.mpr fun _ hc => isDigit_of_mem_toString hc

/-- There are no leading zeros. -/
lemma head_toString (n : ℕ) :
    ((toString n).toList.head? = some '0' && decide ((toString n).toList.length > 1)) = false := by
  rw [toList_toString]
  rcases toDigits_zero_or n with hz | ⟨c, r, hc, hne⟩
  · rw [hz]
    rfl
  · simp [hc, hne]

lemma wordOfDigits?_toString (n : ℕ) :
    wordOfDigits? (toString n).toList = if n < wordLimit then some n else none := by
  have hne : (toString n).toList.isEmpty = false := List.isEmpty_eq_false_iff.mpr (toString_ne_nil n)
  rw [wordOfDigits?, digitsValue_toString, all_isDigit_toString, hne]
  simp

lemma wordOfSigned?_toString (hn : n < wordLimit) : wordOfSigned? (toString n).toList = some n := by
  obtain ⟨c, ds, hcons, hc⟩ := exists_digit n
  have hplus : c ≠ '+' := by
    rintro rfl
    exact absurd hc (by decide)
  have hword := wordOfDigits?_toString n
  rw [if_pos hn] at hword
  rw [hcons] at hword ⊢
  unfold wordOfSigned?
  split
  · next heq => exact absurd (List.cons.inj heq).1 hplus
  · exact hword

lemma lt_of_wordOfDigits? {ds : List Char} (h : wordOfDigits? ds = some n) : n < wordLimit := by
  rw [wordOfDigits?] at h
  split_ifs at h with hds
  obtain rfl := Option.some.inj h
  simp only [Bool.and_eq_true, decide_eq_true_eq] at hds
  exact hds.2

/-- ASCII digits are decimal digits. -/
lemma isDecimalDigit_of_isDigit {c : Char} (h : c.isDigit = true) : isDecimalDigit c = true := by
  simp only [Char.isDigit, Bool.and_eq_true, decide_eq_true_eq, ge_iff_le,
    UInt32.le_iff_toNat_le] at h
  have hnat : c.toNat = c.val.toNat := rfl
  refine List.any_eq_true.mpr ⟨(0x30, 0x39), by decide, ?_⟩
  rw [hnat]
  simpa using h

end ContractBuild.Text

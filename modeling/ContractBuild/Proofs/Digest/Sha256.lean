import Mathlib
import ContractBuild.Digest.Sha256

/-!
What digests look like, 64 hexadecimal digits in lower case, and what is assumed of them.
-/

namespace ContractBuild.Digest

open ContractBuild.Text

/-- The characters of hexadecimal texts. -/
def hexDigits : List Char := "0123456789abcdef".toList

lemma hexDigit_mem : ∀ n < 16, hexDigit n ∈ hexDigits := by decide

lemma mem_hexDigits_of_mem_hex {bs : Bytes} {c : Char} (h : c ∈ (hex bs).toList) :
    c ∈ hexDigits := by
  rw [hex, String.toList_ofList] at h
  obtain ⟨b, -, hb⟩ := List.mem_flatMap.mp h
  have hlt := b.toNat_lt
  simp only [List.mem_cons, List.not_mem_nil, or_false] at hb
  rcases hb with rfl | rfl
  · exact hexDigit_mem _ (by omega)
  · exact hexDigit_mem _ (by omega)

lemma length_littleEndian (count n : ℕ) : (littleEndian count n).length = count := by
  induction count generalizing n with
  | zero => rfl
  | succ count ih => rw [littleEndian, List.length_cons, ih]

lemma length_sha256 (message : Bytes) : (sha256 message).length = 32 := by
  simp [sha256, Sha256.Words.toBytes, bigEndian, length_littleEndian]

lemma length_hex (bs : Bytes) : (hex bs).toList.length = 2 * bs.length := by
  rw [hex, String.toList_ofList]
  induction bs with
  | nil => rfl
  | cons b bs ih =>
    rw [List.flatMap_cons, List.length_append, ih, List.length_cons]
    simp only [List.length_cons, List.length_nil]
    omega

lemma length_sha256Hex (message : Bytes) : (sha256Hex message).toList.length = 64 := by
  rw [sha256Hex, length_hex, length_sha256]

lemma mem_hexDigits_of_mem_sha256Hex {message : Bytes} {c : Char}
    (h : c ∈ (sha256Hex message).toList) : c ∈ hexDigits :=
  mem_hexDigits_of_mem_hex h

lemma not_mem_sha256Hex {c : Char} (hc : c ∉ hexDigits) (message : Bytes) :
    c ∉ (sha256Hex message).toList :=
  fun h => hc (mem_hexDigits_of_mem_sha256Hex h)

/-- No two of the byte strings have the same digest. -/
def CollisionFree (S : Bytes → Prop) : Prop :=
  ∀ a b, S a → S b → sha256Hex a = sha256Hex b → a = b

end ContractBuild.Digest

import ContractBuild.Text.CharClass

/-!
Cutting and joining texts as lists of characters, and the same operations on strings.
-/

namespace ContractBuild.Text

/-- The characters that bytes begin with, at most `n` of them. -/
def readChars : Nat → List UInt8 → List Char
  | 0, _ => []
  | _ + 1, [] => []
  | n + 1, b :: rest =>
    if b.toNat < 128 then Char.ofNat b.toNat :: readChars n rest
    else
      match (ByteArray.mk ⟨b :: rest⟩).utf8DecodeChar? 0 with
      | some c => c :: readChars n ((b :: rest).drop c.utf8Size)
      | none => []

/-- The characters of a text, read off its bytes: `String.toList`, in as many steps as there are
bytes. -/
def chars (s : String) : List Char :=
  let bytes := s.toByteArray.data.toList
  readChars bytes.length bytes

theorem utf8DecodeChar?_encoded (c : Char) (cs : List Char) :
    (ByteArray.mk ⟨(c :: cs).flatMap String.utf8EncodeChar⟩).utf8DecodeChar? 0 = some c := by
  have hread := ByteArray.utf8DecodeChar?_utf8EncodeChar_append (c := c)
    (b := ByteArray.mk ⟨cs.flatMap String.utf8EncodeChar⟩)
  rw [← hread]
  congr 1
  simp [ByteArray.ext_iff]

/-- Only a character of one byte is encoded with a first byte below 128. -/
theorem eq_of_encoded_ascii {c : Char} {b : UInt8} {rest : List UInt8}
    (h : String.utf8EncodeChar c = b :: rest) (hb : b.toNat < 128) :
    rest = [] ∧ Char.ofNat b.toNat = c := by
  simp only [String.utf8EncodeChar] at h
  split at h
  next hc =>
    obtain ⟨rfl, rfl⟩ := List.cons.inj h
    have hval : (UInt8.ofNat c.val.toNat).toNat = c.toNat := Nat.mod_eq_of_lt (by omega)
    exact ⟨rfl, by rw [hval, Char.ofNat_toNat]⟩
  next =>
    -- the first of several bytes is at least 192
    exfalso
    split at h
    · rw [← (List.cons.inj h).1, UInt8.toNat_ofNat'] at hb
      omega
    · split at h <;>
      · rw [← (List.cons.inj h).1, UInt8.toNat_ofNat'] at hb
        omega

theorem readChars_encoded (cs : List Char) :
    ∀ n, (cs.flatMap String.utf8EncodeChar).length ≤ n →
      readChars n (cs.flatMap String.utf8EncodeChar) = cs := by
  induction cs with
  | nil => exact fun n _ => by cases n <;> rfl
  | cons c cs ih =>
    intro n hn
    have hlen := String.length_utf8EncodeChar c
    have hdecode := utf8DecodeChar?_encoded c cs
    obtain ⟨b, rest, hb⟩ := List.exists_cons_of_ne_nil (String.utf8EncodeChar_ne_nil (c := c))
    rw [List.flatMap_cons, hb, List.cons_append] at hn hdecode ⊢
    rw [hb, List.length_cons] at hlen
    rw [List.length_cons, List.length_append] at hn
    cases n with
    | zero => omega
    | succ n =>
      have ih := ih n (by omega)
      rw [readChars]
      split
      next hascii =>
        obtain ⟨rfl, hc⟩ := eq_of_encoded_ascii hb hascii
        rw [hc, List.nil_append, ih]
      next =>
        have hdrop : (b :: (rest ++ cs.flatMap String.utf8EncodeChar)).drop c.utf8Size =
            cs.flatMap String.utf8EncodeChar := by
          rw [← hlen, List.drop_succ_cons, List.drop_left]
        rw [hdecode]
        simp only [hdrop, ih]

@[simp]
theorem chars_eq (s : String) : chars s = s.toList := by
  obtain ⟨cs, rfl⟩ := String.exists_eq_ofList s
  have hbytes : (String.ofList cs).toByteArray.data.toList =
      cs.flatMap String.utf8EncodeChar := by
    simp [String.toByteArray_ofList, List.utf8Encode]
  rw [chars, hbytes, readChars_encoded cs _ (Nat.le_refl _), String.toList_ofList]

def trimLeft (cs : List Char) : List Char := cs.dropWhile isBlank

def trimRight (cs : List Char) : List Char := (cs.reverse.dropWhile isBlank).reverse

/-- Removes blanks at both ends. -/
def trim (cs : List Char) : List Char := trimRight (trimLeft cs)

/-- The text before and after the first occurrence of `sep`. -/
def splitOnce (sep : List Char) : List Char → Option (List Char × List Char)
  | [] => if sep.isEmpty then some ([], []) else none
  | c :: r =>
    match sep.isPrefixOf? (c :: r) with
    | some rest => some ([], rest)
    | none => (splitOnce sep r).map fun p => (c :: p.1, p.2)

/-- What is left of `cs` once `tail` is taken off its end. -/
def stripSuffix? (tail cs : List Char) : Option (List Char) :=
  (tail.reverse.isPrefixOf? cs.reverse).map List.reverse

def joinWith (sep : List Char) (parts : List (List Char)) : List Char := sep.intercalate parts

def trimString (s : String) : String := String.ofList (trim s.toList)

/-- The parts of `s` between occurrences of `sep`. -/
def splitString (sep : Char) (s : String) : List String :=
  ((chars s).splitOn sep).map String.ofList

theorem splitString_eq (sep : Char) (s : String) :
    splitString sep s = (s.toList.splitOn sep).map String.ofList := by
  rw [splitString, chars_eq]

/-- The lines of a text: a line feed ends a line and takes a carriage return before it along. -/
def lines (cs : List Char) : List (List Char) :=
  let parts := cs.splitOn '\n'
  let last := parts.getLastD []
  parts.dropLast.map (fun l => (stripSuffix? ['\r'] l).getD l) ++ if last.isEmpty then [] else [last]

/-- The lower-case hexadecimal digit of a number below 16. -/
def hexDigit (n : Nat) : Char := Char.ofNat (if n < 10 then 48 + n else 87 + n)

end ContractBuild.Text

/-!
UTF-8: bytes of a text, and a text of bytes.

Bytes are cut into characters and faulty pieces. A faulty piece is as long as a well-formed
sequence agrees with it, and at least one byte; a sequence that the end of the input cuts off is
told apart. Strict reading stops at the first faulty piece, lenient reading puts U+FFFD in its place.
-/

namespace ContractBuild

abbrev Bytes := List UInt8

namespace Text.Utf8

def encodeChars (cs : List Char) : Bytes := cs.flatMap String.utf8EncodeChar

/-- The bytes of a text. -/
def encode (s : String) : Bytes := s.toByteArray.data.toList

theorem encode_eq (s : String) : encode s = encodeChars s.toList := by
  obtain ⟨cs, rfl⟩ := String.exists_eq_ofList s
  simp [encode, encodeChars, String.toByteArray_ofList, List.utf8Encode]

inductive Piece where
  | char (c : Char)
  | invalid (length : Nat)
  | incomplete

/-- Whether the byte continues a sequence. -/
def isTail (b : UInt8) : Bool := 0x80 ≤ b && b ≤ 0xbf

/-- The second bytes allowed after the first byte of a sequence of three. -/
def secondOfThree (a b : UInt8) : Bool :=
  if a == 0xe0 then 0xa0 ≤ b && b ≤ 0xbf
  else if a == 0xed then 0x80 ≤ b && b ≤ 0x9f
  else isTail b

/-- The second bytes allowed after the first byte of a sequence of four. -/
def secondOfFour (a b : UInt8) : Bool :=
  if a == 0xf0 then 0x90 ≤ b && b ≤ 0xbf
  else if a == 0xf4 then 0x80 ≤ b && b ≤ 0x8f
  else isTail b

/-- The character with the given payload bits, six to a tail byte. -/
def charOf (lead : Nat) (tails : List UInt8) : Piece :=
  .char (Char.ofNat (tails.foldl (fun n b => n * 64 + (b.toNat - 0x80)) lead))

def pieces : Bytes → List Piece
  | [] => []
  | a :: r =>
    if a < 0x80 then charOf a.toNat [] :: pieces r
    else if a < 0xc2 then .invalid 1 :: pieces r
    else if a < 0xe0 then
      match r with
      | [] => [.incomplete]
      | b :: r' =>
        if isTail b then charOf (a.toNat - 0xc0) [b] :: pieces r'
        else .invalid 1 :: pieces (b :: r')
    else if a < 0xf0 then
      match r with
      | [] => [.incomplete]
      | b :: r' =>
        if secondOfThree a b then
          match r' with
          | [] => [.incomplete]
          | c :: r'' =>
            if isTail c then charOf (a.toNat - 0xe0) [b, c] :: pieces r''
            else .invalid 2 :: pieces (c :: r'')
        else .invalid 1 :: pieces (b :: r')
    else if a < 0xf5 then
      match r with
      | [] => [.incomplete]
      | b :: r' =>
        if secondOfFour a b then
          match r' with
          | [] => [.incomplete]
          | c :: r'' =>
            if isTail c then
              match r'' with
              | [] => [.incomplete]
              | d :: r''' =>
                if isTail d then charOf (a.toNat - 0xf0) [b, c, d] :: pieces r'''
                else .invalid 3 :: pieces (d :: r''')
            else .invalid 2 :: pieces (c :: r'')
        else .invalid 1 :: pieces (b :: r')
    else .invalid 1 :: pieces r

/-- Where strict reading stopped: the length of the well-formed part, and the length of the faulty
piece unless the input ends in it. -/
structure Fault where
  index : Nat
  length : Option Nat
  deriving DecidableEq

def Fault.message (f : Fault) : String :=
  match f.length with
  | some n => s!"invalid utf-8 sequence of {n} bytes from index {f.index}"
  | none => s!"incomplete utf-8 byte sequence from index {f.index}"

def charsFrom : Nat → List Piece → Except Fault (List Char)
  | _, [] => .ok []
  | i, .char c :: r => (charsFrom (i + c.utf8Size) r).map (c :: ·)
  | i, .invalid n :: _ => .error ⟨i, some n⟩
  | i, .incomplete :: _ => .error ⟨i, none⟩

def decode (bytes : Bytes) : Except Fault String :=
  (charsFrom 0 (pieces bytes)).map String.ofList

/-- Reads bytes as text, with U+FFFD for each faulty piece. -/
def decodeLossy (bytes : Bytes) : String :=
  String.ofList ((pieces bytes).map fun
    | .char c => c
    | .invalid _ | .incomplete => Char.ofNat 0xfffd)

end Text.Utf8

end ContractBuild

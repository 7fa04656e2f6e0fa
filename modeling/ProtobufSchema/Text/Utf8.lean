/-! Texts as bytes. The lossy reading puts one replacement character for each longest run of bytes
that begins a character without completing it. -/

namespace ProtobufSchema

abbrev Bytes := List UInt8

namespace Utf8

def encode (s : String) : Bytes := s.toByteArray.data.toList

def decode? (bytes : Bytes) : Option String := String.fromUTF8? ⟨bytes.toArray⟩

theorem decode?_encode (s : String) : decode? (encode s) = some s := by
  have h : (⟨s.toByteArray.data.toList.toArray⟩ : ByteArray) = s.toByteArray := by simp
  simp only [decode?, encode, h, String.fromUTF8?]
  simp [s.isValidUTF8, String.fromUTF8]

def replacement : Char := Char.ofNat 0xFFFD

def isContinuation (b : UInt8) : Bool := 0x80 ≤ b && b ≤ 0xBF

def isSecondOfThree (lead b : UInt8) : Bool :=
  if lead = 0xE0 then 0xA0 ≤ b && b ≤ 0xBF
  else if lead = 0xED then 0x80 ≤ b && b ≤ 0x9F
  else isContinuation b

def isSecondOfFour (lead b : UInt8) : Bool :=
  if lead = 0xF0 then 0x90 ≤ b && b ≤ 0xBF
  else if lead = 0xF4 then 0x80 ≤ b && b ≤ 0x8F
  else isContinuation b

def payload (b : UInt8) : Nat := b.toNat % 64

def lossyChars : Bytes → List Char
  | [] => []
  | a :: as =>
    if a < 0x80 then
      Char.ofNat a.toNat :: lossyChars as
    else if 0xC2 ≤ a && a ≤ 0xDF then
      match as with
      | [] => [replacement]
      | b :: bs =>
        if isContinuation b then
          Char.ofNat (a.toNat % 32 * 64 + payload b) :: lossyChars bs
        else replacement :: lossyChars (b :: bs)
    else if 0xE0 ≤ a && a ≤ 0xEF then
      match as with
      | [] => [replacement]
      | b :: bs =>
        if isSecondOfThree a b then
          match bs with
          | [] => [replacement]
          | c :: cs =>
            if isContinuation c then
              Char.ofNat (a.toNat % 16 * 4096 + payload b * 64 + payload c) :: lossyChars cs
            else replacement :: lossyChars (c :: cs)
        else replacement :: lossyChars (b :: bs)
    else if 0xF0 ≤ a && a ≤ 0xF4 then
      match as with
      | [] => [replacement]
      | b :: bs =>
        if isSecondOfFour a b then
          match bs with
          | [] => [replacement]
          | c :: cs =>
            if isContinuation c then
              match cs with
              | [] => [replacement]
              | d :: ds =>
                if isContinuation d then
                  Char.ofNat (a.toNat % 8 * 262144 + payload b * 4096 + payload c * 64 + payload d)
                    :: lossyChars ds
                else replacement :: lossyChars (d :: ds)
            else replacement :: lossyChars (c :: cs)
        else replacement :: lossyChars (b :: bs)
    else replacement :: lossyChars as

def decodeLossy (bytes : Bytes) : String := String.ofList (lossyChars bytes)

end Utf8

end ProtobufSchema

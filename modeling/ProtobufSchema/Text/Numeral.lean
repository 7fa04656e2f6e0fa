/-!
Numerals: digits in a base, and integers written with an optional sign. A numeral has at least one
digit, and every character of it is a digit of its base.
-/

namespace ProtobufSchema

/-- Arithmetic on words whose result does not fit in one. The program stops there, and nobody gets
this for an answer. -/
inductive Overflow where
  | negation
  | subtraction
  deriving DecidableEq, Repr

def Overflow.message : Overflow → String
  | negation => "attempt to negate with overflow"
  | subtraction => "attempt to subtract with overflow"

namespace Numeral

def digit? (c : Char) : Option Nat :=
  if '0' ≤ c ∧ c ≤ '9' then some (c.toNat - '0'.toNat)
  else if 'a' ≤ c ∧ c ≤ 'z' then some (c.toNat - 'a'.toNat + 10)
  else if 'A' ≤ c ∧ c ≤ 'Z' then some (c.toNat - 'A'.toNat + 10)
  else none

def digitIn? (base : Nat) (c : Char) : Option Nat :=
  (digit? c).filter (· < base)

/-- The value of digits that follow a numeral of value `acc`. -/
def continue? (base : Nat) : Nat → List Char → Option Nat
  | acc, [] => some acc
  | acc, c :: cs => (digitIn? base c).bind fun d => continue? base (acc * base + d) cs

def natural? (base : Nat) : List Char → Option Nat
  | [] => none
  | c :: cs => continue? base 0 (c :: cs)

/-- An integer of at most `bits` bits, sign included, with at most one sign in front. -/
def integer? (base bits : Nat) (cs : List Char) : Option Int :=
  let value : Option Int :=
    match cs with
    | '+' :: digits => (natural? base digits).map Int.ofNat
    | '-' :: digits => (natural? base digits).map fun n => -(n : Int)
    | digits => (natural? base digits).map Int.ofNat
  let bound : Int := Nat.pow 2 (bits - 1)
  value.filter fun v => -bound ≤ v ∧ v < bound

def digits (base n : Nat) : List Char := Nat.toDigits base n

def padded (base width n : Nat) : List Char :=
  let ds := digits base n
  List.replicate (width - ds.length) '0' ++ ds

def decimal (n : Nat) : String := String.ofList (digits 10 n)

def signed (v : Int) : String := (if v < 0 then "-" else "") ++ decimal v.natAbs

end Numeral

end ProtobufSchema

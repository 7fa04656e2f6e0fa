/-!
Binary floating point by its bits. A finite datum is an exact product of an integer and a power of
two, and a ratio of naturals is rounded to the nearest datum, ties going to the even significand.
-/

namespace ProtobufSchema

namespace Ieee

structure Format where
  precision : Nat
  exponentBits : Nat
  deriving DecidableEq, Repr

def binary64 : Format := ⟨53, 11⟩

def binary32 : Format := ⟨24, 8⟩

namespace Format

def fractionBits (f : Format) : Nat := f.precision - 1

/-- The power of two that the significand of the smallest data counts. -/
def minExponent (f : Format) : Int := 3 - Nat.pow 2 (f.exponentBits - 1) - f.precision

def infinity (f : Format) : Nat := (Nat.pow 2 f.exponentBits - 1) * Nat.pow 2 f.fractionBits

def signBit (f : Format) : Nat := Nat.pow 2 (f.exponentBits + f.fractionBits)

def quietBit (f : Format) : Nat := Nat.pow 2 (f.fractionBits - 1)

end Format

inductive Datum where
  | nan (negative : Bool) (payload : Nat)
  | infinite (negative : Bool)
  | finite (negative : Bool) (significand : Nat) (exponent : Int)
  deriving DecidableEq, Repr

def Format.datum (f : Format) (bits : Nat) : Datum :=
  let negative := bits / f.signBit % 2 == 1
  let magnitude := bits % f.signBit
  let biased := magnitude / Nat.pow 2 f.fractionBits
  let fraction := magnitude % Nat.pow 2 f.fractionBits
  if f.infinity < magnitude then .nan negative (magnitude - f.infinity)
  else if magnitude = f.infinity then .infinite negative
  else if biased = 0 then .finite negative fraction f.minExponent
  else .finite negative (Nat.pow 2 f.fractionBits + fraction) (f.minExponent + (biased - 1 : Nat))

def Format.signed (f : Format) (negative : Bool) (magnitude : Nat) : Nat :=
  if negative then f.signBit + magnitude else magnitude

def roundDiv (num den : Nat) : Nat :=
  let q := num / den
  let r := num % den
  if den < 2 * r ∨ (2 * r = den ∧ q % 2 = 1) then q + 1 else q

def scale (n : Nat) (exponent : Int) : Nat × Nat :=
  if 0 ≤ exponent then (n * Nat.pow 2 exponent.toNat, 1) else (n, Nat.pow 2 (-exponent).toNat)

def binaryExponent (num den : Nat) : Int :=
  let guess : Int := num.log2 - den.log2
  let (bound, unit) := scale den guess
  if num * unit < bound then guess - 1 else guess

/-- The magnitude nearest to a ratio; a significand that carries into the next power of two and one
that overflows to infinity come out of the same sum. -/
def Format.roundRatio (f : Format) (num den : Nat) : Nat :=
  if num = 0 then 0
  else
    let exponent := max (binaryExponent num den - f.fractionBits) f.minExponent
    let (top, bottom) := scale num (-exponent)
    let significand := roundDiv top (den * bottom)
    min ((exponent - f.minExponent).toNat * Nat.pow 2 f.fractionBits + significand) f.infinity

/-- The nearest datum of another format. A NaN keeps its sign and as much of its payload as fits,
and becomes quiet. -/
def Format.convert (source target : Format) (bits : Nat) : Nat :=
  match source.datum bits with
  | .nan negative payload =>
    let kept := payload * Nat.pow 2 target.fractionBits / Nat.pow 2 source.fractionBits
    target.signed negative (target.infinity + (kept ||| target.quietBit))
  | .infinite negative => target.signed negative target.infinity
  | .finite negative m e =>
    let (num, den) := scale m e
    target.signed negative (target.roundRatio num den)

end Ieee

structure Double where
  bits : UInt64
  deriving DecidableEq, Repr

structure Single where
  bits : UInt32
  deriving DecidableEq, Repr

namespace Double

def ofMagnitude (negative : Bool) (magnitude : Nat) : Double :=
  ⟨(Ieee.binary64.signed negative magnitude).toUInt64⟩

def infinity : Double := ofMagnitude false Ieee.binary64.infinity

def nan : Double := ofMagnitude false (Ieee.binary64.infinity + Ieee.binary64.quietBit)

def zero : Double := ⟨0⟩

def neg (x : Double) : Double := ⟨x.bits ^^^ 0x8000000000000000⟩

def ofInt (n : Int) : Double :=
  ofMagnitude (n < 0) (Ieee.binary64.roundRatio n.natAbs 1)

def datum (x : Double) : Ieee.Datum := Ieee.binary64.datum x.bits.toNat

def toSingle (x : Double) : Single :=
  ⟨(Ieee.binary64.convert Ieee.binary32 x.bits.toNat).toUInt32⟩

end Double

namespace Single

def zero : Single := ⟨0⟩

def datum (x : Single) : Ieee.Datum := Ieee.binary32.datum x.bits.toNat

def toDouble (x : Single) : Double :=
  ⟨(Ieee.binary32.convert Ieee.binary64 x.bits.toNat).toUInt64⟩

end Single

end ProtobufSchema

import ProtobufSchema.Ieee.Format
import ProtobufSchema.Text.Numeral

/-! Floating point as decimal text, in both directions. Writing is by the fewest digits that read
back, or by a fixed number of significant digits. -/

namespace ProtobufSchema

namespace Ieee

structure Scientific where
  digits : Nat
  exponent : Int
  deriving DecidableEq, Repr

def countDigits (n : Nat) : Nat := (Numeral.digits 10 n).length

/-- The magnitude nearest to a decimal number. Numbers outside every format are recognized by the
place of their first digit, so that no large power is formed. -/
def Format.roundScientific (f : Format) (x : Scientific) : Nat :=
  let place := x.exponent + countDigits x.digits
  if x.digits = 0 then 0
  else if 400 < place then f.infinity
  else if place < -400 then 0
  else if 0 ≤ x.exponent then f.roundRatio (x.digits * Nat.pow 10 x.exponent.toNat) 1
  else f.roundRatio x.digits (Nat.pow 10 (-x.exponent).toNat)

def exponent? : List Char → Option Int
  | [] => some 0
  | c :: cs =>
    if c = 'e' ∨ c = 'E' then
      match cs with
      | '+' :: ds => (Numeral.natural? 10 ds).map Int.ofNat
      | '-' :: ds => (Numeral.natural? 10 ds).map fun n => -(n : Int)
      | ds => (Numeral.natural? 10 ds).map Int.ofNat
    else none

def scientific? (cs : List Char) : Option Scientific :=
  let whole := cs.takeWhile Char.isDigit
  let rest := cs.dropWhile Char.isDigit
  let (fraction, rest) :=
    match rest with
    | '.' :: more => (more.takeWhile Char.isDigit, more.dropWhile Char.isDigit)
    | _ => ([], rest)
  (Numeral.natural? 10 (whole ++ fraction)).bind fun digits =>
    (exponent? rest).map fun e => ⟨digits, e - fraction.length⟩

def Format.magnitude? (f : Format) (cs : List Char) : Option Nat :=
  let word := cs.map Char.toLower
  if word = "inf".toList ∨ word = "infinity".toList then some f.infinity
  else if word = "nan".toList then some (f.infinity + f.quietBit)
  else (scientific? cs).map f.roundScientific

def Format.ofText? (f : Format) (cs : List Char) : Option Nat :=
  match cs with
  | '+' :: rest => f.magnitude? rest
  | '-' :: rest => (f.magnitude? rest).map (f.signed true)
  | _ => f.magnitude? cs

def decimalExponent (num den : Nat) : Int :=
  let guess : Int := (countDigits num : Int) - countDigits den
  let reached :=
    if 0 ≤ guess then den * Nat.pow 10 guess.toNat ≤ num
    else den ≤ num * Nat.pow 10 (-guess).toNat
  if reached then guess else guess - 1

def perPower (num den : Nat) (exponent : Int) : Nat × Nat :=
  if 0 ≤ exponent then (num, den * Nat.pow 10 exponent.toNat)
  else (num * Nat.pow 10 (-exponent).toNat, den)

/-- A positive ratio to a number of significant digits, ties going to the even digit. -/
def roundDigits (count num den : Nat) : Scientific :=
  let exponent := decimalExponent num den - (count - 1 : Nat)
  let (top, bottom) := perPower num den exponent
  let digits := roundDiv top bottom
  if digits = Nat.pow 10 count then ⟨Nat.pow 10 (count - 1), exponent + 1⟩ else ⟨digits, exponent⟩

/-- The decimals next to four units of a quarter significand on the grid of one power of ten, tested
against the interval that reads back; `below` and `above` are its ends in quarters. -/
def onGrid? (center below above : Nat) (closed : Bool) (quarter : Nat × Nat) (exponent : Int) :
    Option Scientific :=
  let (num, den) := perPower quarter.1 quarter.2 exponent
  let low := center * num / den
  let high := low + 1
  let lowHits := below * num < low * den ∨ (closed ∧ below * num = low * den)
  let highHits := high * den < above * num ∨ (closed ∧ high * den = above * num)
  let highNearer := den ≤ 2 * (center * num % den)
  if highHits ∧ (¬ lowHits ∨ highNearer) then some ⟨high, exponent⟩
  else if lowHits then some ⟨low, exponent⟩
  else none

/-- The first grid, from `count` digits on, with a decimal that reads back. -/
def shortestFrom (center below above : Nat) (closed : Bool) (quarter : Nat × Nat) (first : Int) :
    Nat → Nat → Option Scientific
  | 0, _ => none
  | fuel + 1, count =>
    match onGrid? center below above closed quarter (first - (count - 1 : Nat)) with
    | some x => some x
    | none => shortestFrom center below above closed quarter first fuel (count + 1)

/-- The fewest digits that read back as a significand times a power of two. Seventeen always do. -/
def Format.shortest (f : Format) (significand : Nat) (exponent : Int) : Scientific :=
  let atPower := significand = Nat.pow 2 f.fractionBits ∧ f.minExponent < exponent
  let center := 4 * significand
  let below := if atPower then center - 1 else center - 2
  let quarter := scale 1 (exponent - 2)
  let first := decimalExponent (center * quarter.1) quarter.2
  (shortestFrom center below (center + 2) (significand % 2 == 0) quarter first 17 1).getD
    (roundDigits 17 (center * quarter.1) quarter.2)

/-- Digits with the point where it belongs, zeros filled in on either side. -/
def positional (x : Scientific) : List Char :=
  let ds := Numeral.digits 10 x.digits
  if 0 ≤ x.exponent then ds ++ List.replicate x.exponent.toNat '0'
  else
    let places := (-x.exponent).toNat
    let whole := ds.take (ds.length - places)
    let fraction := List.replicate (places - ds.length) '0' ++ ds.drop (ds.length - places)
    (if whole.isEmpty then ['0'] else whole) ++ '.' :: fraction

/-- Drops the zeros at the end of a fraction, and a point that nothing follows. -/
def trimFraction (cs : List Char) : List Char :=
  if cs.contains '.' then
    ((cs.reverse.dropWhile (· == '0')).dropWhile (· == '.')).reverse
  else cs

def withSign (negative : Bool) (cs : List Char) : String :=
  String.ofList (if negative then '-' :: cs else cs)

def Format.display (f : Format) (bits : Nat) : String :=
  match f.datum bits with
  | .nan _ _ => "NaN"
  | .infinite negative => withSign negative "inf".toList
  | .finite negative m e =>
    if m = 0 then withSign negative ['0']
    else withSign negative (trimFraction (positional (f.shortest m e)))

/-- A fixed number of significant digits, without zeros at the end; numbers below a ten-thousandth
and numbers with more digits than that before the point have an exponent of at least two digits. -/
def Format.general (f : Format) (count : Nat) (bits : Nat) : String :=
  match f.datum bits with
  | .nan _ _ => "nan"
  | .infinite negative => withSign negative "inf".toList
  | .finite negative m e =>
    if m = 0 then withSign negative ['0']
    else
      let (num, den) := scale m e
      let x := roundDigits count num den
      let place := x.exponent + (count - 1 : Nat)
      if place < -4 ∨ (count : Int) ≤ place then
        let mantissa := trimFraction (positional ⟨x.digits, -(count - 1 : Nat)⟩)
        let sign := if place < 0 then '-' else '+'
        withSign negative (mantissa ++ 'e' :: sign :: Numeral.padded 10 2 place.natAbs)
      else withSign negative (trimFraction (positional x))

end Ieee

namespace Double

def ofText? (s : String) : Option Double :=
  (Ieee.binary64.ofText? s.toList).map fun bits => ⟨bits.toUInt64⟩

def display (x : Double) : String := Ieee.binary64.display x.bits.toNat

def general (count : Nat) (x : Double) : String := Ieee.binary64.general count x.bits.toNat

end Double

def Single.ofText? (s : String) : Option Single :=
  (Ieee.binary32.ofText? s.toList).map fun bits => ⟨bits.toUInt32⟩

def Single.display (x : Single) : String := Ieee.binary32.display x.bits.toNat

end ProtobufSchema

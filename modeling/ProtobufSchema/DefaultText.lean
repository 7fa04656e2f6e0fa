import ProtobufSchema.FieldType
import ProtobufSchema.Ieee.Decimal

/-!
The usual form of the text of a default value: integers in decimal, and decimal fractions in as few
of two fixed counts of digits as read back. Text that is no number stays as it is.
-/

namespace ProtobufSchema

namespace DefaultText

def wordBits : Nat := 128

/-- The opposite of an integer of that many bits. The least one has none. -/
def negate (v : Int) : Except Overflow Int :=
  let bound : Int := Nat.pow 2 (wordBits - 1)
  if v = -bound then .error .negation else .ok (-v)

/-- An integer without a sign of its own in front: hexadecimal after `0x`, octal after a zero, else
decimal. -/
def magnitude? : List Char → Option Int
  | '0' :: 'x' :: cs => Numeral.integer? 16 wordBits cs
  | '0' :: 'X' :: cs => Numeral.integer? 16 wordBits cs
  | '0' :: c :: cs => Numeral.integer? 8 wordBits (c :: cs)
  | cs => Numeral.integer? 10 wordBits cs

/-- An integer with an optional minus sign in front, whether or not its digits have a sign of their
own. -/
def integer? : List Char → Except Overflow (Option Int)
  | '-' :: cs => (magnitude? cs).mapM negate
  | cs => .ok (magnitude? cs)

def unsigned : List Char → List Char
  | '-' :: cs => cs
  | cs => cs

def hasRadix : List Char → Bool
  | '0' :: 'x' :: _ => true
  | '0' :: 'X' :: _ => true
  | '0' :: c :: cs => (c :: cs).all Char.isDigit
  | _ => false

/-- Integers in other bases are read as such; a minus sign in front of zero is kept. -/
def double? (text : String) : Except Overflow (Option Double) :=
  let cs := text.toList
  (if hasRadix (unsigned cs) then integer? cs else .ok none).map fun
    | some v => some (if v = 0 ∧ cs.head? = some '-' then Double.zero.neg else .ofInt v)
    | none => Double.ofText? text

def ofDouble (x : Double) : String :=
  let short := x.general 15
  if Double.ofText? short = some x then short else x.general 17

def ofSingle (x : Single) : String :=
  let short := x.toDouble.general 6
  if Single.ofText? short = some x then short else x.toDouble.general 9

/-- The words for what is no finite number, which are written in lower case. -/
def nonFinite : List String := ["inf", "-inf", "nan", "-nan"]

def fraction (text : String) (render : Double → String) : Except Overflow String :=
  let lower := String.ofList (text.toList.map Char.toLower)
  if nonFinite.contains lower then .ok lower
  else (double? text).map fun x? => (x?.map render).getD text

def integer (text : String) : Except Overflow String :=
  (integer? text.toList).map fun v? => (v?.map Numeral.signed).getD text

def normalize (type : FieldType) (text : String) : Except Overflow String :=
  match type with
  | .double => fraction text ofDouble
  | .float => fraction text fun x => ofSingle x.toSingle
  | .int32 | .int64 | .uint32 | .uint64 | .sint32 | .sint64
  | .fixed32 | .fixed64 | .sfixed32 | .sfixed64 => integer text
  | .bool | .string | .bytes | .enum | .message | .group => .ok text

end DefaultText

end ProtobufSchema

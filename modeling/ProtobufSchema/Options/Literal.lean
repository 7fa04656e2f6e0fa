import ProtobufSchema.Descriptor.Basic

/-! Literals: scalar values before a field gives them a type. A literal that does not fit its type
exactly is refused, but rounded where floating point is wanted. -/

namespace ProtobufSchema

inductive Literal where
  | identifier (word : String)
  | integer (negative : Bool) (magnitude : UInt64)
  | decimal (value : Double)
  | string (content : Bytes)
  deriving DecidableEq, Repr

inductive CoercionError where
  | untypedField (name : String)
  | notInteger
  | outOfRange (min max : Int)
  | notUnsigned
  | negative
  | notNumber
  | notNumberWord (word : String)
  | notBool
  | notQuoted
  | notUtf8
  | unknownEnum (name : String)
  | unknownEnumValue (enum word : String)
  | notEnumIdentifier (enum : String)
  | notAggregate
  deriving DecidableEq, Repr

def CoercionError.message : CoercionError → String
  | untypedField name => "field '" ++ name ++ "' has no resolved type"
  | notInteger => "value must be an integer"
  | outOfRange min max => s!"value out of range [{min}, {max}]"
  | notUnsigned => "value must be an unsigned integer"
  | negative => "value must be non-negative"
  | notNumber => "value must be a number"
  | notNumberWord word => "'" ++ word ++ "' is not a number"
  | notBool => "value must be 'true' or 'false'"
  | notQuoted => "value must be a quoted string"
  | notUtf8 => "string is not valid UTF-8"
  | unknownEnum name => "unknown enum type '" ++ name ++ "'"
  | unknownEnumValue enum word => "enum '" ++ enum ++ "' has no value named '" ++ word ++ "'"
  | notEnumIdentifier enum => "value must be an identifier of enum '" ++ enum ++ "'"
  | notAggregate => "message values must be written as an aggregate '{ ... }'"

namespace Literal

def ofRaw? (raw : RawOption) : Option Literal :=
  (raw.identifier.map identifier)
    |>.or (raw.positiveInt.map (integer false))
    |>.or (raw.negativeInt.map fun v => integer (v < 0) v.toInt.natAbs.toUInt64)
    |>.or (raw.double.map decimal)
    |>.or (raw.string.map string)

def signed (l : Literal) (min max : Int) : Except CoercionError Int :=
  match l with
  | integer isNegative magnitude =>
    let v : Int := if isNegative then -magnitude.toNat else magnitude.toNat
    if min ≤ v ∧ v ≤ max then .ok v else .error (.outOfRange min max)
  | _ => .error .notInteger

def unsigned (l : Literal) (max : Nat) : Except CoercionError Nat :=
  match l with
  | integer true _ => .error .negative
  | integer false magnitude =>
    if magnitude.toNat ≤ max then .ok magnitude.toNat else .error (.outOfRange 0 max)
  | _ => .error .notUnsigned

def numberWord? (word : String) : Option Double :=
  let lower := word.toList.map Char.toLower
  if lower = "inf".toList ∨ lower = "infinity".toList then some .infinity
  else if lower = "nan".toList then some .nan
  else none

def double : Literal → Except CoercionError Double
  | decimal v => .ok v
  | integer isNegative magnitude =>
    let v := Double.ofInt magnitude.toNat
    .ok (if isNegative then v.neg else v)
  | identifier word =>
    match numberWord? word with
    | some v => .ok v
    | none => .error (.notNumberWord word)
  | string _ => .error .notNumber

def bool : Literal → Except CoercionError Bool
  | identifier "true" => .ok true
  | identifier "false" => .ok false
  | _ => .error .notBool

def quoted : Literal → Except CoercionError Bytes
  | string content => .ok content
  | _ => .error .notQuoted

def text (l : Literal) : Except CoercionError String := do
  match Utf8.decode? (← l.quoted) with
  | some s => return s
  | none => throw .notUtf8

def int32 (l : Literal) : Except CoercionError Int32 := do
  return .ofInt (← l.signed Int32.minValue.toInt Int32.maxValue.toInt)

def int64 (l : Literal) : Except CoercionError Int64 := do
  return .ofInt (← l.signed Int64.minValue.toInt Int64.maxValue.toInt)

/-- The number of an enum value, which is given by its name or by a number of any value. -/
def enumNumber (l : Literal) (types : TypeLookup) (enumName : String) :
    Except CoercionError Int32 :=
  match l with
  | identifier word =>
    match types.enum? enumName with
    | none => .error (.unknownEnum enumName)
    | some e =>
      match e.valueNamed? word with
      | none => .error (.unknownEnumValue enumName word)
      | some v => .ok (v.number?.getD 0)
  | integer _ _ => l.int32
  | _ => .error (.notEnumIdentifier enumName)

def coerce (l : Literal) (f : FieldDescriptor) (types : TypeLookup) : Except CoercionError Value :=
  match f.type? with
  | none => .error (.untypedField f.name)
  | some type =>
    match type with
    | .int32 | .sint32 | .sfixed32 => return .int32 (← l.int32)
    | .int64 | .sint64 | .sfixed64 => return .int64 (← l.int64)
    | .uint32 | .fixed32 => return .uint32 (← l.unsigned (UInt32.size - 1)).toUInt32
    | .uint64 | .fixed64 => return .uint64 (← l.unsigned (UInt64.size - 1)).toUInt64
    | .double => return .double (← l.double)
    | .float => return .float (← l.double).toSingle
    | .bool => return .bool (← l.bool)
    | .string => return .string (← l.text)
    | .bytes => return .bytes (← l.quoted)
    | .enum => return .enum (← l.enumNumber types f.typeName)
    | .message | .group => .error .notAggregate

end Literal

/-- Gives a field of a message a value; a repeated field has it after those it has. -/
def FieldDescriptor.store (f : FieldDescriptor) (m : Message) (v : Value) : Message :=
  match f.type? with
  | none => m
  | some type =>
    let number := f.number.toUInt32
    if f.isRepeated then m.push number type (f.isPacked type) v else m.set number type v

end ProtobufSchema

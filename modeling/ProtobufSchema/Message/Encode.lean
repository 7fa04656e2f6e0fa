import ProtobufSchema.Message.Basic
import ProtobufSchema.Wire.Varint

/-!
Messages on the wire: the entries in their order, then the unknown bytes. A value that does not fit
the type of its entry cannot be written.
-/

namespace ProtobufSchema

inductive EncodeError where
  | typeMismatch (field : UInt32) (expected : FieldType)
  deriving DecidableEq, Repr

def EncodeError.message : EncodeError → String
  | typeMismatch field expected =>
    "value for field " ++ toString field.toNat ++ " does not match its declared type " ++
      expected.name

def Value.scalarBytes? : FieldType → Value → Option Bytes
  | .int32, .int32 v => some (Wire.varint (Wire.signExtended v))
  | .int64, .int64 v => some (Wire.varint v.toUInt64)
  | .uint32, .uint32 v => some (Wire.varint v.toUInt64)
  | .uint64, .uint64 v => some (Wire.varint v)
  | .sint32, .int32 v => some (Wire.varint (Wire.zigzag32 v).toUInt64)
  | .sint64, .int64 v => some (Wire.varint (Wire.zigzag64 v))
  | .bool, .bool v => some (Wire.varint (if v then 1 else 0))
  | .enum, .enum v => some (Wire.varint (Wire.signExtended v))
  | .fixed32, .uint32 v => some (Wire.word32 v)
  | .sfixed32, .int32 v => some (Wire.word32 v.toUInt32)
  | .float, .float v => some (Wire.word32 v.bits)
  | .fixed64, .uint64 v => some (Wire.word64 v)
  | .sfixed64, .int64 v => some (Wire.word64 v.toUInt64)
  | .double, .double v => some (Wire.word64 v.bits)
  | .string, .string s =>
    let content := Utf8.encode s
    some (Wire.varint content.length.toUInt64 ++ content)
  | .bytes, .bytes bs => some (Wire.varint bs.length.toUInt64 ++ bs)
  | _, _ => none

def Value.encodeScalar (number : UInt32) (type : FieldType) (v : Value) :
    Except EncodeError Bytes :=
  match v.scalarBytes? type with
  | some bs => .ok bs
  | none => .error (.typeMismatch number type)

def Value.encodeRun (number : UInt32) (type : FieldType) : List Value → Except EncodeError Bytes
  | [] => .ok []
  | v :: vs => do
    let head ← v.encodeScalar number type
    let tail ← Value.encodeRun number type vs
    return head ++ tail

mutual

def Value.encodeField (number : UInt32) (type : FieldType) : Value → Except EncodeError Bytes
  | .message m =>
    match type with
    | .group => do
      let content ← m.encode
      return Wire.key number .startGroup ++ content ++ Wire.key number .endGroup
    | .message => do
      let content ← m.encode
      return Wire.block number content
    | _ => .error (.typeMismatch number type)
  | v =>
    if type.isMessage then .error (.typeMismatch number type)
    else do
      let content ← v.encodeScalar number type
      return Wire.key number type.wireType ++ content

def Value.encodeFields (number : UInt32) (type : FieldType) : List Value → Except EncodeError Bytes
  | [] => .ok []
  | v :: vs => do
    let head ← v.encodeField number type
    let tail ← Value.encodeFields number type vs
    return head ++ tail

def Entry.encode : Entry → Except EncodeError Bytes
  | ⟨number, type, packed, .list items⟩ =>
    if packed && type.isPackable then
      if items.isEmpty then .ok []
      else do
        let run ← Value.encodeRun number type items
        return Wire.block number run
    else Value.encodeFields number type items
  | ⟨number, type, _, v⟩ => v.encodeField number type

def Entry.encodeAll : List Entry → Except EncodeError Bytes
  | [] => .ok []
  | e :: es => do
    let head ← e.encode
    let tail ← Entry.encodeAll es
    return head ++ tail

def Message.encode : Message → Except EncodeError Bytes
  | ⟨_, entries, unknown⟩ => do
    let known ← Entry.encodeAll entries
    return known ++ unknown

end

end ProtobufSchema

import ProtobufSchema.Registry
import ProtobufSchema.Wire.Reader

/-! Messages from the wire. A field that is not known, or whose payload does not fit its type, is
kept as it was written. -/

namespace ProtobufSchema

structure DecodeContext where
  types : TypeLookup
  extensions? : Option Registry

def DecodeContext.field? (ctx : DecodeContext) (typeName : String) (number : UInt32) :
    Option FieldDescriptor :=
  ((ctx.types.message? typeName).bind (·.fieldNumbered? number.toInt32)).or
    ((ctx.extensions?.bind (·.find? typeName number.toInt32)).map (·.field))

namespace Value

def ofNumber? : FieldType → Payload → Option Value
  | .int32, .varint v => some (.int32 v.toUInt32.toInt32)
  | .int64, .varint v => some (.int64 v.toInt64)
  | .uint32, .varint v => some (.uint32 v.toUInt32)
  | .uint64, .varint v => some (.uint64 v)
  | .sint32, .varint v => some (.int32 (Wire.unzigzag32 v.toUInt32))
  | .sint64, .varint v => some (.int64 (Wire.unzigzag64 v))
  | .bool, .varint v => some (.bool (v != 0))
  | .enum, .varint v => some (.enum v.toUInt32.toInt32)
  | .fixed32, .fixed32 v => some (.uint32 v)
  | .sfixed32, .fixed32 v => some (.int32 v.toInt32)
  | .float, .fixed32 v => some (.float ⟨v⟩)
  | .fixed64, .fixed64 v => some (.uint64 v)
  | .sfixed64, .fixed64 v => some (.int64 v.toInt64)
  | .double, .fixed64 v => some (.double ⟨v⟩)
  | _, _ => none

def ofRun (number : UInt32) (type : FieldType) (r : Reader) : Except DecodeError (List Value) :=
  if r.rest = [] then .ok []
  else
    match h : Read.plainPayload number type.wireType r with
    | .error e _ => .error e
    | .ok p r' => do
      have := Read.plainPayload_rest h
      let more ← ofRun number type r'
      return (ofNumber? type p).toList ++ more
termination_by r.rest.length

/-- A single value of a type from a payload; nothing if the payload is of another kind. -/
def ofPayload (decode : String → Bytes → Except DecodeError Message) (f : FieldDescriptor)
    (type : FieldType) (number : UInt32) (p : Payload) : Except DecodeError (Option Value) :=
  match type, p with
  | .message, .lengthDelimited content | .group, .group content => do
    return some (.message (← decode f.typeName content))
  | .string, .lengthDelimited content => do
    return some (.string (← Read.text number content))
  | .bytes, .lengthDelimited content => .ok (some (.bytes content))
  | _, _ => .ok (ofNumber? type p)

end Value

namespace Message

/-- Stores a field that is known; nothing if its payload does not fit its type. -/
def decodeField (decode : String → Bytes → Except DecodeError Message) (f : FieldDescriptor)
    (m : Message) (w : WireField) : Except DecodeError (Option Message) := do
  match f.type? with
  | none => return none
  | some type =>
    match ← Value.ofPayload decode f type w.number w.payload with
    | some v =>
      return some (if f.isRepeated then m.push w.number type false v else m.set w.number type v)
    | none =>
      match w.payload with
      | .lengthDelimited run =>
        if f.isRepeated && type.isPackable then
          let values ← Value.ofRun w.number type (.ofBytes run)
          return some (values.foldl (fun m v => m.push w.number type true v) m)
        else return none
      | _ => return none

def decodeStep (ctx : DecodeContext) (decode : String → Bytes → Except DecodeError Message)
    (m : Message) (w : WireField) : Except DecodeError Message := do
  match ctx.field? m.typeName w.number with
  | none => return m.appendUnknown w.raw
  | some f =>
    match ← decodeField decode f m w with
    | some m' => return m'
    | none => return m.appendUnknown w.raw

/-- Reads a message with messages inside each other at most `depth` deep. -/
def decodeWithin (ctx : DecodeContext) : (depth : Nat) → String → Bytes → Except DecodeError Message
  | 0, typeName, _ => .ok (.empty typeName)
  | depth + 1, typeName, bytes =>
    (FieldSequence.ofBytes bytes).interpret (.empty typeName)
      (decodeStep ctx (decodeWithin ctx depth))

/-- Reads a message of a type. What is inside another message is shorter than that, so that the
depth never runs out. -/
def decode (ctx : DecodeContext) (typeName : String) (bytes : Bytes) : Except DecodeError Message :=
  decodeWithin ctx (bytes.length + 1) typeName bytes

end Message

end ProtobufSchema

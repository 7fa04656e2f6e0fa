import ProtobufSchema.Descriptor.Encode
import ProtobufSchema.Message.Decode

/-! Descriptors from the wire. The last value of a single field counts, and options are split into
assignments that wait and the message that all else makes. -/

namespace ProtobufSchema

namespace DecodeContext

def reading {σ : Type} (bytes : Bytes) (init : σ) (step : σ → WireField → Except DecodeError σ) :
    Except DecodeError σ :=
  (FieldSequence.ofBytes bytes).interpret init step

def int32Of (v : UInt64) : Int32 := v.toUInt32.toInt32

def int32Run (bytes : Bytes) : Except DecodeError (List Int32) := do
  let values ← Value.ofRun 0 .int32 (.ofBytes bytes)
  return values.filterMap fun
    | .int32 v => some v
    | _ => none

def label (v : UInt64) : Except DecodeError Label :=
  match Label.ofNumber? (int32Of v) with
  | some l => .ok l
  | none => .error (.invalidLabel (int32Of v))

def fieldType (v : UInt64) : Except DecodeError FieldType :=
  match FieldType.ofNumber? (int32Of v) with
  | some t => .ok t
  | none => .error (.invalidType (int32Of v))

end DecodeContext

open DecodeContext

def NamePart.decodeStep (p : NamePart) (w : WireField) : Except DecodeError NamePart :=
  match w.number.toNat, w.payload with
  | 1, .lengthDelimited c => return { p with name := ← Read.text w.number c }
  | 2, .varint v => return { p with isExtension := v != 0 }
  | _, _ => return p

def NamePart.decode (bytes : Bytes) : Except DecodeError NamePart :=
  reading bytes ⟨"", false⟩ decodeStep

def RawOption.decodeStep (o : RawOption) (w : WireField) : Except DecodeError RawOption :=
  match w.number.toNat, w.payload with
  | 2, .lengthDelimited c => return { o with name := o.name ++ [← NamePart.decode c] }
  | 3, .lengthDelimited c => return { o with identifier := some (← Read.text w.number c) }
  | 4, .varint v => return { o with positiveInt := some v }
  | 5, .varint v => return { o with negativeInt := some v.toInt64 }
  | 6, .fixed64 v => return { o with double := some ⟨v⟩ }
  | 7, .lengthDelimited c => return { o with string := some c }
  | 8, .lengthDelimited c => return { o with aggregate := some (← Read.text w.number c) }
  | _, _ => return o

def RawOption.decode (bytes : Bytes) : Except DecodeError RawOption :=
  reading bytes {} decodeStep

namespace Options

def splitStep (s : List RawOption × Bytes) (w : WireField) :
    Except DecodeError (List RawOption × Bytes) :=
  match w.payload with
  | .lengthDelimited c =>
    if w.number = Tag.uninterpreted.number then return (s.1 ++ [← RawOption.decode c], s.2)
    else return (s.1, s.2 ++ w.raw)
  | _ => return (s.1, s.2 ++ w.raw)

/-- Splits the waiting assignments from the bytes of all other fields. -/
def split (bytes : Bytes) : Except DecodeError (List RawOption × Bytes) :=
  reading bytes ([], []) splitStep

def decode (ctx : DecodeContext) (kind : OptionsKind) (bytes : Bytes) :
    Except DecodeError Options := do
  let (raws, rest) ← split bytes
  return ⟨kind, ← Message.decode ctx kind.typeName rest, raws⟩

end Options

def ReservedRange.decodeStep (r : ReservedRange) (w : WireField) :
    Except DecodeError ReservedRange :=
  match w.number.toNat, w.payload with
  | 1, .varint v => return { r with start? := some (int32Of v) }
  | 2, .varint v => return { r with stop? := some (int32Of v) }
  | _, _ => return r

def ReservedRange.decode (bytes : Bytes) : Except DecodeError ReservedRange :=
  reading bytes {} decodeStep

def ExtensionRange.decodeStep (ctx : DecodeContext) (r : ExtensionRange) (w : WireField) :
    Except DecodeError ExtensionRange :=
  match w.number.toNat, w.payload with
  | 1, .varint v => return { r with start? := some (int32Of v) }
  | 2, .varint v => return { r with stop? := some (int32Of v) }
  | 3, .lengthDelimited c =>
    return { r with options := some (← Options.decode ctx .extensionRange c) }
  | _, _ => return r

def ExtensionRange.decode (ctx : DecodeContext) (bytes : Bytes) :
    Except DecodeError ExtensionRange :=
  reading bytes {} (decodeStep ctx)

def FieldDescriptor.decodeStep (ctx : DecodeContext) (f : FieldDescriptor) (w : WireField) :
    Except DecodeError FieldDescriptor :=
  match w.number.toNat, w.payload with
  | 1, .lengthDelimited c => return { f with name? := some (← Read.text w.number c) }
  | 2, .lengthDelimited c => return { f with extendee? := some (← Read.text w.number c) }
  | 3, .varint v => return { f with number? := some (int32Of v) }
  | 4, .varint v => return { f with label? := some (← label v) }
  | 5, .varint v => return { f with type? := some (← fieldType v) }
  | 6, .lengthDelimited c => return { f with typeName? := some (← Read.text w.number c) }
  | 7, .lengthDelimited c => return { f with defaultValue? := some (← Read.text w.number c) }
  | 8, .lengthDelimited c => return { f with options := some (← Options.decode ctx .field c) }
  | 9, .varint v => return { f with oneofIndex? := some (int32Of v) }
  | 10, .lengthDelimited c => return { f with jsonName? := some (← Read.text w.number c) }
  | 17, .varint v => return { f with proto3Optional? := some (v != 0) }
  | _, _ => return f

def FieldDescriptor.decode (ctx : DecodeContext) (bytes : Bytes) :
    Except DecodeError FieldDescriptor :=
  reading bytes {} (decodeStep ctx)

def OneofDescriptor.decodeStep (ctx : DecodeContext) (o : OneofDescriptor) (w : WireField) :
    Except DecodeError OneofDescriptor :=
  match w.number.toNat, w.payload with
  | 1, .lengthDelimited c => return { o with name? := some (← Read.text w.number c) }
  | 2, .lengthDelimited c => return { o with options := some (← Options.decode ctx .oneof c) }
  | _, _ => return o

def OneofDescriptor.decode (ctx : DecodeContext) (bytes : Bytes) :
    Except DecodeError OneofDescriptor :=
  reading bytes {} (decodeStep ctx)

def EnumValueDescriptor.decodeStep (ctx : DecodeContext) (e : EnumValueDescriptor) (w : WireField) :
    Except DecodeError EnumValueDescriptor :=
  match w.number.toNat, w.payload with
  | 1, .lengthDelimited c => return { e with name? := some (← Read.text w.number c) }
  | 2, .varint v => return { e with number? := some (int32Of v) }
  | 3, .lengthDelimited c => return { e with options := some (← Options.decode ctx .enumValue c) }
  | _, _ => return e

def EnumValueDescriptor.decode (ctx : DecodeContext) (bytes : Bytes) :
    Except DecodeError EnumValueDescriptor :=
  reading bytes {} (decodeStep ctx)

def EnumDescriptor.decodeStep (ctx : DecodeContext) (e : EnumDescriptor) (w : WireField) :
    Except DecodeError EnumDescriptor :=
  match w.number.toNat, w.payload with
  | 1, .lengthDelimited c => return { e with name? := some (← Read.text w.number c) }
  | 2, .lengthDelimited c =>
    return { e with values := e.values ++ [← EnumValueDescriptor.decode ctx c] }
  | 3, .lengthDelimited c => return { e with options := some (← Options.decode ctx .enum c) }
  | 4, .lengthDelimited c =>
    return { e with reservedRanges := e.reservedRanges ++ [← ReservedRange.decode c] }
  | 5, .lengthDelimited c =>
    return { e with reservedNames := e.reservedNames ++ [← Read.text w.number c] }
  | _, _ => return e

def EnumDescriptor.decode (ctx : DecodeContext) (bytes : Bytes) :
    Except DecodeError EnumDescriptor :=
  reading bytes {} (decodeStep ctx)

def MethodDescriptor.decodeStep (ctx : DecodeContext) (m : MethodDescriptor) (w : WireField) :
    Except DecodeError MethodDescriptor :=
  match w.number.toNat, w.payload with
  | 1, .lengthDelimited c => return { m with name? := some (← Read.text w.number c) }
  | 2, .lengthDelimited c => return { m with inputType? := some (← Read.text w.number c) }
  | 3, .lengthDelimited c => return { m with outputType? := some (← Read.text w.number c) }
  | 4, .lengthDelimited c => return { m with options := some (← Options.decode ctx .method c) }
  | 5, .varint v => return { m with clientStreaming? := some (v != 0) }
  | 6, .varint v => return { m with serverStreaming? := some (v != 0) }
  | _, _ => return m

def MethodDescriptor.decode (ctx : DecodeContext) (bytes : Bytes) :
    Except DecodeError MethodDescriptor :=
  reading bytes {} (decodeStep ctx)

def ServiceDescriptor.decodeStep (ctx : DecodeContext) (s : ServiceDescriptor) (w : WireField) :
    Except DecodeError ServiceDescriptor :=
  match w.number.toNat, w.payload with
  | 1, .lengthDelimited c => return { s with name? := some (← Read.text w.number c) }
  | 2, .lengthDelimited c =>
    return { s with methods := s.methods ++ [← MethodDescriptor.decode ctx c] }
  | 3, .lengthDelimited c => return { s with options := some (← Options.decode ctx .service c) }
  | _, _ => return s

def ServiceDescriptor.decode (ctx : DecodeContext) (bytes : Bytes) :
    Except DecodeError ServiceDescriptor :=
  reading bytes {} (decodeStep ctx)

namespace MessageDescriptor

def decodeStep (ctx : DecodeContext) (nested : Bytes → Except DecodeError MessageDescriptor)
    (m : MessageDescriptor) (w : WireField) : Except DecodeError MessageDescriptor :=
  match w.number.toNat, w.payload with
  | 1, .lengthDelimited c => return { m with name? := some (← Read.text w.number c) }
  | 2, .lengthDelimited c =>
    return { m with fields := m.fields ++ [← FieldDescriptor.decode ctx c] }
  | 3, .lengthDelimited c => return { m with nestedTypes := m.nestedTypes ++ [← nested c] }
  | 4, .lengthDelimited c =>
    return { m with enumTypes := m.enumTypes ++ [← EnumDescriptor.decode ctx c] }
  | 5, .lengthDelimited c =>
    return { m with extensionRanges := m.extensionRanges ++ [← ExtensionRange.decode ctx c] }
  | 6, .lengthDelimited c =>
    return { m with extensions := m.extensions ++ [← FieldDescriptor.decode ctx c] }
  | 7, .lengthDelimited c => return { m with options := some (← Options.decode ctx .message c) }
  | 8, .lengthDelimited c =>
    return { m with oneofs := m.oneofs ++ [← OneofDescriptor.decode ctx c] }
  | 9, .lengthDelimited c =>
    return { m with reservedRanges := m.reservedRanges ++ [← ReservedRange.decode c] }
  | 10, .lengthDelimited c =>
    return { m with reservedNames := m.reservedNames ++ [← Read.text w.number c] }
  | _, _ => return m

/-- Reads a message type with message types inside each other at most `depth` deep. -/
def decodeWithin (ctx : DecodeContext) :
    (depth : Nat) → Bytes → Except DecodeError MessageDescriptor
  | 0, _ => .ok {}
  | depth + 1, bytes => reading bytes {} (decodeStep ctx (decodeWithin ctx depth))

def decode (ctx : DecodeContext) (bytes : Bytes) : Except DecodeError MessageDescriptor :=
  decodeWithin ctx (bytes.length + 1) bytes

end MessageDescriptor

namespace FileDescriptor

def decodeStep (ctx : DecodeContext) (f : FileDescriptor) (w : WireField) :
    Except DecodeError FileDescriptor :=
  match w.number.toNat, w.payload with
  | 1, .lengthDelimited c => return { f with name? := some (← Read.text w.number c) }
  | 2, .lengthDelimited c => return { f with package? := some (← Read.text w.number c) }
  | 3, .lengthDelimited c =>
    return { f with dependencies := f.dependencies ++ [← Read.text w.number c] }
  | 4, .lengthDelimited c =>
    return { f with messageTypes := f.messageTypes ++ [← MessageDescriptor.decode ctx c] }
  | 5, .lengthDelimited c =>
    return { f with enumTypes := f.enumTypes ++ [← EnumDescriptor.decode ctx c] }
  | 6, .lengthDelimited c =>
    return { f with services := f.services ++ [← ServiceDescriptor.decode ctx c] }
  | 7, .lengthDelimited c =>
    return { f with extensions := f.extensions ++ [← FieldDescriptor.decode ctx c] }
  | 8, .lengthDelimited c => return { f with options := some (← Options.decode ctx .file c) }
  | 10, .varint v => return { f with publicDependencies := f.publicDependencies ++ [int32Of v] }
  | 11, .varint v => return { f with weakDependencies := f.weakDependencies ++ [int32Of v] }
  | 10, .lengthDelimited c =>
    return { f with publicDependencies := f.publicDependencies ++ (← int32Run c) }
  | 11, .lengthDelimited c =>
    return { f with weakDependencies := f.weakDependencies ++ (← int32Run c) }
  | 12, .lengthDelimited c => return { f with dialect? := some (← Read.text w.number c) }
  | _, _ => return f

def decode (ctx : DecodeContext) (bytes : Bytes) : Except DecodeError FileDescriptor :=
  reading bytes {} (decodeStep ctx)

def decodeSetStep (ctx : DecodeContext) (files : (List FileDescriptor)) (w : WireField) :
    Except DecodeError (List FileDescriptor) :=
  match w.number.toNat, w.payload with
  | 1, .lengthDelimited c => return files ++ [← decode ctx c]
  | _, _ => return files

def decodeSet (ctx : DecodeContext) (bytes : Bytes) : Except DecodeError (List FileDescriptor) :=
  reading bytes [] (decodeSetStep ctx)

end FileDescriptor

end ProtobufSchema

import ProtobufSchema.Descriptor.Path
import ProtobufSchema.Message.Encode

/-! Descriptors on the wire: the fields in ascending order of their numbers, and only those that are
set. -/

namespace ProtobufSchema

namespace Wire

def textField (number : UInt32) (value? : Option String) : Bytes :=
  value?.elim [] fun s => block number (Utf8.encode s)

def varintField (number : UInt32) (value? : Option UInt64) : Bytes :=
  value?.elim [] fun v => key number .varint ++ varint v

def int32Field (number : UInt32) (value? : Option Int32) : Bytes :=
  varintField number (value?.map signExtended)

def boolField (number : UInt32) (value? : Option Bool) : Bytes :=
  varintField number (value?.map fun b => if b then 1 else 0)

def textFields (number : UInt32) (values : List String) : Bytes :=
  values.flatMap fun s => block number (Utf8.encode s)

def int32Fields (number : UInt32) (values : List Int32) : Bytes :=
  values.flatMap fun v => int32Field number (some v)

def blocks {α : Type} (number : UInt32) (encode : α → Bytes) (values : List α) : Bytes :=
  values.flatMap fun v => block number (encode v)

def blocksM {α : Type} (number : UInt32) (encode : α → Except EncodeError Bytes) :
    List α → Except EncodeError Bytes
  | [] => .ok []
  | v :: vs => do
    let head ← encode v
    let tail ← blocksM number encode vs
    return block number head ++ tail

end Wire

open Wire

def NamePart.encode (p : NamePart) : Bytes :=
  textField 1 (some p.name) ++ boolField 2 (some p.isExtension)

def RawOption.encode (o : RawOption) : Bytes :=
  blocks 2 NamePart.encode o.name ++ textField 3 o.identifier ++ varintField 4 o.positiveInt ++
    varintField 5 (o.negativeInt.map Int64.toUInt64) ++
    (o.double.elim [] fun v => key 6 .fixed64 ++ word64 v.bits) ++
    (o.string.elim [] fun bs => block 7 bs) ++ textField 8 o.aggregate

/-- An entry under the number of the waiting assignments gives way to them. -/
def Options.encode (o : Options) : Except EncodeError Bytes := do
  let low ← Entry.encodeAll (o.message.entries.filter (·.number < Tag.uninterpreted.number))
  let high ← Entry.encodeAll (o.message.entries.filter (Tag.uninterpreted.number < ·.number))
  return low ++ blocks Tag.uninterpreted.number RawOption.encode o.uninterpreted ++ high ++
    o.message.unknown

def Options.encodeField (number : UInt32) (o? : Option Options) : Except EncodeError Bytes :=
  blocksM number encode o?.toList

def ReservedRange.encode (r : ReservedRange) : Bytes :=
  int32Field 1 r.start? ++ int32Field 2 r.stop?

def ExtensionRange.encode (r : ExtensionRange) : Except EncodeError Bytes := do
  return int32Field 1 r.start? ++ int32Field 2 r.stop? ++ (← Options.encodeField 3 r.options)

def FieldDescriptor.encode (f : FieldDescriptor) : Except EncodeError Bytes := do
  let options ← Options.encodeField 8 f.options
  return textField 1 f.name? ++ textField 2 f.extendee? ++ int32Field 3 f.number? ++
    int32Field 4 (f.label?.map Label.number) ++ int32Field 5 (f.type?.map FieldType.number) ++
    textField 6 f.typeName? ++ textField 7 f.defaultValue? ++ options ++
    int32Field 9 f.oneofIndex? ++ textField 10 f.jsonName? ++ boolField 17 f.proto3Optional?

def OneofDescriptor.encode (o : OneofDescriptor) : Except EncodeError Bytes := do
  return textField 1 o.name? ++ (← Options.encodeField 2 o.options)

def EnumValueDescriptor.encode (v : EnumValueDescriptor) : Except EncodeError Bytes := do
  return textField 1 v.name? ++ int32Field 2 v.number? ++ (← Options.encodeField 3 v.options)

def EnumDescriptor.encode (e : EnumDescriptor) : Except EncodeError Bytes := do
  let values ← blocksM 2 EnumValueDescriptor.encode e.values
  let options ← Options.encodeField 3 e.options
  return textField 1 e.name? ++ values ++ options ++
    blocks 4 ReservedRange.encode e.reservedRanges ++ textFields 5 e.reservedNames

def MethodDescriptor.encode (m : MethodDescriptor) : Except EncodeError Bytes := do
  let options ← Options.encodeField 4 m.options
  return textField 1 m.name? ++ textField 2 m.inputType? ++ textField 3 m.outputType? ++ options ++
    boolField 5 m.clientStreaming? ++ boolField 6 m.serverStreaming?

def ServiceDescriptor.encode (s : ServiceDescriptor) : Except EncodeError Bytes := do
  let methods ← blocksM 2 MethodDescriptor.encode s.methods
  let options ← Options.encodeField 3 s.options
  return textField 1 s.name? ++ methods ++ options

mutual

def MessageDescriptor.encode : MessageDescriptor → Except EncodeError Bytes
  | ⟨name?, fields, extensions, nestedTypes, enumTypes, extensionRanges, oneofs, options,
      reservedRanges, reservedNames⟩ => do
    let fields ← blocksM 2 FieldDescriptor.encode fields
    let nested ← MessageDescriptor.encodeNested nestedTypes
    let enums ← blocksM 4 EnumDescriptor.encode enumTypes
    let ranges ← blocksM 5 ExtensionRange.encode extensionRanges
    let extensions ← blocksM 6 FieldDescriptor.encode extensions
    let options ← Options.encodeField 7 options
    let oneofs ← blocksM 8 OneofDescriptor.encode oneofs
    return textField 1 name? ++ fields ++ nested ++ enums ++ ranges ++ extensions ++ options ++
      oneofs ++ blocks 9 ReservedRange.encode reservedRanges ++ textFields 10 reservedNames

def MessageDescriptor.encodeNested : List MessageDescriptor → Except EncodeError Bytes
  | [] => .ok []
  | m :: ms => do
    let head ← m.encode
    let tail ← MessageDescriptor.encodeNested ms
    return block 3 head ++ tail

end

def FileDescriptor.encode (f : FileDescriptor) : Except EncodeError Bytes := do
  let messages ← blocksM 4 MessageDescriptor.encode f.messageTypes
  let enums ← blocksM 5 EnumDescriptor.encode f.enumTypes
  let services ← blocksM 6 ServiceDescriptor.encode f.services
  let extensions ← blocksM 7 FieldDescriptor.encode f.extensions
  let options ← Options.encodeField 8 f.options
  return textField 1 f.name? ++ textField 2 f.package? ++ textFields 3 f.dependencies ++ messages ++
    enums ++ services ++ extensions ++ options ++ int32Fields 10 f.publicDependencies ++
    int32Fields 11 f.weakDependencies ++ textField 12 f.dialect?

def FileDescriptor.encodeSet (files : List FileDescriptor) : Except EncodeError Bytes :=
  blocksM 1 encode files

end ProtobufSchema

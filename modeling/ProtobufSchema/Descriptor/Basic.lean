import ProtobufSchema.Message.Basic
import ProtobufSchema.Source.Span
import ProtobufSchema.Text.Name

/-! Descriptors: what a schema declares, as data. Whether a property is set is part of the data, so
every single property is optional. -/

namespace ProtobufSchema

def maxFieldNumber : Int32 := 536870911

/-- The field numbers from here on, up to `reservedEnd`, belong to the wire format's
implementations. -/
def reservedStart : Int32 := 19000

def reservedEnd : Int32 := 20000

def isReservedNumber (n : Int32) : Bool := reservedStart ≤ n && n < reservedEnd

inductive OptionsKind where
  | file
  | message
  | field
  | oneof
  | enum
  | enumValue
  | service
  | method
  | extensionRange
  deriving DecidableEq, Repr

namespace OptionsKind

def all : List OptionsKind :=
  [file, message, field, oneof, enum, enumValue, service, method, extensionRange]

def name : OptionsKind → String
  | file => "File"
  | message => "Message"
  | field => "Field"
  | oneof => "Oneof"
  | enum => "Enum"
  | enumValue => "EnumValue"
  | service => "Service"
  | method => "Method"
  | extensionRange => "ExtensionRange"

def typeName (kind : OptionsKind) : String := "google.protobuf." ++ kind.name ++ "Options"

end OptionsKind

structure NamePart where
  name : String
  isExtension : Bool
  deriving DecidableEq, Repr

structure RawOption where
  name : List NamePart := []
  identifier : Option String := none
  positiveInt : Option UInt64 := none
  negativeInt : Option Int64 := none
  double : Option Double := none
  string : Option Bytes := none
  aggregate : Option String := none
  /-- Where the assignment was written; it is not part of the written form. -/
  span : Option Span := none
  deriving DecidableEq, Repr

def NamePart.text (part : NamePart) : String :=
  if part.isExtension then "(" ++ part.name ++ ")" else part.name

def RawOption.nameText (o : RawOption) : String := ".".intercalate (o.name.map NamePart.text)

structure Options where
  kind : OptionsKind
  message : Message
  uninterpreted : List RawOption
  deriving BEq, Repr

def Options.empty (kind : OptionsKind) : Options := ⟨kind, .empty kind.typeName, []⟩

def Options.isEmpty (o : Options) : Bool := o.message.isEmpty && o.uninterpreted.isEmpty

structure FieldDescriptor where
  name? : Option String := none
  extendee? : Option String := none
  number? : Option Int32 := none
  label? : Option Label := none
  type? : Option FieldType := none
  typeName? : Option String := none
  defaultValue? : Option String := none
  options : Option Options := none
  oneofIndex? : Option Int32 := none
  jsonName? : Option String := none
  proto3Optional? : Option Bool := none
  deriving BEq, Repr

namespace FieldDescriptor

def name (f : FieldDescriptor) : String := f.name?.getD ""

def number (f : FieldDescriptor) : Int32 := f.number?.getD 0

def isRepeated (f : FieldDescriptor) : Bool := f.label? == some .repeated

def isMessage (f : FieldDescriptor) : Bool := f.type?.any FieldType.isMessage

def typeName (f : FieldDescriptor) : String := Name.unqualify (f.typeName?.getD "")

def extendee (f : FieldDescriptor) : String := Name.unqualify (f.extendee?.getD "")

def packedOption? (f : FieldDescriptor) : Option Bool :=
  f.options.bind fun o => (o.message.get? 2).bind Value.asBool?

/-- Whether new values of a repeated field of this type are written as one run. -/
def isPacked (f : FieldDescriptor) (type : FieldType) : Bool :=
  f.packedOption?.getD false && type.isPackable

end FieldDescriptor

structure OneofDescriptor where
  name? : Option String := none
  options : Option Options := none
  deriving BEq, Repr

structure ExtensionRange where
  start? : Option Int32 := none
  stop? : Option Int32 := none
  options : Option Options := none
  deriving BEq, Repr

/-- Reserved numbers. In a message the last one is not included, in an enum it is. -/
structure ReservedRange where
  start? : Option Int32 := none
  stop? : Option Int32 := none
  deriving DecidableEq, Repr

structure EnumValueDescriptor where
  name? : Option String := none
  number? : Option Int32 := none
  options : Option Options := none
  deriving BEq, Repr

structure EnumDescriptor where
  name? : Option String := none
  values : List EnumValueDescriptor := []
  options : Option Options := none
  reservedRanges : List ReservedRange := []
  reservedNames : List String := []
  deriving BEq, Repr

namespace EnumDescriptor

def name (e : EnumDescriptor) : String := e.name?.getD ""

def valueNamed? (e : EnumDescriptor) (name : String) : Option EnumValueDescriptor :=
  e.values.find? (·.name? == some name)

def valueNumbered? (e : EnumDescriptor) (number : Int32) : Option EnumValueDescriptor :=
  e.values.find? (·.number? == some number)

end EnumDescriptor

structure MethodDescriptor where
  name? : Option String := none
  inputType? : Option String := none
  outputType? : Option String := none
  options : Option Options := none
  clientStreaming? : Option Bool := none
  serverStreaming? : Option Bool := none
  deriving BEq, Repr

structure ServiceDescriptor where
  name? : Option String := none
  methods : List MethodDescriptor := []
  options : Option Options := none
  deriving BEq, Repr

def ServiceDescriptor.name (s : ServiceDescriptor) : String := s.name?.getD ""

structure MessageDescriptor where
  name? : Option String := none
  fields : List FieldDescriptor := []
  extensions : List FieldDescriptor := []
  nestedTypes : List MessageDescriptor := []
  enumTypes : List EnumDescriptor := []
  extensionRanges : List ExtensionRange := []
  oneofs : List OneofDescriptor := []
  options : Option Options := none
  reservedRanges : List ReservedRange := []
  reservedNames : List String := []
  deriving BEq, Repr

namespace MessageDescriptor

def name (m : MessageDescriptor) : String := m.name?.getD ""

def fieldNamed? (m : MessageDescriptor) (name : String) : Option FieldDescriptor :=
  m.fields.find? (·.name == name)

def fieldNumbered? (m : MessageDescriptor) (number : Int32) : Option FieldDescriptor :=
  m.fields.find? (·.number? == some number)

def groupNamed? (m : MessageDescriptor) (name : String) : Option FieldDescriptor :=
  m.fields.find? fun f =>
    f.type? == some .group && f.typeName?.map Name.lastSegment == some name

def isMapEntry (m : MessageDescriptor) : Bool :=
  (m.options.bind fun o => (o.message.get? 7).bind Value.asBool?).getD false

end MessageDescriptor

structure FileDescriptor where
  name? : Option String := none
  package? : Option String := none
  dependencies : List String := []
  /-- Positions of the dependencies that importers of this file see too. -/
  publicDependencies : List Int32 := []
  weakDependencies : List Int32 := []
  messageTypes : List MessageDescriptor := []
  enumTypes : List EnumDescriptor := []
  services : List ServiceDescriptor := []
  extensions : List FieldDescriptor := []
  options : Option Options := none
  /-- The name of the dialect, set only for the newer one. -/
  dialect? : Option String := none
  deriving BEq, Repr

namespace FileDescriptor

def name (f : FileDescriptor) : String := f.name?.getD ""

def package (f : FileDescriptor) : String := f.package?.getD ""

def isProto3 (f : FileDescriptor) : Bool := f.dialect? == some "proto3"

end FileDescriptor

def metaSchemaFile : String := "google/protobuf/descriptor.proto"

def reservedPackage : String := "google.protobuf"

structure TypeLookup where
  message? : String → Option MessageDescriptor
  enum? : String → Option EnumDescriptor
  extension? : String → Option FieldDescriptor

end ProtobufSchema

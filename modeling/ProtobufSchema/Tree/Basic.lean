import ProtobufSchema.Descriptor.Basic

/-!
Schemas as they are written: declarations in the order of the text, names as they stand there, and
where each declaration begins. Ranges include both ends.
-/

namespace ProtobufSchema

inductive Dialect where
  | proto2
  | proto3
  deriving DecidableEq, Repr

def Dialect.name : Dialect → String
  | proto2 => "proto2"
  | proto3 => "proto3"

def Dialect.ofName? (name : String) : Option Dialect := [proto2, proto3].find? (·.name == name)

namespace Tree

inductive Constant where
  | identifier (name : String)
  /-- The text is the literal as written, with the sign if that is a minus. -/
  | integer (negative : Bool) (magnitude : UInt64) (text : String)
  | decimal (value : Double) (text : String)
  | string (content : Bytes)
  | aggregate (text : String)
  deriving DecidableEq, Repr

def Constant.text : Constant → String
  | identifier name => name
  | integer _ _ text | decimal _ text => text
  | string content => Utf8.decodeLossy content
  | aggregate text => text

structure Assignment where
  name : List NamePart
  value : Constant
  span : Span
  deriving DecidableEq, Repr

def Assignment.simpleName? (a : Assignment) : Option String :=
  match a.name with
  | [part] => if part.isExtension then none else some part.name
  | _ => none

structure Package where
  name : String
  span : Span
  deriving DecidableEq, Repr

inductive ImportKind where
  | plain
  | isPublic
  | weak
  deriving DecidableEq, Repr

structure Import where
  path : String
  kind : ImportKind
  span : Span
  deriving DecidableEq, Repr

structure Field where
  label? : Option Label
  typeName : String
  name : String
  number : Int32
  options : List Assignment
  span : Span
  comment? : Option String
  deriving DecidableEq, Repr

structure MapField where
  keyType : String
  valueType : String
  name : String
  number : Int32
  options : List Assignment
  span : Span
  comment? : Option String
  deriving DecidableEq, Repr

structure Extensions where
  ranges : List (Int32 × Int32)
  options : List Assignment
  span : Span
  deriving DecidableEq, Repr

structure Reserved where
  ranges : List (Int32 × Int32)
  names : List String
  span : Span
  deriving DecidableEq, Repr

structure EnumValue where
  name : String
  number : Int32
  options : List Assignment
  span : Span
  comment? : Option String
  deriving DecidableEq, Repr

inductive EnumMember where
  | value (v : EnumValue)
  | option (a : Assignment)
  | reserved (r : Reserved)
  deriving DecidableEq, Repr

structure Enum where
  name : String
  members : List EnumMember
  span : Span
  comment? : Option String
  deriving DecidableEq, Repr

structure Method where
  name : String
  inputType : String
  clientStreaming : Bool
  outputType : String
  serverStreaming : Bool
  options : List Assignment
  span : Span
  comment? : Option String
  deriving DecidableEq, Repr

inductive ServiceMember where
  | method (m : Method)
  | option (a : Assignment)
  deriving DecidableEq, Repr

structure Service where
  name : String
  members : List ServiceMember
  span : Span
  comment? : Option String
  deriving DecidableEq, Repr

mutual

/-- A field that is also a message type. The field is named by the name in lower case. -/
structure Group where
  label? : Option Label
  name : String
  number : Int32
  options : List Assignment
  members : List Member
  span : Span
  comment? : Option String

inductive FieldMember where
  | field (f : Field)
  | group (g : Group)

inductive OneofMember where
  | field (f : FieldMember)
  | option (a : Assignment)

structure Oneof where
  name : String
  members : List OneofMember
  span : Span

structure Extend where
  extendee : String
  fields : List FieldMember
  span : Span

structure Message where
  name : String
  members : List Member
  span : Span
  comment? : Option String

inductive Member where
  | field (f : FieldMember)
  | map (m : MapField)
  | oneof (o : Oneof)
  | message (m : Message)
  | enum (e : Enum)
  | extend (e : Extend)
  | extensions (e : Extensions)
  | reserved (r : Reserved)
  | option (a : Assignment)

end

inductive Item where
  | message (m : Message)
  | enum (e : Enum)
  | service (s : Service)
  | extend (e : Extend)

structure File where
  dialect : Dialect := .proto2
  isExplicit : Bool := false
  package? : Option Package := none
  imports : List Import := []
  options : List Assignment := []
  items : List Item := []

end Tree

end ProtobufSchema

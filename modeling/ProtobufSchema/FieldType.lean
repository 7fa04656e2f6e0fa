/-!
The types and labels that a field can be declared with, their numbers in descriptors and their
keywords in schemas.
-/

namespace ProtobufSchema

inductive Label where
  | optional
  | required
  | repeated
  deriving DecidableEq, Repr

namespace Label

def number : Label → Int32
  | optional => 1
  | required => 2
  | repeated => 3

def ofNumber? (n : Int32) : Option Label :=
  [optional, required, repeated].find? (·.number == n)

def name : Label → String
  | optional => "optional"
  | required => "required"
  | repeated => "repeated"

def ofKeyword? (word : String) : Option Label :=
  [optional, required, repeated].find? (·.name == word)

end Label

inductive FieldType where
  | double
  | float
  | int64
  | uint64
  | int32
  | fixed64
  | fixed32
  | bool
  | string
  | group
  | message
  | bytes
  | uint32
  | enum
  | sfixed32
  | sfixed64
  | sint32
  | sint64
  deriving DecidableEq, Repr

namespace FieldType

def all : List FieldType :=
  [double, float, int64, uint64, int32, fixed64, fixed32, bool, string, group, message, bytes,
    uint32, enum, sfixed32, sfixed64, sint32, sint64]

def number : FieldType → Int32
  | double => 1
  | float => 2
  | int64 => 3
  | uint64 => 4
  | int32 => 5
  | fixed64 => 6
  | fixed32 => 7
  | bool => 8
  | string => 9
  | group => 10
  | message => 11
  | bytes => 12
  | uint32 => 13
  | enum => 14
  | sfixed32 => 15
  | sfixed64 => 16
  | sint32 => 17
  | sint64 => 18

def ofNumber? (n : Int32) : Option FieldType := all.find? (·.number == n)

def name : FieldType → String
  | double => "double"
  | float => "float"
  | int64 => "int64"
  | uint64 => "uint64"
  | int32 => "int32"
  | fixed64 => "fixed64"
  | fixed32 => "fixed32"
  | bool => "bool"
  | string => "string"
  | group => "group"
  | message => "message"
  | bytes => "bytes"
  | uint32 => "uint32"
  | enum => "enum"
  | sfixed32 => "sfixed32"
  | sfixed64 => "sfixed64"
  | sint32 => "sint32"
  | sint64 => "sint64"

def isMessage : FieldType → Bool
  | message | group => true
  | _ => false

/-- Whether a repeated field of the type may be written as one run of values without keys. -/
def isPackable : FieldType → Bool
  | string | bytes | message | group => false
  | _ => true

def isScalar : FieldType → Bool
  | group | message | enum => false
  | _ => true

def ofKeyword? (word : String) : Option FieldType :=
  all.find? fun t => t.isScalar && t.name == word

end FieldType

end ProtobufSchema

import ProtobufSchema.FieldType
import ProtobufSchema.Ieee.Decimal
import ProtobufSchema.Text.Escape

/-! Messages of a type known only at run time. The present fields, extensions among them, are
entries in ascending order of their numbers; bytes that no schema explains are kept as they are. -/

namespace ProtobufSchema

mutual

/-- The value of a field: a list if the field is repeated, and else a single value. -/
inductive Value where
  | int32 (v : Int32)
  | int64 (v : Int64)
  | uint32 (v : UInt32)
  | uint64 (v : UInt64)
  | float (v : Single)
  | double (v : Double)
  | bool (v : Bool)
  | enum (number : Int32)
  | string (s : String)
  | bytes (bs : Bytes)
  | message (m : Message)
  | list (items : List Value)

structure Entry where
  number : UInt32
  type : FieldType
  packed : Bool
  value : Value

structure Message where
  typeName : String
  entries : List Entry
  unknown : Bytes

end

deriving instance BEq for Value, Entry, Message

deriving instance Repr for Value, Entry, Message

namespace Value

def asBool? : Value → Option Bool
  | bool v => some v
  | _ => none

def asInt64? : Value → Option Int64
  | int32 v | enum v => some v.toInt64
  | int64 v => some v
  | uint32 v => some v.toUInt64.toInt64
  | uint64 v => if v < 0x8000000000000000 then some v.toInt64 else none
  | _ => none

def asUInt64? : Value → Option UInt64
  | uint32 v => some v.toUInt64
  | uint64 v => some v
  | int32 v => if 0 ≤ v then some v.toInt64.toUInt64 else none
  | int64 v => if 0 ≤ v then some v.toUInt64 else none
  | _ => none

def asDouble? : Value → Option Double
  | float v => some v.toDouble
  | double v => some v
  | _ => none

def asString? : Value → Option String
  | string s => some s
  | _ => none

def asBytes? : Value → Option Bytes
  | bytes bs => some bs
  | string s => some (Utf8.encode s)
  | _ => none

def asMessage? : Value → Option Message
  | message m => some m
  | _ => none

def asList? : Value → Option (List Value)
  | list items => some items
  | _ => none

/-- The value of a field of a type when it is absent; messages have none. -/
def default? : FieldType → Option Value
  | .double => some (double .zero)
  | .float => some (float .zero)
  | .int64 | .sint64 | .sfixed64 => some (int64 0)
  | .uint64 | .fixed64 => some (uint64 0)
  | .int32 | .sint32 | .sfixed32 => some (int32 0)
  | .uint32 | .fixed32 => some (uint32 0)
  | .bool => some (bool false)
  | .enum => some (enum 0)
  | .string => some (string "")
  | .bytes => some (bytes [])
  | .message | .group => none

def kindName : Value → String
  | int32 _ => "int32"
  | int64 _ => "int64"
  | uint32 _ => "uint32"
  | uint64 _ => "uint64"
  | float _ => "float"
  | double _ => "double"
  | bool _ => "bool"
  | enum _ => "enum"
  | string _ => "string"
  | bytes _ => "bytes"
  | message _ => "message"
  | list _ => "list"

end Value

mutual

def Value.display : Value → String
  | .int32 v | .enum v => toString v.toInt
  | .int64 v => toString v.toInt
  | .uint32 v => toString v.toNat
  | .uint64 v => toString v.toNat
  | .float v => v.display
  | .double v => v.display
  | .bool v => if v then "true" else "false"
  | .string s => Escape.quoted s
  | .bytes bs => "<" ++ toString bs.length ++ " bytes>"
  | .message m => m.display
  | .list items => "[" ++ ", ".intercalate (Value.displayAll items) ++ "]"

def Value.displayAll : List Value → List String
  | [] => []
  | v :: vs => v.display :: Value.displayAll vs

def Entry.displayAll : List Entry → List String
  | [] => []
  | e :: es => e.display :: Entry.displayAll es

def Entry.display : Entry → String
  | ⟨number, _, _, value⟩ => toString number.toNat ++ ": " ++ value.display

def Message.display : Message → String
  | ⟨typeName, entries, unknown⟩ =>
    typeName ++ r" { " ++ ", ".intercalate (Entry.displayAll entries) ++
      (if unknown.isEmpty then "" else " <" ++ toString unknown.length ++ " unknown bytes>") ++
      r" }"

end

/-- Changes, adds or drops the entry of a number, at its place in the ascending order. -/
def Entry.alter (number : UInt32) (f : Option Entry → Option Entry) : List Entry → List Entry
  | [] => (f none).toList
  | e :: es =>
    if number < e.number then (f none).toList ++ e :: es
    else if number = e.number then (f (some e)).toList ++ es
    else e :: alter number f es

namespace Message

def empty (typeName : String) : Message := ⟨typeName, [], []⟩

def isEmpty (m : Message) : Bool := m.entries.isEmpty && m.unknown.isEmpty

def entry? (m : Message) (number : UInt32) : Option Entry :=
  m.entries.find? (·.number == number)

def get? (m : Message) (number : UInt32) : Option Value := (m.entry? number).map (·.value)

def has (m : Message) (number : UInt32) : Bool := (m.entry? number).isSome

def fieldNumbers (m : Message) : List UInt32 := m.entries.map (·.number)

def alter (m : Message) (number : UInt32) (f : Option Entry → Option Entry) : Message :=
  { m with entries := Entry.alter number f m.entries }

def set (m : Message) (number : UInt32) (type : FieldType) (value : Value) : Message :=
  m.alter number fun _ => some ⟨number, type, false, value⟩

/-- Adds a value at the end of a repeated field. A single value that stands there becomes the first
of a list, and what the entry says of its type stays. -/
def push (m : Message) (number : UInt32) (type : FieldType) (packed : Bool) (value : Value) :
    Message :=
  m.alter number fun
    | none => some ⟨number, type, packed, .list [value]⟩
    | some ⟨n, t, p, .list items⟩ => some ⟨n, t, p, .list (items ++ [value])⟩
    | some ⟨n, t, p, other⟩ => some ⟨n, t, p, .list [other, value]⟩

/-- Changes the message in a field, which begins empty where there is none. -/
def modifyMessage (m : Message) (number : UInt32) (type : FieldType) (typeName : String)
    (f : Message → Message) : Message :=
  m.alter number fun
    | none => some ⟨number, type, false, .message (f (.empty typeName))⟩
    | some ⟨n, t, p, .message inner⟩ => some ⟨n, t, p, .message (f inner)⟩
    | some ⟨n, t, p, _⟩ => some ⟨n, t, p, .message (f (.empty typeName))⟩

def erase (m : Message) (number : UInt32) : Message := m.alter number fun _ => none

def appendUnknown (m : Message) (bytes : Bytes) : Message :=
  { m with unknown := m.unknown ++ bytes }

def clearUnknown (m : Message) : Message := { m with unknown := [] }

end Message

end ProtobufSchema

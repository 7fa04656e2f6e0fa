import ProtobufSchema.FieldType
import ProtobufSchema.Text.Utf8

/-!
What the wire format writes: base-128 numbers with the least significant digit first, field keys,
little-endian words, and the signed numbers that alternate between the two signs.
-/

namespace ProtobufSchema

inductive WireType where
  | varint
  | fixed64
  | lengthDelimited
  | startGroup
  | endGroup
  | fixed32
  deriving DecidableEq, Repr

def WireType.number : WireType → Nat
  | varint => 0
  | fixed64 => 1
  | lengthDelimited => 2
  | startGroup => 3
  | endGroup => 4
  | fixed32 => 5

def WireType.ofNumber? : Nat → Option WireType
  | 0 => some varint
  | 1 => some fixed64
  | 2 => some lengthDelimited
  | 3 => some startGroup
  | 4 => some endGroup
  | 5 => some fixed32
  | _ => none

def FieldType.wireType : FieldType → WireType
  | .int32 | .int64 | .uint32 | .uint64 | .sint32 | .sint64 | .bool | .enum => .varint
  | .fixed64 | .sfixed64 | .double => .fixed64
  | .fixed32 | .sfixed32 | .float => .fixed32
  | .string | .bytes | .message => .lengthDelimited
  | .group => .startGroup

namespace Wire

/-- A number in base 128, all bytes but the last marked, in at most `count` bytes. -/
def base128 : (count n : Nat) → Bytes
  | 0, _ => []
  | count + 1, n =>
    if n < 128 then [n.toUInt8] else (n % 128 + 128).toUInt8 :: base128 count (n / 128)

def varint (v : UInt64) : Bytes := base128 10 v.toNat

def key (field : UInt32) (type : WireType) : Bytes :=
  varint (field.toNat * 8 + type.number).toUInt64

def littleEndian : Nat → Nat → Bytes
  | 0, _ => []
  | count + 1, n => (n % 256).toUInt8 :: littleEndian count (n / 256)

def word32 (v : UInt32) : Bytes := littleEndian 4 v.toNat

def word64 (v : UInt64) : Bytes := littleEndian 8 v.toNat

def ofLittleEndian : Bytes → Nat
  | [] => 0
  | b :: bs => b.toNat + 256 * ofLittleEndian bs

def zigzag32 (v : Int32) : UInt32 := ((v <<< 1) ^^^ (v >>> 31)).toUInt32

def zigzag64 (v : Int64) : UInt64 := ((v <<< 1) ^^^ (v >>> 63)).toUInt64

def unzigzag32 (v : UInt32) : Int32 := (v >>> 1).toInt32 ^^^ -(v &&& 1).toInt32

def unzigzag64 (v : UInt64) : Int64 := (v >>> 1).toInt64 ^^^ -(v &&& 1).toInt64

def signExtended (v : Int32) : UInt64 := v.toInt64.toUInt64

def block (field : UInt32) (content : Bytes) : Bytes :=
  key field .lengthDelimited ++ varint content.length.toUInt64 ++ content

end Wire

end ProtobufSchema

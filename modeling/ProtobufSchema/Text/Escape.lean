import ProtobufSchema.Text.Numeral
import ProtobufSchema.Text.Printable
import ProtobufSchema.Text.Utf8

/-! Byte strings in the notation of the schema language, and texts for display, where hidden
characters are written by number. -/

namespace ProtobufSchema

namespace Escape

def byte (b : UInt8) : List Char :=
  if b = 0x0A then ['\\', 'n']
  else if b = 0x0D then ['\\', 'r']
  else if b = 0x09 then ['\\', 't']
  else if b = 0x22 then ['\\', '"']
  else if b = 0x27 then ['\\', '\'']
  else if b = 0x5C then ['\\', '\\']
  else if 0x20 ≤ b && b ≤ 0x7E then [Char.ofNat b.toNat]
  else '\\' :: Numeral.padded 8 3 b.toNat

/-- A byte string in the notation of a string literal, without the quotes around it. -/
def bytes (bs : Bytes) : String := String.ofList (bs.flatMap byte)

def displayed (c : Char) : List Char :=
  if c = '\x00' then ['\\', '0']
  else if c = '\t' then ['\\', 't']
  else if c = '\r' then ['\\', 'r']
  else if c = '\n' then ['\\', 'n']
  else if c = '\\' then ['\\', '\\']
  else if c = '"' then ['\\', '"']
  else if Printable.isHidden c then
    ['\\', 'u', '{'] ++ Numeral.digits 16 c.toNat ++ ['}']
  else [c]

def quoted (s : String) : String :=
  String.ofList ('"' :: s.toList.flatMap displayed ++ ['"'])

end Escape

end ProtobufSchema

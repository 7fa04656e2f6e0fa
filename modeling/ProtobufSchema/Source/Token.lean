import ProtobufSchema.Ieee.Format
import ProtobufSchema.Source.Span
import ProtobufSchema.Text.Numeral
import ProtobufSchema.Text.Utf8

/-!
Tokens of schema text and of text format, and what can be wrong with such a text. A fault becomes an
error by the place it was found at.
-/

namespace ProtobufSchema

inductive Token where
  | name (word : String)
  | integer (value : UInt64) (text : String)
  | decimal (value : Double) (text : String)
  | string (content : Bytes)
  | symbol (c : Char)
  | endOfInput
  deriving DecidableEq, Repr

def Token.describe : Token → String
  | name word => "'" ++ word ++ "'"
  | integer _ text | decimal _ text => "'" ++ text ++ "'"
  | string _ => "string literal"
  | symbol c => "'" ++ c.toString ++ "'"
  | endOfInput => "end of input"

inductive SyntaxFault where
  | unterminatedComment
  | unterminatedString
  | unterminatedAggregate
  | exponentWithoutDigits
  | numberRunsIntoName
  | invalidHexadecimal (text : String)
  | invalidDecimal (text : String)
  | integerLiteral (text : String)
  | hexEscapeWithoutDigits
  | unicodeEscapeWithoutDigits
  | invalidUnicodeEscape (codePoint : Nat)
  | invalidEscape (byte : UInt8)
  | unexpectedCharacter (byte : UInt8)
  | expected (wanted : String) (found : Token)
  | unknownDialect (name : String)
  | dialectNotFirst
  | secondPackage
  | requiredInProto3
  | groupInProto3
  | groupNotCapitalized
  | invalidMapKey (type : String)
  | labelInOneof
  | fieldNumber (value : UInt64)
  | integerOutOfRange (value : Int)
  | unknownExtension (name : String)
  | foreignExtension (name type : String)
  | unknownMessageType (name : String)
  | unknownField (type name : String)
  | untypedField (name : String)
  | fieldValue (field reason : String)
  deriving DecidableEq, Repr

def SyntaxFault.shown (b : UInt8) : String := (Char.ofNat b.toNat).toString

def SyntaxFault.message : SyntaxFault → String
  | unterminatedComment => "unterminated block comment"
  | unterminatedString => "unterminated string literal"
  | unterminatedAggregate => "unterminated aggregate value"
  | exponentWithoutDigits => "expected exponent digits"
  | numberRunsIntoName => "need space between number and identifier"
  | invalidHexadecimal text => "invalid hex integer '" ++ text ++ "'"
  | invalidDecimal text => "invalid float '" ++ text ++ "'"
  | integerLiteral text => "integer out of range '" ++ text ++ "'"
  | hexEscapeWithoutDigits => "expected hex digits for escape sequence"
  | unicodeEscapeWithoutDigits => "expected hex digits for unicode escape"
  | invalidUnicodeEscape codePoint =>
    "invalid unicode escape " ++ String.ofList (Numeral.digits 16 codePoint)
  | invalidEscape byte => "invalid escape sequence '\\" ++ shown byte ++ "'"
  | unexpectedCharacter byte => "unexpected character '" ++ shown byte ++ "'"
  | expected wanted found => "expected " ++ wanted ++ ", found " ++ found.describe
  | unknownDialect name => "unrecognized syntax identifier \"" ++ name ++ "\""
  | dialectNotFirst => "syntax statement must be the first statement in the file"
  | secondPackage => "multiple package definitions"
  | requiredInProto3 => "required fields are not allowed in proto3"
  | groupInProto3 => "groups are not supported in proto3"
  | groupNotCapitalized => "group names must start with a capital letter"
  | invalidMapKey type => "'" ++ type ++ "' is not a valid map key type"
  | labelInOneof => "fields in oneofs must not have labels"
  | fieldNumber value => s!"field number {value} out of range 1 to 536870911"
  | integerOutOfRange value => s!"integer out of range: {value}"
  | unknownExtension name => "unknown extension \"" ++ name ++ "\""
  | foreignExtension name type => "extension \"" ++ name ++ "\" does not extend \"" ++ type ++ "\""
  | unknownMessageType name => "unknown message type \"" ++ name ++ "\""
  | unknownField type name =>
    "message type \"" ++ type ++ "\" has no field named \"" ++ name ++ "\""
  | untypedField name => "field \"" ++ name ++ "\" has no resolved type"
  | fieldValue field reason => "field \"" ++ field ++ "\": " ++ reason

structure SyntaxError where
  span : Span
  fault : SyntaxFault
  deriving DecidableEq, Repr

def SyntaxError.message (e : SyntaxError) : String :=
  s!"syntax error at line {e.span.line}, column {e.span.column}: " ++ e.fault.message

structure LocatedToken where
  token : Token
  span : Span
  comment? : Option String
  deriving DecidableEq, Repr

end ProtobufSchema

import ProtobufSchema.Source.Cursor
import ProtobufSchema.Tree.Basic

/-!
The grammar of schemas. Every statement and every member of a declaration takes at least one token,
and so does every brace, so that fuel for each byte that is left never runs out.
-/

namespace ProtobufSchema

namespace Tree

namespace Grammar

open Parse

def isMapKey (type : String) : Bool :=
  match FieldType.ofKeyword? type with
  | none | some .double | some .float | some .bytes => false
  | some _ => true

/-- The next token is a keyword, and the one after it the given symbol. -/
def secondIs (c : Char) : Parse Bool := ahead do
  let _ ← token
  return (← token).token == .symbol c

/-- A keyword here begins a declaration: a name and a brace follow. Otherwise it is a type name. -/
def isDeclaration : Parse Bool := ahead do
  let _ ← token
  fun c =>
    match reference c with
    | .error _ c' => .ok false c'
    | .ok _ c' => (return (← token).token == .symbol '{' : Parse Bool) c'

def fieldNumber : Parse Int32 := do
  let span := (← peek).span
  let value ← expectInteger
  if value = 0 || value > 536870911 then fail span (.fieldNumber value)
  return value.toUInt32.toInt32

def int32Of (span : Span) (value : Int) : Parse Int32 :=
  if Int32.minValue.toInt ≤ value ∧ value ≤ Int32.maxValue.toInt then return .ofInt value
  else fail span (.integerOutOfRange value)

def signedInt32 : Parse Int32 := do
  let span := (← peek).span
  let negative ← eatSymbol '-'
  let magnitude := (← expectInteger).toNat
  int32Of span (if negative then -magnitude else magnitude)

inductive RangeKind where
  | fieldNumbers
  | enumNumbers
  deriving DecidableEq, Repr

def RangeKind.max : RangeKind → Int32
  | fieldNumbers => maxFieldNumber
  | enumNumbers => Int32.maxValue

def lowerBound (kind : RangeKind) : Parse Int32 := do
  match kind with
  | .enumNumbers => signedInt32
  | .fieldNumbers =>
    let span := (← peek).span
    int32Of span (← expectInteger).toNat

def upperBound (kind : RangeKind) : Parse Int32 := do
  if ← eatName "max" then return kind.max
  lowerBound kind

def range (kind : RangeKind) : Parse (Int32 × Int32) := do
  let first ← lowerBound kind
  let last ← if ← eatName "to" then upperBound kind else pure first
  return (first, last)

def ranges (kind : RangeKind) : Parse (List (Int32 × Int32)) := fueled (separated (range kind) ',')

def constant : Parse Constant := do
  let t ← token
  match t.token with
  | .symbol '{' => return .aggregate (← bracedText)
  | .symbol '-' => signed true
  | .symbol '+' => signed false
  | .integer value text => return .integer false value text
  | .decimal value text => return .decimal value text
  | .name word => return .identifier (word ++ (← fueled moreSegments))
  | .string content => return .string (content ++ (← fueled moreStrings))
  | _ => unexpected t "constant"
where
  signed (negative : Bool) : Parse Constant := do
    let t ← token
    let sign := if negative then "-" else ""
    let number (x : Double) : Double := if negative then x.neg else x
    match t.token with
    | .integer value text => return .integer negative value (sign ++ text)
    | .decimal value text => return .decimal (number value) (sign ++ text)
    | .name "inf" => return .decimal (number .infinity) (sign ++ "inf")
    | .name "nan" => return .decimal (number .nan) (sign ++ "nan")
    | _ => unexpected t "number after sign"

def namePart : Parse NamePart := do
  if ← eatSymbol '(' then
    let name ← reference
    expectSymbol ')'
    return ⟨name, true⟩
  return ⟨← expectName, false⟩

def assignment : Parse Assignment := do
  let span := (← peek).span
  let name ← fueled (separated namePart '.')
  expectSymbol '='
  return ⟨name, ← constant, span⟩

def optionStatement : Parse Assignment := do
  let _ ← token
  let a ← assignment
  expectSymbol ';'
  return a

def bracketOptions : Parse (List Assignment) := do
  if ← eatSymbol '[' then
    let options ← fueled (separated assignment ',')
    expectSymbol ']'
    return options
  return []

def extensions : Parse Extensions := do
  let start ← token
  let ranges ← ranges .fieldNumbers
  let options ← bracketOptions
  expectSymbol ';'
  return ⟨ranges, options, start.span⟩

def reservedName : Parse String := return Utf8.decodeLossy (← expectString)

def reserved (kind : RangeKind) : Parse Reserved := do
  let start ← token
  let r : Reserved ←
    match (← peek).token with
    | .string _ => pure ⟨[], ← fueled (separated reservedName ','), start.span⟩
    | _ => pure ⟨← ranges kind, [], start.span⟩
  expectSymbol ';'
  return r

def map : Parse MapField := do
  let start ← token
  expectSymbol '<'
  let keySpan := (← peek).span
  let keyType ← expectName
  if !isMapKey keyType then fail keySpan (.invalidMapKey keyType)
  expectSymbol ','
  let valueType ← reference
  expectSymbol '>'
  let name ← expectName
  expectSymbol '='
  let number ← fieldNumber
  let options ← bracketOptions
  expectSymbol ';'
  return ⟨keyType, valueType, name, number, options, start.span, start.comment?⟩

def label : Parse (Option Label) := do
  match (← peek).token with
  | .name word =>
    match Label.ofKeyword? word with
    | some l => do
      let _ ← token
      return some l
    | none => return none
  | _ => return none

/-- The members up to the closing brace, read one by one; empty statements count for nothing. -/
def membersWith {α : Type} (member : LocatedToken → Parse α) : Nat → Parse (List α)
  | 0 => exhausted
  | fuel + 1 => do
    let t ← peek
    match t.token with
    | .symbol '}' => do
      let _ ← token
      return []
    | .symbol ';' => do
      let _ ← token
      membersWith member fuel
    | _ => do
      let m ← member t
      return m :: (← membersWith member fuel)

def enumValue : Parse EnumValue := do
  let start ← token
  match start.token with
  | .name name => do
    expectSymbol '='
    let number ← signedInt32
    let options ← bracketOptions
    expectSymbol ';'
    return ⟨name, number, options, start.span, start.comment?⟩
  | _ => unexpected start "enum value name"

def enumMember (t : LocatedToken) : Parse EnumMember := do
  match t.token with
  | .name "option" => do
    if ← secondIs '=' then return .value (← enumValue)
    return .option (← optionStatement)
  | .name "reserved" => do
    if ← secondIs '=' then return .value (← enumValue)
    return .reserved (← reserved .enumNumbers)
  | .name _ => return .value (← enumValue)
  | _ => unexpected t "enum value"

def enum : Parse Enum := do
  let start ← token
  let name ← expectName
  expectSymbol '{'
  let members ← fueled (membersWith enumMember)
  return ⟨name, members, start.span, start.comment?⟩

/-- The type of a method's input or output, and whether there is a stream of it. -/
def methodType : Parse (Bool × String) := do
  expectSymbol '('
  let streaming ←
    if (← peek).token = .name "stream" then
      if ← secondIs ')' then pure false
      else do
        let _ ← token
        pure true
    else pure false
  let type ← reference
  expectSymbol ')'
  return (streaming, type)

def methodOption (t : LocatedToken) : Parse Assignment :=
  match t.token with
  | .name "option" => optionStatement
  | _ => unexpected t r"'option' or '}'"

def method : Parse Method := do
  let start ← token
  let name ← expectName
  let (clientStreaming, inputType) ← methodType
  expectKeyword "returns"
  let (serverStreaming, outputType) ← methodType
  let options ←
    if ← eatSymbol '{' then do
      let options ← fueled (membersWith methodOption)
      let _ ← eatSymbol ';'
      pure options
    else do
      expectSymbol ';'
      pure []
  return ⟨name, inputType, clientStreaming, outputType, serverStreaming, options, start.span,
    start.comment?⟩

def serviceMember (t : LocatedToken) : Parse ServiceMember := do
  match t.token with
  | .name "option" => return .option (← optionStatement)
  | .name "rpc" => return .method (← method)
  | _ => unexpected t "'rpc' or 'option'"

def service : Parse Service := do
  let start ← token
  let name ← expectName
  expectSymbol '{'
  let members ← fueled (membersWith serviceMember)
  return ⟨name, members, start.span, start.comment?⟩

def field (label? : Option Label) (start : LocatedToken) : Parse Field := do
  let typeName ← reference
  let name ← expectName
  expectSymbol '='
  let number ← fieldNumber
  let options ← bracketOptions
  expectSymbol ';'
  return ⟨label?, typeName, name, number, options, start.span, start.comment?⟩

/-- The label of a field that may have one; in the older dialect it must. -/
def fieldLabel (dialect : Dialect) (start : LocatedToken) : Parse (Option Label) := do
  let label? ← label
  match dialect, label? with
  | .proto2, none => do
    let t ← peek
    unexpected t "'required', 'optional', or 'repeated'"
  | .proto3, some .required => fail start.span .requiredInProto3
  | _, _ => return label?

def groupHead (dialect : Dialect) (start : LocatedToken) :
    Parse (String × Int32 × List Assignment) := do
  if dialect = .proto3 then fail start.span .groupInProto3
  let _ ← token
  let nameSpan := (← peek).span
  let name ← expectName
  if !name.toList.head?.any Char.isUpper then fail nameSpan .groupNotCapitalized
  expectSymbol '='
  let number ← fieldNumber
  let options ← bracketOptions
  expectSymbol '{'
  return (name, number, options)

def messageHead : Parse (LocatedToken × String) := do
  let start ← token
  let name ← expectName
  expectSymbol '{'
  return (start, name)

/-- The keywords that begin a member of a message and could also be type names. -/
inductive MemberKind where
  | message
  | enum
  | extend
  | oneof
  | option
  | extensions
  | reserved
  | map
  | field
  deriving DecidableEq, Repr

def memberKind (t : LocatedToken) : Parse MemberKind := do
  match t.token with
  | .name "message" => declared .message
  | .name "enum" => declared .enum
  | .name "extend" => declared .extend
  | .name "oneof" => declared .oneof
  | .name "option" => return .option
  | .name "extensions" => return .extensions
  | .name "reserved" => return .reserved
  | .name "map" => return if ← secondIs '<' then .map else .field
  | .name _ => return .field
  | .symbol '.' => return .field
  | .endOfInput => unexpected t r"'}'"
  | _ => unexpected t "message member"
where
  declared (kind : MemberKind) : Parse MemberKind :=
    return if ← isDeclaration then kind else .field

/-- A field or a group after its label, given how the members of a message are read. -/
def afterLabel (dialect : Dialect) (body : Parse (List Member)) (start : LocatedToken)
    (label? : Option Label) : Parse FieldMember := do
  if (← peek).token = .name "group" then
    let (name, number, options) ← groupHead dialect start
    let members ← body
    return .group ⟨label?, name, number, options, members, start.span, start.comment?⟩
  else return .field (← field label? start)

/-- A field or a group; in a oneof it has no label. -/
def fieldMember (dialect : Dialect) (body : Parse (List Member)) (labelled : Bool) :
    Parse FieldMember := do
  let start ← peek
  afterLabel dialect body start (← if labelled then fieldLabel dialect start else pure none)

def oneofMember (dialect : Dialect) (body : Parse (List Member)) (t : LocatedToken) :
    Parse OneofMember := do
  match t.token with
  | .name "option" => return .option (← optionStatement)
  | .name word =>
    if (Label.ofKeyword? word).isSome then fail t.span .labelInOneof
    else return .field (← fieldMember dialect body false)
  | .symbol '.' => return .field (← fieldMember dialect body false)
  | _ => unexpected t "oneof member"

def oneof (dialect : Dialect) (body : Parse (List Member)) : Parse Oneof := do
  let (start, name) ← messageHead
  let members ← fueled (membersWith (oneofMember dialect body))
  return ⟨name, members, start.span⟩

def extendMember (dialect : Dialect) (body : Parse (List Member)) (t : LocatedToken) :
    Parse FieldMember :=
  match t.token with
  | .name _ | .symbol '.' => fieldMember dialect body true
  | _ => unexpected t "extension field"

def extend (dialect : Dialect) (body : Parse (List Member)) : Parse Extend := do
  let start ← token
  let extendee ← reference
  expectSymbol '{'
  let fields ← fueled (membersWith (extendMember dialect body))
  return ⟨extendee, fields, start.span⟩

def message (body : Parse (List Member)) : Parse Message := do
  let (start, name) ← messageHead
  let members ← body
  return ⟨name, members, start.span, start.comment?⟩

def memberOf (dialect : Dialect) (body : Parse (List Member)) : MemberKind → Parse Member
  | .message => return .message (← message body)
  | .enum => return .enum (← enum)
  | .extend => return .extend (← extend dialect body)
  | .oneof => return .oneof (← oneof dialect body)
  | .option => return .option (← optionStatement)
  | .extensions => return .extensions (← extensions)
  | .reserved => return .reserved (← reserved .fieldNumbers)
  | .map => return .map (← map)
  | .field => return .field (← fieldMember dialect body true)

def member (dialect : Dialect) (body : Parse (List Member)) (t : LocatedToken) : Parse Member := do
  memberOf dialect body (← memberKind t)

/-- The members of a message up to its closing brace, with messages inside each other at most
`depth` deep. -/
def messageBody (dialect : Dialect) : (depth : Nat) → Parse (List Member)
  | 0 => exhausted
  | depth + 1 => fueled (membersWith (member dialect (messageBody dialect depth)))

def dialectStatement : Parse (Option Dialect) := do
  if ← eatName "syntax" then
    expectSymbol '='
    let t ← token
    match t.token with
    | .string content => do
      let name := Utf8.decodeLossy content
      match Dialect.ofName? name with
      | none => fail t.span (.unknownDialect name)
      | some dialect => do
        expectSymbol ';'
        return some dialect
    | _ => unexpected t "syntax string"
  else return none

def importKind : Parse ImportKind := do
  if ← eatName "public" then return .isPublic
  if ← eatName "weak" then return .weak
  return .plain

def statement (file : File) (t : LocatedToken) : Parse File := do
  let body := fueled (messageBody file.dialect)
  match t.token with
  | .symbol ';' => do
    let _ ← token
    return file
  | .name "package" => do
    let _ ← token
    if file.package?.isSome then fail t.span .secondPackage
    let name ← dottedName
    expectSymbol ';'
    return { file with package? := some ⟨name, t.span⟩ }
  | .name "import" => do
    let _ ← token
    let kind ← importKind
    let path ← expectString
    expectSymbol ';'
    return { file with imports := file.imports ++ [⟨Utf8.decodeLossy path, kind, t.span⟩] }
  | .name "option" => do
    let a ← optionStatement
    return { file with options := file.options ++ [a] }
  | .name "message" => do
    let m ← message body
    return { file with items := file.items ++ [.message m] }
  | .name "enum" => do
    let e ← enum
    return { file with items := file.items ++ [.enum e] }
  | .name "service" => do
    let s ← service
    return { file with items := file.items ++ [.service s] }
  | .name "extend" => do
    let e ← extend file.dialect body
    return { file with items := file.items ++ [.extend e] }
  | .name "syntax" => fail t.span .dialectNotFirst
  | _ => unexpected t "top-level statement"

def statements (file : File) : Nat → Parse File
  | 0 => exhausted
  | fuel + 1 => do
    let t ← peek
    if t.token = .endOfInput then return file
    statements (← statement file t) fuel

def file : Parse File := do
  let dialect? ← dialectStatement
  fueled (statements { dialect := dialect?.getD .proto2, isExplicit := dialect?.isSome })

end Grammar

def File.parse (text : String) : Except SyntaxError File :=
  match Grammar.file (.ofText text) with
  | .ok file _ => .ok file
  | .error e _ => .error e

end Tree

end ProtobufSchema

import ProtobufSchema.Tree.Grammar

/-! A tree is printed as words with one space between any two. A bare tree is one without places and
comments. -/

namespace ProtobufSchema

def Name.words (name : String) : List String :=
  ((Name.segments name).intersperse ".").filter (· ≠ "")

def Escape.literal (content : Bytes) : String := "\"" ++ Escape.bytes content ++ "\""

def Span.nowhere : Span := ⟨0, 0⟩

namespace Tree

/-- The words of the elements of a list, with a comma between any two. -/
def listed (xs : List (List String)) : List String := [","].intercalate xs

def numberWord (n : Int32) : String := Numeral.signed n.toInt

def labelWords (label? : Option Label) : List String := label?.toList.map Label.name

/-- The words for infinity and not-a-number are constants of their own, so that a number has a
sign before them. -/
def Constant.words : Constant → List String
  | identifier name => Name.words name
  | integer _ _ text => [text]
  | decimal _ text => [if text = "inf" ∨ text = "nan" then "+" ++ text else text]
  | string content => [Escape.literal content]
  | aggregate text => [r"{", text, r"}"]

def partWords (part : NamePart) : List String :=
  if part.isExtension then "(" :: Name.words part.name ++ [")"] else [part.name]

def Assignment.words (a : Assignment) : List String :=
  ["."].intercalate (a.name.map partWords) ++ "=" :: a.value.words

def Assignment.bare (a : Assignment) : Assignment := { a with span := .nowhere }

def optionWords (a : Assignment) : List String := "option" :: a.words ++ [";"]

def bracketWords (options : List Assignment) : List String :=
  if options = [] then [] else "[" :: listed (options.map Assignment.words) ++ ["]"]

def rangeWords (ranges : List (Int32 × Int32)) : List String :=
  listed (ranges.map fun (first, last) => [numberWord first, "to", numberWord last])

def Package.words (p : Package) : List String := "package" :: Name.words p.name ++ [";"]

def Package.bare (p : Package) : Package := { p with span := .nowhere }

namespace Import

def kindWords : ImportKind → List String
  | .plain => []
  | .isPublic => ["public"]
  | .weak => ["weak"]

def words (i : Import) : List String :=
  "import" :: kindWords i.kind ++ [Escape.literal (Utf8.encode i.path), ";"]

def bare (i : Import) : Import := { i with span := .nowhere }

end Import

def Field.words (f : Field) : List String :=
  labelWords f.label? ++ Name.words f.typeName ++ f.name :: "=" :: numberWord f.number ::
    bracketWords f.options ++ [";"]

def Field.bare (f : Field) : Field :=
  { f with options := f.options.map Assignment.bare, span := .nowhere, comment? := none }

def MapField.words (m : MapField) : List String :=
  "map" :: "<" :: m.keyType :: "," :: Name.words m.valueType ++ ">" :: m.name :: "=" ::
    numberWord m.number :: bracketWords m.options ++ [";"]

def MapField.bare (m : MapField) : MapField :=
  { m with options := m.options.map Assignment.bare, span := .nowhere, comment? := none }

def Extensions.words (e : Extensions) : List String :=
  "extensions" :: rangeWords e.ranges ++ bracketWords e.options ++ [";"]

def Extensions.bare (e : Extensions) : Extensions :=
  { e with options := e.options.map Assignment.bare, span := .nowhere }

def Reserved.words (r : Reserved) : List String :=
  "reserved" :: (if r.names = [] then rangeWords r.ranges
    else listed (r.names.map fun name => [Escape.literal (Utf8.encode name)])) ++ [";"]

def Reserved.bare (r : Reserved) : Reserved := { r with span := .nowhere }

def EnumValue.words (v : EnumValue) : List String :=
  v.name :: "=" :: numberWord v.number :: bracketWords v.options ++ [";"]

def EnumValue.bare (v : EnumValue) : EnumValue :=
  { v with options := v.options.map Assignment.bare, span := .nowhere, comment? := none }

def EnumMember.words : EnumMember → List String
  | value v => v.words
  | option a => optionWords a
  | reserved r => r.words

def EnumMember.bare : EnumMember → EnumMember
  | value v => value v.bare
  | option a => option a.bare
  | reserved r => reserved r.bare

def Enum.words (e : Enum) : List String :=
  "enum" :: e.name :: r"{" :: e.members.flatMap EnumMember.words ++ [r"}"]

def Enum.bare (e : Enum) : Enum :=
  { e with members := e.members.map EnumMember.bare, span := .nowhere, comment? := none }

namespace Method

def typeWords (streaming : Bool) (type : String) : List String :=
  "(" :: (if streaming then ["stream"] else []) ++ Name.words type ++ [")"]

def words (m : Method) : List String :=
  "rpc" :: m.name :: typeWords m.clientStreaming m.inputType ++ "returns" ::
    typeWords m.serverStreaming m.outputType ++
    (if m.options = [] then [";"] else r"{" :: m.options.flatMap optionWords ++ [r"}"])

def bare (m : Method) : Method :=
  { m with options := m.options.map Assignment.bare, span := .nowhere, comment? := none }

end Method

def ServiceMember.words : ServiceMember → List String
  | method m => m.words
  | option a => optionWords a

def ServiceMember.bare : ServiceMember → ServiceMember
  | method m => method m.bare
  | option a => option a.bare

def Service.words (s : Service) : List String :=
  "service" :: s.name :: r"{" :: s.members.flatMap ServiceMember.words ++ [r"}"]

def Service.bare (s : Service) : Service :=
  { s with members := s.members.map ServiceMember.bare, span := .nowhere, comment? := none }

mutual

def FieldMember.words : FieldMember → List String
  | .field f => f.words
  | .group ⟨label?, name, number, options, members, _, _⟩ =>
    labelWords label? ++ "group" :: name :: "=" :: numberWord number :: bracketWords options ++
      r"{" :: Member.listWords members ++ [r"}"]

def FieldMember.listWords : List FieldMember → List String
  | [] => []
  | f :: fs => f.words ++ FieldMember.listWords fs

def OneofMember.words : OneofMember → List String
  | .field f => f.words
  | .option a => optionWords a

def OneofMember.listWords : List OneofMember → List String
  | [] => []
  | m :: ms => m.words ++ OneofMember.listWords ms

def Oneof.words : Oneof → List String
  | ⟨name, members, _⟩ => "oneof" :: name :: r"{" :: OneofMember.listWords members ++ [r"}"]

def Extend.words : Extend → List String
  | ⟨extendee, fields, _⟩ =>
    "extend" :: Name.words extendee ++ r"{" :: FieldMember.listWords fields ++ [r"}"]

def Message.words : Message → List String
  | ⟨name, members, _, _⟩ => "message" :: name :: r"{" :: Member.listWords members ++ [r"}"]

def Member.words : Member → List String
  | .field f => f.words
  | .map m => m.words
  | .oneof o => o.words
  | .message m => m.words
  | .enum e => e.words
  | .extend e => e.words
  | .extensions e => e.words
  | .reserved r => r.words
  | .option a => optionWords a

def Member.listWords : List Member → List String
  | [] => []
  | m :: ms => m.words ++ Member.listWords ms

end

mutual

def FieldMember.bare : FieldMember → FieldMember
  | .field f => .field f.bare
  | .group ⟨label?, name, number, options, members, _, _⟩ =>
    .group ⟨label?, name, number, options.map Assignment.bare, Member.bareList members,
      .nowhere, none⟩

def FieldMember.bareList : List FieldMember → List FieldMember
  | [] => []
  | f :: fs => f.bare :: FieldMember.bareList fs

def OneofMember.bare : OneofMember → OneofMember
  | .field f => .field f.bare
  | .option a => .option a.bare

def OneofMember.bareList : List OneofMember → List OneofMember
  | [] => []
  | m :: ms => m.bare :: OneofMember.bareList ms

def Oneof.bare : Oneof → Oneof
  | ⟨name, members, _⟩ => ⟨name, OneofMember.bareList members, .nowhere⟩

def Extend.bare : Extend → Extend
  | ⟨extendee, fields, _⟩ => ⟨extendee, FieldMember.bareList fields, .nowhere⟩

def Message.bare : Message → Message
  | ⟨name, members, _, _⟩ => ⟨name, Member.bareList members, .nowhere, none⟩

def Member.bare : Member → Member
  | .field f => .field f.bare
  | .map m => .map m.bare
  | .oneof o => .oneof o.bare
  | .message m => .message m.bare
  | .enum e => .enum e.bare
  | .extend e => .extend e.bare
  | .extensions e => .extensions e.bare
  | .reserved r => .reserved r.bare
  | .option a => .option a.bare

def Member.bareList : List Member → List Member
  | [] => []
  | m :: ms => m.bare :: Member.bareList ms

end

def Item.words : Item → List String
  | message m => m.words
  | enum e => e.words
  | service s => s.words
  | extend e => e.words

def Item.bare : Item → Item
  | message m => message m.bare
  | enum e => enum e.bare
  | service s => service s.bare
  | extend e => extend e.bare

namespace File

def dialectWords (f : File) : List String :=
  if f.isExplicit then ["syntax", "=", Escape.literal (Utf8.encode f.dialect.name), ";"] else []

def words (f : File) : List String :=
  f.dialectWords ++ f.package?.toList.flatMap Package.words ++ f.imports.flatMap Import.words ++
    f.options.flatMap optionWords ++ f.items.flatMap Item.words

def print (f : File) : String := " ".intercalate f.words

def bare (f : File) : File :=
  { f with
    package? := f.package?.map Package.bare
    imports := f.imports.map Import.bare
    options := f.options.map Assignment.bare
    items := f.items.map Item.bare }

end File

end Tree

end ProtobufSchema

import ProtobufSchema.Proofs.ReadWords

/-! Trees as they can stand in a text, which is all that a printer may rely on. -/

namespace ProtobufSchema

open Scan

namespace Tree

open Grammar (RangeKind)

def specialNumbers : List (String × Double) := [("inf", .infinity), ("nan", .nan)]

inductive Constant.IsWritten : Constant → Prop
  | identifier {name : String} (h : IsDotted name) : IsWritten (.identifier name)
  | integer {value : UInt64} {text : String} (h : Spells text (.integer value text)) :
    IsWritten (.integer false value text)
  | negative {value : UInt64} {text : String} (h : Spells text (.integer value text)) :
    IsWritten (.integer true value ("-" ++ text))
  | decimal {value : Double} {text : String} (h : Spells text (.decimal value text)) :
    IsWritten (.decimal value text)
  | negativeDecimal {value : Double} {text : String} (h : Spells text (.decimal value text)) :
    IsWritten (.decimal value.neg ("-" ++ text))
  | special {value : Double} {text : String} (h : (text, value) ∈ specialNumbers) :
    IsWritten (.decimal value text)
  | negativeSpecial {value : Double} {text : String} (h : (text, value) ∈ specialNumbers) :
    IsWritten (.decimal value.neg ("-" ++ text))
  | string (content : Bytes) : IsWritten (.string content)
  | aggregate {text : String} (h : IsEnclosed text) : IsWritten (.aggregate text)

def IsPart (part : NamePart) : Prop :=
  if part.isExtension then IsReference part.name else IsWord part.name

structure Assignment.IsWritten (a : Assignment) : Prop where
  name_ne_nil : a.name ≠ []
  parts : ∀ part ∈ a.name, IsPart part
  value : a.value.IsWritten

def IsFieldNumber (n : Int32) : Prop := 1 ≤ n.toInt ∧ n.toInt ≤ 536870911

def IsBound : RangeKind → Int32 → Prop
  | .fieldNumbers, n => 0 ≤ n.toInt
  | .enumNumbers, _ => True

structure AreRanges (kind : RangeKind) (ranges : List (Int32 × Int32)) : Prop where
  ne_nil : ranges ≠ []
  bounds : ∀ r ∈ ranges, IsBound kind r.1 ∧ IsBound kind r.2

structure Field.IsWritten (f : Field) : Prop where
  type : IsReference f.typeName
  name : IsWord f.name
  number : IsFieldNumber f.number
  options : ∀ a ∈ f.options, a.IsWritten

structure MapField.IsWritten (m : MapField) : Prop where
  key : IsWord m.keyType
  isMapKey : Grammar.isMapKey m.keyType = true
  type : IsReference m.valueType
  name : IsWord m.name
  number : IsFieldNumber m.number
  options : ∀ a ∈ m.options, a.IsWritten

structure Extensions.IsWritten (e : Extensions) : Prop where
  ranges : AreRanges .fieldNumbers e.ranges
  options : ∀ a ∈ e.options, a.IsWritten

def Reserved.IsWritten (kind : RangeKind) (r : Reserved) : Prop :=
  (r.names ≠ [] ∧ r.ranges = []) ∨ (r.names = [] ∧ AreRanges kind r.ranges)

structure EnumValue.IsWritten (v : EnumValue) : Prop where
  name : IsWord v.name
  options : ∀ a ∈ v.options, a.IsWritten

inductive EnumMember.IsWritten : EnumMember → Prop
  | value {v : EnumValue} (h : v.IsWritten) : IsWritten (.value v)
  | option {a : Assignment} (h : a.IsWritten) : IsWritten (.option a)
  | reserved {r : Reserved} (h : r.IsWritten .enumNumbers) : IsWritten (.reserved r)

structure Enum.IsWritten (e : Enum) : Prop where
  name : IsWord e.name
  members : ∀ m ∈ e.members, m.IsWritten

def firstWord? (type : String) : Option String := (Name.words type).head?

/-- A type whose name begins with the word for a stream, but goes on, is taken for a stream of a
fully qualified type. -/
structure Method.IsType (streaming : Bool) (type : String) : Prop where
  reference : IsReference type
  plain : streaming = false → firstWord? type = some "stream" → type = "stream"

structure Method.IsWritten (m : Method) : Prop where
  name : IsWord m.name
  input : IsType m.clientStreaming m.inputType
  output : IsType m.serverStreaming m.outputType
  options : ∀ a ∈ m.options, a.IsWritten

inductive ServiceMember.IsWritten : ServiceMember → Prop
  | method {m : Method} (h : m.IsWritten) : IsWritten (.method m)
  | option {a : Assignment} (h : a.IsWritten) : IsWritten (.option a)

structure Service.IsWritten (s : Service) : Prop where
  name : IsWord s.name
  members : ∀ m ∈ s.members, m.IsWritten

inductive FieldPlace where
  | message
  | extend
  | oneof

namespace FieldPlace

/-- The words that begin something other than a field there. -/
def taken : FieldPlace → List String
  | message => ["option", "extensions", "reserved"]
  | extend => []
  | oneof => ["option"]

def isLabelled : FieldPlace → Bool
  | message | extend => true
  | oneof => false

def Allows (dialect : Dialect) : FieldPlace → Option Label → Prop
  | oneof, label? => label? = none
  | message, label? | extend, label? =>
    match dialect with
    | .proto2 => label? ≠ none
    | .proto3 => label? ≠ some .required

end FieldPlace

structure IsFieldType (place : FieldPlace) (label? : Option Label) (type : String) : Prop where
  group : firstWord? type ≠ some "group"
  label : label? = none → ∀ w ∈ firstWord? type, Label.ofKeyword? w = none
  taken : label? = none → ∀ w ∈ firstWord? type, w ∉ place.taken

mutual

inductive FieldMember.IsWritten (dialect : Dialect) : FieldPlace → FieldMember → Prop
  | field {place : FieldPlace} {f : Field} (hlabel : place.Allows dialect f.label?)
    (htype : IsFieldType place f.label? f.typeName) (h : f.IsWritten) :
    FieldMember.IsWritten dialect place (.field f)
  | group {place : FieldPlace} {g : Group} (hdialect : dialect = .proto2)
    (hlabel : place.Allows dialect g.label?) (hname : IsWord g.name)
    (hupper : g.name.toList.head?.any Char.isUpper = true) (hnumber : IsFieldNumber g.number)
    (hoptions : ∀ a ∈ g.options, a.IsWritten)
      (hmembers : ∀ m ∈ g.members, Member.IsWritten dialect m) :
    FieldMember.IsWritten dialect place (.group g)

inductive Member.IsWritten (dialect : Dialect) : Member → Prop
  | field {f : FieldMember} (h : f.IsWritten dialect .message) : Member.IsWritten dialect (.field f)
  | map {m : MapField} (h : m.IsWritten) : Member.IsWritten dialect (.map m)
  | oneof {o : Oneof} (hname : IsWord o.name)
    (hfields : ∀ f, .field f ∈ o.members → FieldMember.IsWritten dialect .oneof f)
    (hoptions : ∀ a, .option a ∈ o.members → a.IsWritten) : Member.IsWritten dialect (.oneof o)
  | message {m : Message} (hname : IsWord m.name)
    (hmembers : ∀ x ∈ m.members, Member.IsWritten dialect x) : Member.IsWritten dialect (.message m)
  | enum {e : Enum} (h : e.IsWritten) : Member.IsWritten dialect (.enum e)
  | extend {e : Extend} (hextendee : IsReference e.extendee)
    (hfields : ∀ f ∈ e.fields, FieldMember.IsWritten dialect .extend f) :
    Member.IsWritten dialect (.extend e)
  | extensions {e : Extensions} (h : e.IsWritten) : Member.IsWritten dialect (.extensions e)
  | reserved {r : Reserved} (h : r.IsWritten .fieldNumbers) : Member.IsWritten dialect (.reserved r)
  | option {a : Assignment} (h : a.IsWritten) : Member.IsWritten dialect (.option a)

end

inductive Item.IsWritten (dialect : Dialect) : Item → Prop
  | message {m : Message} (hname : IsWord m.name)
    (hmembers : ∀ x ∈ m.members, x.IsWritten dialect) : IsWritten dialect (.message m)
  | enum {e : Enum} (h : e.IsWritten) : IsWritten dialect (.enum e)
  | service {s : Service} (h : s.IsWritten) : IsWritten dialect (.service s)
  | extend {e : Extend} (hextendee : IsReference e.extendee)
    (hfields : ∀ f ∈ e.fields, f.IsWritten dialect .extend) : IsWritten dialect (.extend e)

structure File.IsWritten (f : File) : Prop where
  dialect : f.isExplicit = false → f.dialect = .proto2
  package : ∀ p ∈ f.package?, IsDotted p.name
  options : ∀ a ∈ f.options, a.IsWritten
  items : ∀ item ∈ f.items, item.IsWritten f.dialect

end Tree

end ProtobufSchema

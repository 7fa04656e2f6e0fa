import ProtobufSchema.Assembly.Walk

/-! What declarations come to, read off the tree: a declaration adds children to the element around
it, of each kind in the order of the text. -/

namespace ProtobufSchema

open Name (join)

/-- Options in which further assignments wait. Without any, there need be no options. -/
def Options.awaiting (kind : OptionsKind) (options : Option Options) (raws : List RawOption) :
    Option Options :=
  if raws = [] then options
  else
    let o := options.getD (.empty kind)
    some { o with uninterpreted := o.uninterpreted ++ raws }

/-- The children that declarations add to the element around them. -/
structure Contents where
  fields : List FieldDescriptor := []
  extensions : List FieldDescriptor := []
  messages : List MessageDescriptor := []
  enums : List EnumDescriptor := []
  ranges : List ExtensionRange := []
  oneofs : List OneofDescriptor := []
  services : List ServiceDescriptor := []
  values : List EnumValueDescriptor := []
  methods : List MethodDescriptor := []
  raws : List RawOption := []
  reservedRanges : List ReservedRange := []
  reservedNames : List String := []

namespace Contents

instance : Append Contents where
  append c d :=
    { fields := c.fields ++ d.fields
      extensions := c.extensions ++ d.extensions
      messages := c.messages ++ d.messages
      enums := c.enums ++ d.enums
      ranges := c.ranges ++ d.ranges
      oneofs := c.oneofs ++ d.oneofs
      services := c.services ++ d.services
      values := c.values ++ d.values
      methods := c.methods ++ d.methods
      raws := c.raws ++ d.raws
      reservedRanges := c.reservedRanges ++ d.reservedRanges
      reservedNames := c.reservedNames ++ d.reservedNames }

def all {α : Type} (contents : α → Contents) : List α → Contents
  | [] => {}
  | x :: xs => contents x ++ all contents xs

end Contents

def Block.isExtend : Block → Bool
  | extend _ => true
  | oneof _ => false

def FieldDescriptor.inBlock (block? : Option Block) (x : FieldDescriptor) : FieldDescriptor :=
  match block? with
  | some (.extend extendee) => { x with extendee? := some extendee }
  | some (.oneof index) => { x with oneofIndex? := some (.ofNat index) }
  | none => x

def Contents.ofField (block? : Option Block) (x : FieldDescriptor) : Contents :=
  if block?.any Block.isExtend then { extensions := [x] } else { fields := [x] }

/-- Each explicitly optional field gets a oneof of its own, behind those that were written. -/
def MessageDescriptor.withOptionalOneofs (m : MessageDescriptor) : MessageDescriptor :=
  let (fields, oneofs) := Assembly.addOptionalOneofs (Assembly.namesInUse m) m.oneofs m.fields
  { m with fields := fields, oneofs := oneofs }

def Contents.message (c : Contents) (name : String) : MessageDescriptor :=
  MessageDescriptor.withOptionalOneofs {
    name? := some name
    fields := c.fields
    extensions := c.extensions
    nestedTypes := c.messages
    enumTypes := c.enums
    extensionRanges := c.ranges
    oneofs := c.oneofs
    options := Options.awaiting .message none c.raws
    reservedRanges := c.reservedRanges
    reservedNames := c.reservedNames }

namespace Tree

/-! ### Options -/

/-- An assignment as it waits to be interpreted, under its name. A number that is too small for one
waits without a value. -/
def Assignment.awaited (a : Assignment) : RawOption :=
  a.raw.toOption.getD { name := a.name, span := some a.span }

def waiting (options : List Assignment) : List RawOption := options.map Assignment.awaited

def jsonNameOf? (options : List Assignment) : Option String :=
  options.findSome? fun a =>
    match a.simpleName?, a.value with
    | some "json_name", .string content => some (Utf8.decodeLossy content)
    | _, _ => none

def defaultOf? (options : List Assignment) : Option Constant :=
  options.findSome? fun a => if a.simpleName? = some "default" then some a.value else none

/-- The JSON name and the default value are stored in a field itself. -/
def storing (options : List Assignment) (x : FieldDescriptor) : FieldDescriptor :=
  { x with
    jsonName? := (jsonNameOf? options).or x.jsonName?
    defaultValue? := ((defaultOf? options).map (·.defaultText x.type?)).or x.defaultValue? }

def withOptions (options : List Assignment) (x : FieldDescriptor) : FieldDescriptor :=
  { storing options x with
    options := Options.awaiting .field x.options (waiting (options.filter (!Assembly.isStored ·))) }

/-! ### Fields -/

def ownJsonName? (block? : Option Block) (name : String) : Option String :=
  if block?.any Block.isExtend then none else some (Name.jsonName name)

def Field.descriptor (dialect : Dialect) (block? : Option Block) (f : Field) : FieldDescriptor :=
  let scalar? := FieldType.ofKeyword? f.typeName
  let isOptional := dialect == .proto3 && f.label? == some .optional && !block?.any Block.isExtend
  (withOptions f.options {
    name? := some f.name
    number? := some f.number
    label? := some (f.label?.getD .optional)
    type? := scalar?
    typeName? := if scalar?.isNone then some f.typeName else none
    proto3Optional? := if isOptional then some true else none
    jsonName? := ownJsonName? block? f.name }).inBlock block?

def groupFieldName (name : String) : String := String.ofList (name.toList.map Char.toLower)

def groupField (scope : String) (block? : Option Block) (label? : Option Label) (name : String)
    (number : Int32) (options : List Assignment) : FieldDescriptor :=
  (withOptions options {
    name? := some (groupFieldName name)
    number? := some number
    label? := some (label?.getD .optional)
    type? := some .group
    typeName? := some (Name.qualify (join scope name))
    jsonName? := ownJsonName? block? (groupFieldName name) }).inBlock block?

def MapField.descriptor (scope : String) (m : MapField) : FieldDescriptor :=
  withOptions m.options {
    name? := some m.name
    number? := some m.number
    label? := some .repeated
    type? := some .message
    typeName? := some (Name.qualify (join scope (Name.mapEntryName m.name)))
    jsonName? := some (Name.jsonName m.name) }

/-! ### Other declarations -/

def EnumValue.descriptor (v : EnumValue) : EnumValueDescriptor where
  name? := some v.name
  number? := some v.number
  options := Options.awaiting .enumValue none (waiting v.options)

def EnumMember.contents : EnumMember → Contents
  | .value v => { values := [v.descriptor] }
  | .option a => { raws := waiting [a] }
  | .reserved r =>
    { reservedRanges := r.ranges.map fun (first, last) => ⟨some first, some last⟩
      reservedNames := r.names }

def Enum.descriptor (e : Enum) : EnumDescriptor :=
  let c := Contents.all EnumMember.contents e.members
  { name? := some e.name
    values := c.values
    options := Options.awaiting .enum none c.raws
    reservedRanges := c.reservedRanges
    reservedNames := c.reservedNames }

def Method.descriptor (m : Method) : MethodDescriptor where
  name? := some m.name
  inputType? := some m.inputType
  outputType? := some m.outputType
  options := Options.awaiting .method none (waiting m.options)
  clientStreaming? := if m.clientStreaming then some true else none
  serverStreaming? := if m.serverStreaming then some true else none

def ServiceMember.contents : ServiceMember → Contents
  | .method m => { methods := [m.descriptor] }
  | .option a => { raws := waiting [a] }

def Service.descriptor (s : Service) : ServiceDescriptor :=
  let c := Contents.all ServiceMember.contents s.members
  { name? := some s.name
    methods := c.methods
    options := Options.awaiting .service none c.raws }

/-- Ranges are written with their last number, and held with the one after it. -/
def rangeOf (options : List Assignment) (bounds : Int32 × Int32) : ExtensionRange where
  start? := some bounds.1
  stop? := some (bounds.2 + 1)
  options := Options.awaiting .extensionRange none (waiting options)

def Extensions.descriptors (x : Extensions) : List ExtensionRange :=
  x.ranges.map (rangeOf x.options)

def Reserved.descriptors (r : Reserved) : List ReservedRange :=
  r.ranges.map fun (first, last) =>
    ⟨some (NumberRange.ofBounds first last).start, some (NumberRange.ofBounds first last).stop⟩

def oneofOf (name : String) (raws : List RawOption) : OneofDescriptor where
  name? := some name
  options := Options.awaiting .oneof none raws

def OneofMember.raws : OneofMember → List RawOption
  | .field _ => []
  | .option a => waiting [a]

mutual

def FieldMember.contents (dialect : Dialect) (scope : String) (block? : Option Block) :
    FieldMember → Contents
  | .field f => .ofField block? (f.descriptor dialect block?)
  | .group ⟨label?, name, number, options, members, _, _⟩ =>
    .ofField block? (groupField scope block? label? name number options) ++
      { messages := [(Member.contentsFrom dialect (join scope name) 0 members).message name] }

def FieldMember.contentsOf (dialect : Dialect) (scope : String) (block? : Option Block) :
    List FieldMember → Contents
  | [] => {}
  | f :: fs => f.contents dialect scope block? ++ FieldMember.contentsOf dialect scope block? fs

def OneofMember.contentsOf (dialect : Dialect) (scope : String) (index : Nat) :
    List OneofMember → Contents
  | [] => {}
  | .field f :: ms =>
    f.contents dialect scope (some (.oneof index)) ++ OneofMember.contentsOf dialect scope index ms
  | .option _ :: ms => OneofMember.contentsOf dialect scope index ms

def Member.contents (dialect : Dialect) (scope : String) (oneofs : Nat) : Member → Contents
  | .field f => f.contents dialect scope none
  | .map m => { fields := [m.descriptor scope], messages := [Assembly.mapEntry m] }
  | .oneof ⟨name, members, _⟩ =>
    { oneofs := [oneofOf name (members.flatMap OneofMember.raws)] } ++
      OneofMember.contentsOf dialect scope oneofs members
  | .message ⟨name, members, _, _⟩ =>
    { messages := [(Member.contentsFrom dialect (join scope name) 0 members).message name] }
  | .enum e => { enums := [e.descriptor] }
  | .extend ⟨extendee, fields, _⟩ =>
    FieldMember.contentsOf dialect scope (some (.extend extendee)) fields
  | .extensions x => { ranges := x.descriptors }
  | .reserved r => { reservedRanges := r.descriptors, reservedNames := r.names }
  | .option a => { raws := waiting [a] }

/-- What members add to a message that has a number of oneofs before them. -/
def Member.contentsFrom (dialect : Dialect) (scope : String) (oneofs : Nat) : List Member → Contents
  | [] => {}
  | m :: ms =>
    let c := m.contents dialect scope oneofs
    c ++ Member.contentsFrom dialect scope (oneofs + c.oneofs.length) ms

end

def Message.descriptor (dialect : Dialect) (scope : String) (m : Message) : MessageDescriptor :=
  (Member.contentsFrom dialect (join scope m.name) 0 m.members).message m.name

def Extend.contents (dialect : Dialect) (scope : String) (x : Extend) : Contents :=
  FieldMember.contentsOf dialect scope (some (.extend x.extendee)) x.fields

def Item.contents (dialect : Dialect) (scope : String) : Item → Contents
  | .message m => { messages := [m.descriptor dialect scope] }
  | .enum e => { enums := [e.descriptor] }
  | .service s => { services := [s.descriptor] }
  | .extend x => x.contents dialect scope

/-- The descriptor of a file called `name` that says all that is written in the file, with names as
they are written. -/
def File.descriptor (tree : File) (name : String) : FileDescriptor :=
  let header := Assembly.header name tree
  let c := Contents.all (Item.contents tree.dialect header.package) tree.items
  { header with
    messageTypes := c.messages
    enumTypes := c.enums
    services := c.services
    extensions := c.extensions
    options := Options.awaiting .file none (waiting tree.options) }

end Tree

end ProtobufSchema

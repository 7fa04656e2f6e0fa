import ProtobufSchema.Assembly.Basic

/-! Assembling the descriptor of a file from its declarations, in one walk. Names of types are
resolved when all symbols of the file are known. -/

namespace ProtobufSchema

namespace Assembly

open ProtobufSchema.Tree

/-- The extendee of a field in an extend block is a reference of that field. -/
def referExtendee (context : FieldContext) (span : Span) (path : Path) : Assemble Unit :=
  match context with
  | .extend extendee => refer extendee .extendee path span
  | .message | .oneof => return

def walkField (f : Field) (context : FieldContext) : Assemble Unit := do
  if !(← claimField f.name f.number f.span context) then return
  let scalar? := FieldType.ofKeyword? f.typeName
  let isOptional := (← get).dialect == .proto3 && f.label? == some .optional && !context.isExtend
  let field : FieldDescriptor := {
    name? := some f.name
    number? := some f.number
    label? := some (f.label?.getD .optional)
    type? := scalar?
    typeName? := if scalar?.isNone then some f.typeName else none
    proto3Optional? := if isOptional then some true else none
    jsonName? := if context.isExtend then none else some (Name.jsonName f.name) }
  addField field f.options f.span f.comment? fun path => do
    if scalar?.isNone then refer f.typeName .fieldType path f.span
    referExtendee context f.span path

def mapEntry (m : MapField) : MessageDescriptor :=
  let value? := FieldType.ofKeyword? m.valueType
  let options : Options :=
    { OptionsKind.message |> Options.empty with
      message := (Message.empty OptionsKind.message.typeName).set 7 .bool (.bool true) }
  { name? := some (Name.mapEntryName m.name)
    fields := [
      { name? := some "key", number? := some 1, label? := some .optional
        type? := FieldType.ofKeyword? m.keyType, jsonName? := some "key" },
      { name? := some "value", number? := some 2, label? := some .optional, type? := value?
        typeName? := if value?.isNone then some m.valueType else none, jsonName? := some "value" }]
    options := some options }

def mapField (m : MapField) (entry : String) : FieldDescriptor :=
  { name? := some m.name
    number? := some m.number
    label? := some .repeated
    type? := some .message
    typeName? := some (Name.qualify entry)
    jsonName? := some (Name.jsonName m.name) }

/-- A map field is a repeated field of a message type made for its entries. -/
def walkMap (m : MapField) : Assemble Unit := do
  if !(← claimField m.name m.number m.span .message) then return
  match ← declare (Name.mapEntryName m.name) .message m.span with
  | none => releaseField m.name m.number .message
  | some node => do
    let entryPath ← openElement (.message (mapEntry m)) m.span none
    close
    if (FieldType.ofKeyword? m.valueType).isNone then
      refer m.valueType .fieldType (entryPath ++ [Tag.messageField.step, 1]) m.span
    let field := mapField m ((← get).symbols.fullName node)
    addField field m.options m.span m.comment? fun _ => return

def walkExtensionRange (x : Extensions) (first last : Int32) : Assemble Unit := do
  let range := NumberRange.ofBounds first last
  match (← get).claims.ranges.insert range with
  | .ok ranges => do
    modify fun a => { a with claims := { a.claims with ranges := ranges } }
    let element : ExtensionRange := { start? := some range.start, stop? := some range.stop }
    let _ ← openElement (.extensionRange element) x.span none
    let _ ← addOptions [] x.options
    close
  | .error (.invalid reason) => report .invalidExtensionRange x.span reason.message
  | .error (.overlap existing) =>
    report .overlappingExtensionRange x.span
      (s!"extension range {first.toInt} to {last.toInt} overlaps with already-defined range " ++
        s!"{existing.start.toInt} to {existing.last}")
  | .error (.overflow e) => throw (.overflow e)

def modifyMessage (f : MessageDescriptor → MessageDescriptor) : Assemble Unit := do
  match (← get).stack.current? with
  | some (.message m) =>
    modify fun a => { a with stack := a.stack.modifyOwner fun _ => .message (f m) }
  | _ => throw (.invalidScope "message body" "non-message")

def walkReserved (r : Reserved) : Assemble Unit := do
  let ranges := r.ranges.map fun (first, last) => NumberRange.ofBounds first last
  modifyMessage fun m =>
    { m with
      reservedRanges := m.reservedRanges ++ ranges.map fun x => ⟨some x.start, some x.stop⟩
      reservedNames := m.reservedNames ++ r.names }
  modify fun a =>
    { a with claims :=
        { a.claims with
          reservedRanges := a.claims.reservedRanges ++ ranges
          reservedNames := a.claims.reservedNames ++ r.names } }

structure EnumClaims where
  seen : List String
  values : List ClaimedField
  reservedRanges : List (Int32 × Int32)
  reservedNames : List String

def walkEnumValue (scope : Nat) (v : EnumValue) : Assemble Bool := do
  if !(← takeName scope v.name v.span) then return false
  let element : EnumValueDescriptor := { name? := some v.name, number? := some v.number }
  let _ ← openElement (.enumValue element) v.span v.comment?
  let _ ← addOptions [] v.options
  close
  return true

def walkEnumMember (scope : Nat) (c : EnumClaims) (m : EnumMember) : Assemble EnumClaims := do
  match m with
  | .value v =>
    if ← walkEnumValue scope v then
      return { c with values := c.values ++ [⟨v.name, v.number, v.span⟩] }
    return c
  | .option a => return { c with seen := ← addOption c.seen a }
  | .reserved r =>
    match (← get).stack.current? with
    | some (.enum e) => do
      let ranges := r.ranges.map fun (first, last) => (⟨some first, some last⟩ : ReservedRange)
      let changed : EnumDescriptor :=
        { e with
          reservedRanges := e.reservedRanges ++ ranges
          reservedNames := e.reservedNames ++ r.names }
      modify fun a => { a with stack := a.stack.modifyOwner fun _ => .enum changed }
      return { c with
        reservedRanges := c.reservedRanges ++ r.ranges
        reservedNames := c.reservedNames ++ r.names }
    | _ => throw (.invalidScope "reserved" "non-enum")

/-- Reports a field or value, called by its kind, whose number or name is reserved. -/
def checkReserved (kind : String) (f : ClaimedField) (number name : Bool) : Assemble Unit := do
  if number then
    report .reservedNumber f.span
      (kind ++ " \"" ++ f.name ++ s!"\" uses reserved number {f.number.toInt}")
  if name then
    report .reservedName f.span (kind ++ " name \"" ++ f.name ++ "\" is reserved")

def checkEnumValue (c : EnumClaims) (v : ClaimedField) : Assemble Unit :=
  checkReserved "enum value" v
    (c.reservedRanges.any fun (first, last) => first ≤ v.number && v.number ≤ last)
    (c.reservedNames.contains v.name)

def walkEnum (e : Enum) : Assemble Unit := do
  let scope := (← get).scope
  if (← declare e.name .enum e.span).isNone then return
  let _ ← openElement (.enum { name? := some e.name }) e.span e.comment?
  let claims ← e.members.foldlM (walkEnumMember scope) ⟨[], [], [], []⟩
  claims.values.forM (checkEnumValue claims)
  close

def walkMethod (node : Nat) (m : Method) : Assemble Unit := do
  if !(← takeName node m.name m.span) then return
  let element : MethodDescriptor := {
    name? := some m.name
    inputType? := some m.inputType
    outputType? := some m.outputType
    clientStreaming? := if m.clientStreaming then some true else none
    serverStreaming? := if m.serverStreaming then some true else none }
  let path ← openElement (.method element) m.span m.comment?
  refer m.inputType .methodInput path m.span
  refer m.outputType .methodOutput path m.span
  let _ ← addOptions [] m.options
  close

def walkServiceMember (node : Nat) (seen : List String) : ServiceMember → Assemble (List String)
  | .option a => addOption seen a
  | .method m => do
    walkMethod node m
    return seen

def within (node : Nat) (body : Assemble Unit) : Assemble Unit := do
  let outer := (← get).scope
  modify fun a => { a with scope := node }
  body
  modify fun a => { a with scope := outer }

def walkService (s : Service) : Assemble Unit := do
  match ← declare s.name .service s.span with
  | none => return
  | some node => do
    let _ ← openElement (.service { name? := some s.name }) s.span s.comment?
    within node do
      let _ ← s.members.foldlM (walkServiceMember node) []
    close

def checkField (c : Claims) (f : ClaimedField) : Assemble Unit := do
  match c.ranges.rangeOf? f.number with
  | some r =>
    report .fieldInExtensionRange f.span
      ("field \"" ++ f.name ++ s!"\" uses number {f.number.toInt} which is inside extension " ++
        s!"range {r.start.toInt} to {r.last}")
  | none => pure ()
  checkReserved "field" f (c.reservedRanges.any (·.contains f.number))
    (c.reservedNames.contains f.name)

/-- A name with as many letters X in front as it takes to be new; there are at most as many names in
use as are given. -/
def freshName (used : List String) : Nat → String → String
  | 0, name => name
  | fuel + 1, name => if used.contains name then freshName used fuel ("X" ++ name) else name

def namesInUse (m : MessageDescriptor) : List String :=
  m.fields.map (·.name) ++ m.nestedTypes.map (·.name) ++ m.oneofs.filterMap (·.name?)

/-- Gives each field of a list that is explicitly optional a oneof of its own. -/
def addOptionalOneofs (used : List String) (oneofs : List OneofDescriptor) :
    List FieldDescriptor → List FieldDescriptor × List OneofDescriptor
  | [] => ([], oneofs)
  | f :: fs =>
    if f.proto3Optional? = some true then
      let name := freshName used used.length ("_" ++ f.name)
      let f := { f with oneofIndex? := some (.ofNat oneofs.length) }
      let (fs, oneofs) := addOptionalOneofs (name :: used) (oneofs ++ [{ name? := some name }]) fs
      (f :: fs, oneofs)
    else
      let (fs, oneofs) := addOptionalOneofs used oneofs fs
      (f :: fs, oneofs)

/-- The checks that need a whole message, and the oneofs of its explicitly optional fields. -/
def finishMessage : Assemble Unit := do
  let claims := (← get).claims
  claims.fields.forM (checkField claims)
  modifyMessage fun m =>
    let (fields, oneofs) := addOptionalOneofs (namesInUse m) m.oneofs m.fields
    { m with fields := fields, oneofs := oneofs }

def messageBody (node : Nat) (name : String) (span : Span) (comment? : Option String)
    (members : Assemble Unit) : Assemble Unit := do
  let _ ← openElement (.message { name? := some name }) span comment?
  let outer := (← get).claims
  modify fun a => { a with claims := .empty }
  within node do
    members
    finishMessage
  modify fun a => { a with claims := outer }
  close

/-- Declares a group by what declares its members: a field and a message type. -/
def groupWith (label? : Option Label) (name : String) (number : Int32) (options : List Assignment)
    (span : Span) (comment? : Option String) (context : FieldContext) (members : Assemble Unit) :
    Assemble Unit := do
  let fieldName := String.ofList (name.toList.map Char.toLower)
  if !(← claimField fieldName number span context) then return
  match ← declare name .message span with
  | none => releaseField fieldName number context
  | some node => do
    let field : FieldDescriptor := {
      name? := some fieldName
      number? := some number
      label? := some (label?.getD .optional)
      type? := some .group
      typeName? := some (Name.qualify ((← get).symbols.fullName node))
      jsonName? := if context.isExtend then none else some (Name.jsonName fieldName) }
    addField field options span comment? (referExtendee context span)
    messageBody node name span none members

def walkMessageOption (a : Assignment) : Assemble Unit := do
  let seen ← addOption (← get).claims.optionNames a
  modify fun s => { s with claims := { s.claims with optionNames := seen } }

def oneofWith (name : String) (span : Span) (members : Assemble Unit) : Assemble Unit := do
  if !(← takeName (← get).scope name span) then return
  onStack fun s => (s.openOneof { name? := some name }).map (·.1)
  recordLocation (← get).stack.path span none
  members
  close

def extendWith (extendee : String) (span : Span) (fields : Assemble Unit) : Assemble Unit := do
  onStack (·.openExtend extendee)
  recordLocation (← get).stack.path span none
  fields
  close

def messageWith (name : String) (span : Span) (comment? : Option String) (members : Assemble Unit) :
    Assemble Unit := do
  match ← declare name .message span with
  | none => return
  | some node => messageBody node name span comment? members

mutual

def walkFieldMember (context : FieldContext) : FieldMember → Assemble Unit
  | .field f => walkField f context
  | .group ⟨label?, name, number, options, members, span, comment?⟩ =>
    groupWith label? name number options span comment? context (walkMembers members)

def walkFieldMembers (context : FieldContext) : List FieldMember → Assemble Unit
  | [] => return
  | f :: fs => do
    walkFieldMember context f
    walkFieldMembers context fs

def walkOneofMembers (seen : List String) : List OneofMember → Assemble Unit
  | [] => return
  | .field f :: ms => do
    walkFieldMember .oneof f
    walkOneofMembers seen ms
  | .option a :: ms => do
    let seen ← addOption seen a
    walkOneofMembers seen ms

def walkExtend : Extend → Assemble Unit
  | ⟨extendee, fields, span⟩ =>
    extendWith extendee span (walkFieldMembers (.extend extendee) fields)

def walkMessage : Tree.Message → Assemble Unit
  | ⟨name, members, span, comment?⟩ => messageWith name span comment? (walkMembers members)

def walkMember : Member → Assemble Unit
  | .field f => walkFieldMember .message f
  | .map m => walkMap m
  | .oneof ⟨name, members, span⟩ => oneofWith name span (walkOneofMembers [] members)
  | .message m => walkMessage m
  | .enum e => walkEnum e
  | .extend x => walkExtend x
  | .extensions x => x.ranges.forM fun (first, last) => walkExtensionRange x first last
  | .reserved r => walkReserved r
  | .option a => walkMessageOption a

def walkMembers : List Member → Assemble Unit
  | [] => return
  | m :: ms => do
    walkMember m
    walkMembers ms

end

def walkItem : Item → Assemble Unit
  | .message m => walkMessage m
  | .enum e => walkEnum e
  | .service s => walkService s
  | .extend x => walkExtend x

def recordImport (position : Nat) (i : Import) : Assemble Unit :=
  recordLocation [Tag.fileDependency.step, .ofNat position] i.span none

def walkFile (tree : File) : Assemble Unit := do
  match tree.package? with
  | some p => recordLocation [Tag.filePackage.step] p.span none
  | none => pure ()
  tree.imports.zipIdx.forM fun (i, position) => recordImport position i
  let _ ← addOptions [] tree.options
  tree.items.forM walkItem

def positions (kind : ImportKind) (imports : List Import) : List Int32 :=
  imports.zipIdx.filterMap fun (i, position) =>
    if i.kind = kind then some (.ofNat position) else none

def header (name : String) (tree : File) : FileDescriptor :=
  { name? := some name
    package? := tree.package?.map (·.name)
    dependencies := tree.imports.map (·.path)
    publicDependencies := positions .isPublic tree.imports
    weakDependencies := positions .weak tree.imports
    dialect? := if tree.dialect = .proto3 then some tree.dialect.name else none }

def initial (name : String) (tree : File) (log : Log) : Assembly :=
  let symbols := SymbolTable.ofPackage ((tree.package?.map (·.name)).getD "")
  { fileName := name
    dialect := tree.dialect
    symbols := symbols
    scope := symbols.package
    stack := .ofFile (header name tree)
    taken := []
    claims := .empty
    references := []
    log := log
    locations := .empty }

end Assembly

/-- An assembled file, with the references that its own symbols do not answer. -/
structure Assembled where
  file : FileDescriptor
  unresolved : List Reference
  symbols : SymbolTable
  locations : Locations
  deriving BEq, Repr

def Tree.File.assemble (tree : File) (name : String) : Reporting BuildError Assembled := fun log =>
  match Assembly.walkFile tree (Assembly.initial name tree log) with
  | .error e a => .error e a.log
  | .ok () a =>
    match a.stack.finish with
    | .error e => .error e a.log
    | .ok file =>
      let (file, unresolved) := Reference.resolveAll a.symbols file a.references
      .ok ⟨file, unresolved, a.symbols, a.locations⟩ a.log

end ProtobufSchema

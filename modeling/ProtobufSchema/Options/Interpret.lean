import ProtobufSchema.Diagnostic
import ProtobufSchema.Message.Decode
import ProtobufSchema.Message.Encode
import ProtobufSchema.Options.TextFormat
import ProtobufSchema.Pool
import ProtobufSchema.Scope

/-! Interpreting option assignments. The name of an assignment is followed through the options type,
and its value is stored at the end. Options that used an extension are written and read again. -/

namespace ProtobufSchema

inductive OptionNameError where
  | unknownExtension (name : String)
  | foreignExtension (name fullName extendee : String)
  | unknownField (name type : String)
  | atomic (option : String)
  | unknownType (name : String)
  deriving DecidableEq, Repr

def OptionNameError.message : OptionNameError → String
  | unknownExtension name => "option \"(" ++ name ++ ")\" unknown"
  | foreignExtension name fullName extendee =>
    "option \"(" ++ name ++ ")\": \"" ++ fullName ++ "\" does not extend \"" ++ extendee ++ "\""
  | unknownField name type => "option \"" ++ name ++ "\" unknown in \"" ++ type ++ "\""
  | atomic option => "option \"" ++ option ++ "\" is an atomic type, not a message"
  | unknownType name => "unknown message type \"" ++ name ++ "\""

structure OptionResolver where
  pool : Pool
  registry : Registry
  asExtensions : Bool
  file : String

structure OptionSegment where
  field : FieldDescriptor
  isExtension : Bool

namespace OptionResolver

def segment (r : OptionResolver) (scope : String) (type : MessageDescriptor) (typeName : String)
    (part : NamePart) : Except OptionNameError FieldDescriptor :=
  if part.isExtension then
    match r.pool.resolveExtension? part.name scope with
    | none => .error (.unknownExtension part.name)
    | some (fullName, f) =>
      if f.extendee = typeName then .ok f
      else .error (.foreignExtension part.name fullName typeName)
  else
    match type.fieldNamed? part.name with
    | none => .error (.unknownField part.name typeName)
    | some f => .ok f

/-- The fields that the segments of a name lead through. All but the last are single messages. -/
def segments (r : OptionResolver) (option scope : String) (type : MessageDescriptor)
    (typeName : String) : List NamePart → Except OptionNameError (List OptionSegment)
  | [] => .ok []
  | [part] => do
    return [⟨← r.segment scope type typeName part, part.isExtension⟩]
  | part :: more => do
    let f ← r.segment scope type typeName part
    if !f.isMessage || f.isRepeated then throw (.atomic option)
    match r.pool.types.message? f.typeName with
    | none => throw (.unknownType f.typeName)
    | some inner =>
      return ⟨f, part.isExtension⟩ :: (← r.segments option scope inner f.typeName more)

def value (r : OptionResolver) (raw : RawOption) (last? : Option FieldDescriptor) :
    Except BuildError Value :=
  let refuse (reason : String) : Except BuildError Value :=
    .error (.optionValue raw.nameText reason)
  match last?, raw.aggregate with
  | none, _ => refuse "empty option name"
  | some f, some text =>
    if f.isMessage then
      match Message.parseText r.pool.types f.typeName text with
      | .ok m => .ok (.message m)
      | .error e => .error (.aggregate raw.nameText e.message)
    else refuse "aggregate value given for a non-message field"
  | some f, none =>
    match Literal.ofRaw? raw with
    | none => refuse "no value given"
    | some l =>
      match l.coerce f r.pool.types with
      | .ok v => .ok v
      | .error e => refuse e.message

end OptionResolver

/-- Stores a value at the end of a path of fields, through messages that begin empty. -/
def Message.storeAt (v : Value) : List OptionSegment → Message → Message
  | [], m => m
  | [last], m => last.field.store m v
  | outer :: more, m =>
    m.modifyMessage outer.field.number.toUInt32 (outer.field.type?.getD .message)
      outer.field.typeName (storeAt v more)

structure OptionState where
  options : Options
  log : Log
  deriving BEq, Repr

/-- A step of interpreting options; what was stored and reported before a failure stays. -/
abbrev Interpret := EStateM BuildError OptionState

namespace OptionResolver

def reserialize (r : OptionResolver) (o : Options) : Except BuildError Options :=
  match o.message.encode with
  | .error e => .error (.reserialize e.message)
  | .ok bytes =>
    let ctx : DecodeContext := ⟨r.pool.types, if r.asExtensions then some r.registry else none⟩
    match Message.decode ctx o.kind.typeName bytes with
    | .error e => .error (.reserialize e.message)
    | .ok m => .ok { o with message := m }

/-- Interprets one assignment. The answer is the fields it went through, or nothing if its name
leads nowhere. -/
def interpretOne (r : OptionResolver) (type : MessageDescriptor) (scope : String)
    (raw : RawOption) : Interpret (Option (List OptionSegment)) := do
  let typeName := (← get).options.kind.typeName
  match r.segments raw.nameText scope type typeName raw.name with
  | .error e => do
    let d := ((Diagnostic.violation .unresolvedOptionName e.message).located raw.span).inFile r.file
    modify fun s => { s with log := s.log.report d }
    return none
  | .ok path =>
    match r.value raw (path.getLast?.map (·.field)) with
    | .error e => throw e
    | .ok v => do
      modify fun s =>
        { s with options := { s.options with message := Message.storeAt v path s.options.message } }
      return some path

/-- Interprets assignments in order. The answer is whether any was stored, and whether any used an
extension. -/
def interpretEach (r : OptionResolver) (type : MessageDescriptor) (scope : String) :
    List RawOption → Interpret (Bool × Bool)
  | [] => return (false, false)
  | raw :: more => do
    let path? ← r.interpretOne type scope raw
    let (stored, extended) ← r.interpretEach type scope more
    return (path?.isSome || stored, path?.any (·.any (·.isExtension)) || extended)

def reread (r : OptionResolver) (extended : Bool) : Interpret Unit := do
  if extended then
    match r.reserialize (← get).options with
    | .error e => throw e
    | .ok o => modify fun s => { s with options := o }

/-- Interprets all assignments of some options, which belong to an element declared in a scope, and
answers whether any was stored. -/
def interpretAll (r : OptionResolver) (scope : String) : Interpret Bool := do
  let options := (← get).options
  if options.uninterpreted.isEmpty then return false
  match r.pool.types.message? options.kind.typeName with
  | none => throw (.unknownOptionsType options.kind.typeName)
  | some type => do
    modify fun s => { s with options := { options with uninterpreted := [] } }
    let (stored, extended) ← r.interpretEach type scope options.uninterpreted
    r.reread extended
    return stored

end OptionResolver

end ProtobufSchema

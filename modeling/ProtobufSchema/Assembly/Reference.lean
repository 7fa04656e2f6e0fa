import ProtobufSchema.Descriptor.Path
import ProtobufSchema.SymbolTable

/-!
References: names of types as they are written in a schema, each with the place in the descriptor
that its full name is for.
-/

namespace ProtobufSchema

inductive ReferenceKind where
  | fieldType
  | extendee
  | methodInput
  | methodOutput
  deriving DecidableEq, Repr

namespace ReferenceKind

def all : List ReferenceKind := [fieldType, extendee, methodInput, methodOutput]

def describe : ReferenceKind → String
  | fieldType => "type"
  | extendee => "extendee"
  | methodInput => "input type"
  | methodOutput => "output type"

/-- Fields have messages and enums for types; all other references are to messages. -/
def accepts : ReferenceKind → SymbolKind → Bool
  | fieldType, kind => kind.isType
  | _, kind => kind == .message

end ReferenceKind

structure Reference where
  /-- The name as written, with a dot in front if it is fully qualified. -/
  name : String
  scope : String
  scopeNode : Nat
  path : Path
  kind : ReferenceKind
  span? : Option Span
  deriving DecidableEq, Repr

def FieldDescriptor.withType (f : FieldDescriptor) (fullName : String) (kind : SymbolKind) :
    FieldDescriptor :=
  { f with
    typeName? := some (Name.qualify fullName)
    type? :=
      if f.type? = some .group then f.type?
      else some (if kind = .enum then .enum else .message) }

/-- Writes a full name where a reference stands; nothing if its path leads nowhere. -/
def Reference.write? (r : Reference) (file : FileDescriptor) (fullName : String)
    (kind : SymbolKind) : Option FileDescriptor :=
  match r.kind with
  | .fieldType => file.modifyFieldAt? r.path fun f => f.withType fullName kind
  | .extendee =>
    file.modifyFieldAt? r.path fun f => { f with extendee? := some (Name.qualify fullName) }
  | .methodInput =>
    file.modifyMethodAt? r.path fun m => { m with inputType? := some (Name.qualify fullName) }
  | .methodOutput =>
    file.modifyMethodAt? r.path fun m => { m with outputType? := some (Name.qualify fullName) }

/-- Resolves references among the symbols of their own file, and answers those that are left over.
-/
def Reference.resolveAll (symbols : SymbolTable) (file : FileDescriptor) :
    List Reference → FileDescriptor × List Reference
  | [] => (file, [])
  | r :: rs =>
    let (symbols, found) := symbols.resolve r.name r.scopeNode
    let changed := (found.filter fun s => r.kind.accepts s.kind).bind fun s =>
      r.write? file s.fullName s.kind
    match changed with
    | some file => resolveAll symbols file rs
    | none =>
      let (file, left) := resolveAll symbols file rs
      (file, r :: left)

end ProtobufSchema

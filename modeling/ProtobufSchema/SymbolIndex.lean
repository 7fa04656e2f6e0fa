import ProtobufSchema.Descriptor.Path
import ProtobufSchema.SymbolTable

/-!
What the full names of a file stand for. Packages come first, and a message comes after all that is
inside it; where a name is declared twice the first declaration counts.
-/

namespace ProtobufSchema

inductive Definition where
  | package
  | message (path : Path)
  | enum (path : Path)
  | service (path : Path)
  | extension (path : Path)
  deriving DecidableEq, Repr

def Definition.symbolKind? : Definition → Option SymbolKind
  | package => some .package
  | message _ => some .message
  | enum _ => some .enum
  | service _ => some .service
  | extension _ => none

def Definition.isExtension : Definition → Bool
  | extension _ => true
  | _ => false

structure SymbolIndex where
  entries : List (String × Definition)
  deriving DecidableEq, Repr

namespace SymbolIndex

def size (index : SymbolIndex) : Nat := index.entries.length

def isEmpty (index : SymbolIndex) : Bool := index.entries.isEmpty

def get? (index : SymbolIndex) (fullName : String) : Option Definition :=
  index.entries.lookup fullName

end SymbolIndex

def Definition.listed {α : Type} (scope : String) (path : Path) (tag : Tag)
    (define : Path → Definition) (name : α → String) (xs : List α) : List (String × Definition) :=
  xs.zipIdx.map fun (x, i) => (Name.join scope (name x), define (path ++ [tag.step, .ofNat i]))

mutual

/-- The names that a message brings, its own last. -/
def MessageDescriptor.definitions (scope : String) (path : Path) :
    MessageDescriptor → List (String × Definition)
  | ⟨name?, _, extensions, nestedTypes, enumTypes, _, _, _, _, _⟩ =>
    let full := Name.join scope (name?.getD "")
    MessageDescriptor.definitionsFrom full path .messageNested 0 nestedTypes ++
      Definition.listed full path .messageEnum .enum EnumDescriptor.name enumTypes ++
      Definition.listed full path .messageExtension .extension FieldDescriptor.name extensions ++
      [(full, .message path)]

def MessageDescriptor.definitionsFrom (scope : String) (path : Path) (tag : Tag) :
    Nat → List MessageDescriptor → List (String × Definition)
  | _, [] => []
  | i, m :: ms =>
    m.definitions scope (path ++ [tag.step, .ofNat i]) ++
      MessageDescriptor.definitionsFrom scope path tag (i + 1) ms

end

/-- The packages that a package name goes through, the outermost first. -/
def FileDescriptor.packagePrefixes (scope : String) : List String → List String
  | [] => []
  | segment :: more =>
    let full := Name.join scope segment
    full :: packagePrefixes full more

def FileDescriptor.definitions (f : FileDescriptor) : List (String × Definition) :=
  (packagePrefixes "" ((Name.segments f.package).filter (· ≠ ""))).map (fun p => (p, .package)) ++
    MessageDescriptor.definitionsFrom f.package [] .fileMessage 0 f.messageTypes ++
    Definition.listed f.package [] .fileEnum .enum EnumDescriptor.name f.enumTypes ++
    Definition.listed f.package [] .fileService .service ServiceDescriptor.name f.services ++
    Definition.listed f.package [] .fileExtension .extension FieldDescriptor.name f.extensions

def SymbolIndex.insert (index : SymbolIndex) (entry : String × Definition) : SymbolIndex :=
  if (index.get? entry.1).isSome then index else ⟨index.entries ++ [entry]⟩

def SymbolIndex.ofFile (f : FileDescriptor) : SymbolIndex := f.definitions.foldl insert ⟨[]⟩

namespace FileDescriptor

def messageOf? (f : FileDescriptor) : Definition → Option MessageDescriptor
  | .message path => f.messageAt? path
  | _ => none

def enumOf? (f : FileDescriptor) : Definition → Option EnumDescriptor
  | .enum path => f.enumAt? path
  | _ => none

def extensionOf? (f : FileDescriptor) : Definition → Option FieldDescriptor
  | .extension path => f.fieldAt? path
  | _ => none

end FileDescriptor

end ProtobufSchema

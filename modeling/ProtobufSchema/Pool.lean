import ProtobufSchema.LinkedFile

/-!
Pools: the names that one file can use. They are its own, those of the files it sees, and last
those of a file that stands behind all others.
-/

namespace ProtobufSchema

structure Pool where
  file : FileDescriptor
  index : SymbolIndex
  visible : List LinkedFile
  fallback? : Option LinkedFile

namespace Pool

def ofDependencies (file : FileDescriptor) (index : SymbolIndex) (dependencies : List LinkedFile) :
    Pool :=
  ⟨file, index, LinkedFile.visible dependencies, none⟩

def ofFile (f : LinkedFile) : Pool := ofDependencies f.proto f.index f.dependencies

def withFallback (p : Pool) (f : LinkedFile) : Pool :=
  if p.visible.any (·.name == f.name) then p else { p with fallback? := some f }

/-- The file that gives a full name its meaning here, and the meaning. -/
def lookup? (p : Pool) (fullName : String) : Option (FileDescriptor × Definition) :=
  match p.index.get? fullName with
  | some d => some (p.file, d)
  | none =>
    (p.visible ++ p.fallback?.toList).findSome? fun f =>
      (f.index.get? fullName).map fun d => (f.proto, d)

structure Found where
  fullName : String
  file : FileDescriptor
  definition : Definition

/-- Resolves a name as written in a scope: the closest scope where it denotes something acceptable
decides. -/
def resolveWith? (p : Pool) (name scope : String) (accept : Definition → Bool) : Option Found :=
  let accepted? (fullName : String) : Option Found :=
    ((p.lookup? fullName).filter fun (_, d) => accept d).map fun (file, d) => ⟨fullName, file, d⟩
  match Name.absolute? name with
  | some fullName => accepted? fullName
  | none => (Name.enclosing scope).findSome? fun s => accepted? (Name.join s name)

def resolve? (p : Pool) (name scope : String) : Option (String × SymbolKind) :=
  (p.resolveWith? name scope fun d => d.symbolKind?.any (· != .package)).bind fun found =>
    found.definition.symbolKind?.map fun kind => (found.fullName, kind)

def resolveExtension? (p : Pool) (name scope : String) : Option (String × FieldDescriptor) :=
  (p.resolveWith? name scope Definition.isExtension).bind fun found =>
    (found.file.extensionOf? found.definition).map fun f => (found.fullName, f)

/-- The visible file, other than the pool's own, that declares a name. -/
def definingFile? (p : Pool) (fullName : String) : Option String :=
  (p.visible.find? fun f => (f.index.get? fullName).isSome).map LinkedFile.name

def types (p : Pool) : TypeLookup where
  message? name := (p.lookup? name).bind fun (file, d) => file.messageOf? d
  enum? name := (p.lookup? name).bind fun (file, d) => file.enumOf? d
  extension? name := (p.lookup? name).bind fun (file, d) => file.extensionOf? d

end Pool

end ProtobufSchema

import ProtobufSchema.Registry
import ProtobufSchema.SymbolIndex

/-!
Finished files with the files they import. A file sees the files it imports and, through each of
them, what that one imports publicly.
-/

namespace ProtobufSchema

/-- A finished file. Its registry holds its own extensions and those of the files it sees. -/
structure LinkedFile where
  proto : FileDescriptor
  index : SymbolIndex
  dependencies : List LinkedFile
  registry : Registry

namespace LinkedFile

def name (f : LinkedFile) : String := f.proto.name

def package (f : LinkedFile) : String := f.proto.package

def dependency? (f : LinkedFile) (name : String) : Option LinkedFile :=
  f.dependencies.find? (·.name == name)

end LinkedFile

def FileDescriptor.publicDependencyNames (f : FileDescriptor) : List String :=
  f.publicDependencies.filterMap (Path.at? f.dependencies)

namespace LinkedFile

def publicDependencies (f : LinkedFile) : List LinkedFile :=
  f.proto.publicDependencyNames.filterMap f.dependency?

theorem sizeOf_lt_of_mem_publicDependencies {d f : LinkedFile} (h : d ∈ f.publicDependencies) :
    sizeOf d < sizeOf f := by
  simp only [publicDependencies, List.mem_filterMap] at h
  obtain ⟨_, _, hd⟩ := h
  have hmem : d ∈ f.dependencies := List.mem_of_find?_eq_some hd
  cases f with
  | mk proto index dependencies registry =>
    have := List.sizeOf_lt_of_mem hmem
    dsimp only at this
    simp only [mk.sizeOf_spec]
    omega

/-- Adds a file, and then what it imports publicly, to the files found before it. A name is found
only once. -/
def visit (found : List LinkedFile) (f : LinkedFile) : List LinkedFile :=
  if found.any (·.name == f.name) then found
  else f.publicDependencies.attach.foldl (fun acc ⟨d, _⟩ => visit acc d) (found ++ [f])
termination_by sizeOf f
decreasing_by exact sizeOf_lt_of_mem_publicDependencies ‹_›

def visible (direct : List LinkedFile) : List LinkedFile := direct.foldl visit []

/-- The extensions that a file sees when it imports the given files, and which of its own extensions
met a number in use. Between imported files the first one counts. -/
def registryOf (proto : FileDescriptor) (dependencies : List LinkedFile) :
    Registry × List (ExtensionInfo × ExtensionInfo) :=
  let names := (visible dependencies).map name
  let seen :=
    dependencies.flatMap fun d => d.registry.toList.filter fun info => names.contains info.file
  let imported := seen.foldl (fun (r : Registry) info =>
    if (r.findNamed? info.fullName).isSome then r else (r.insert info).toOption.getD r) .empty
  imported.addFile proto

def link (proto : FileDescriptor) (dependencies : List LinkedFile) : LinkedFile :=
  ⟨proto, .ofFile proto, dependencies, (registryOf proto dependencies).1⟩

def types (f : LinkedFile) : TypeLookup where
  message? name := (f.index.get? name).bind f.proto.messageOf?
  enum? name := (f.index.get? name).bind f.proto.enumOf?
  extension? name := (f.index.get? name).bind f.proto.extensionOf?

def display (f : LinkedFile) : String :=
  let dependencies := ", ".intercalate (f.dependencies.map fun d => Escape.quoted d.name)
  r"FileDescriptor { name: " ++ Escape.quoted f.name ++ ", package: " ++
    Escape.quoted f.package ++ ", dependencies: [" ++ dependencies ++ r"] }"

end LinkedFile

end ProtobufSchema

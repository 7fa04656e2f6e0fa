import ProtobufSchema.Assembly.Walk
import ProtobufSchema.Canonical
import ProtobufSchema.Descriptor.Decode
import ProtobufSchema.Tree.Grammar

/-!
Compilers collect schemas, each under its own name, in any of the forms a schema comes in. What they
make of them is a set of finished files.
-/

namespace ProtobufSchema

inductive CompileError where
  | duplicateFile (name : String)
  | build (file : String) (error : BuildError)
  | text (error : SyntaxError)
  | encode (error : EncodeError)
  | decode (error : DecodeError)
  deriving DecidableEq, Repr

def CompileError.message : CompileError → String
  | duplicateFile name => "duplicate file name '" ++ name ++ "'"
  | build file e => file ++ ": " ++ e.message
  | text e => "descriptor text could not be parsed: " ++ e.message
  | encode e => e.message
  | decode e => e.message

inductive SchemaInput where
  | source (text : String)
  | tree (tree : Tree.File)
  | descriptor (file : FileDescriptor)

structure Compiler where
  options : BuildOptions := {}
  /-- The inputs in the order they were added, under different names. -/
  inputs : List (String × SchemaInput) := []

namespace Compiler

def size (c : Compiler) : Nat := c.inputs.length

def hasInput (c : Compiler) (name : String) : Bool := c.inputs.any (·.1 == name)

def add (c : Compiler) (name : String) (input : SchemaInput) : Except CompileError Compiler :=
  if c.hasInput name then .error (.duplicateFile name)
  else .ok { c with inputs := c.inputs ++ [(name, input)] }

def addDescriptor (c : Compiler) (file : FileDescriptor) : Except CompileError Compiler :=
  c.add file.name (.descriptor file)

def addBytes (c : Compiler) (bytes : Bytes) : Except CompileError Compiler :=
  match FileDescriptor.decode MetaSchema.decodeContext bytes with
  | .error e => .error (.decode e)
  | .ok file => c.addDescriptor file

def addText (c : Compiler) (text : String) : Except CompileError Compiler :=
  match Message.parseText MetaSchema.file.types "google.protobuf.FileDescriptorProto" text with
  | .error e => .error (.text e)
  | .ok m =>
    match m.encode with
    | .error e => .error (.encode e)
    | .ok bytes => c.addBytes bytes

end Compiler

structure FileSet where
  files : List (String × LinkedFile)

namespace FileSet

def empty : FileSet := ⟨[]⟩

def size (s : FileSet) : Nat := s.files.length

def isEmpty (s : FileSet) : Bool := s.files.isEmpty

def get? (s : FileSet) (name : String) : Option LinkedFile := s.files.lookup name

def contains (s : FileSet) (name : String) : Bool := (s.get? name).isSome

def names (s : FileSet) : List String := s.files.map (·.1)

def insert (s : FileSet) (name : String) (f : LinkedFile) : FileSet := ⟨s.files ++ [(name, f)]⟩

def encode (s : FileSet) : Except EncodeError Bytes :=
  FileDescriptor.encodeSet (s.files.map (·.2.proto))

end FileSet

end ProtobufSchema

import ProtobufSchema.DefaultText
import ProtobufSchema.Assembly.Reference
import ProtobufSchema.Descriptor.Traverse
import ProtobufSchema.MetaSchema
import ProtobufSchema.Options.Interpret

/-! Canonical form: every type is referred to by its full name, with a dot in front, and every
option is interpreted. Names and options that lead nowhere are reported. -/

namespace ProtobufSchema

structure BuildOptions where
  normalizeDefaults : Bool := false
  typedExtensions : Bool := true
  /-- The extensions known, in place of those that a file sees. -/
  registry? : Option Registry := none
  bothEndsOfCycles : Bool := false
  unbuiltImports : Bool := false
  /-- Requires a type to exist also where its full name is written out. -/
  strictNames : Bool := true

def Name.relative? (name? : Option String) : Option String := name?.filter fun n => !isAbsolute n

def FieldDescriptor.isQualified (f : FieldDescriptor) : Bool :=
  (Name.relative? f.typeName?).isNone && (Name.relative? f.extendee?).isNone

def MethodDescriptor.isQualified (m : MethodDescriptor) : Bool :=
  (Name.relative? m.inputType?).isNone && (Name.relative? m.outputType?).isNone

namespace MessageDescriptor

theorem sizeOf_append (xs ys : List MessageDescriptor) :
    sizeOf (xs ++ ys) + 1 = sizeOf xs + sizeOf ys := by
  induction xs with
  | nil =>
    simp only [List.nil_append, List.nil.sizeOf_spec]
    omega
  | cons x xs ih =>
    simp only [List.cons_append, List.cons.sizeOf_spec]
    omega

theorem sizeOf_reverse (xs : List MessageDescriptor) : sizeOf xs.reverse = sizeOf xs := by
  induction xs with
  | nil => rfl
  | cons x xs ih =>
    have happend := sizeOf_append xs.reverse [x]
    simp only [List.reverse_cons, List.cons.sizeOf_spec, List.nil.sizeOf_spec] at happend ⊢
    omega

/-- The fields and extensions of the messages on a stack and of all messages inside them: the one on
top is taken off, and those inside it are put there, the last one uppermost. -/
def stackedFields : List MessageDescriptor → List FieldDescriptor
  | [] => []
  | m :: stack => m.fields ++ m.extensions ++ stackedFields (m.nestedTypes.reverse ++ stack)
termination_by stack => sizeOf stack
decreasing_by
  have happend := sizeOf_append m.nestedTypes.reverse stack
  rw [sizeOf_reverse] at happend
  simp only [List.unattach_reverse, List.unattach_attach, List.cons.sizeOf_spec]
  cases m
  simp only [mk.sizeOf_spec] at happend ⊢
  omega

end MessageDescriptor

namespace FileDescriptor

def isQualified (f : FileDescriptor) : Bool :=
  (f.extensions ++ MessageDescriptor.stackedFields f.messageTypes.reverse).all (·.isQualified) &&
    (f.services.flatMap (·.methods)).all (·.isQualified)

/-- Whether an option is still to be interpreted. Bytes that nobody explains count as such if they
are asked for. -/
def hasLeftovers (f : FileDescriptor) (unknownBytes : Bool) : Bool :=
  f.allOptions.any fun (_, o) =>
    !o.uninterpreted.isEmpty || unknownBytes && !o.message.unknown.isEmpty

/-- Whether a file is in canonical form. Bytes that nobody explains count against it only where
custom options are to be typed. -/
def isCanonical (f : FileDescriptor) (options : BuildOptions) : Bool :=
  f.isQualified && !f.hasLeftovers options.typedExtensions

end FileDescriptor

structure Canonicalizer where
  dependencies : List LinkedFile
  options : BuildOptions
  fallback? : Option LinkedFile

namespace Canonicalizer

def ofDependencies (dependencies : List LinkedFile) (options : BuildOptions) : Canonicalizer :=
  ⟨dependencies, options, some MetaSchema.file⟩

def standalone (dependencies : List LinkedFile) (options : BuildOptions) : Canonicalizer :=
  ⟨dependencies, options, none⟩

def pool (c : Canonicalizer) (file : FileDescriptor) : Pool :=
  let pool := Pool.ofDependencies file (.ofFile file) c.dependencies
  match c.fallback? with
  | none => pool
  | some f => if file.name = f.name then pool else pool.withFallback f

end Canonicalizer

namespace Pool

/-- Qualifies a name if it is relative, and reports it if it denotes nothing acceptable. The
answer is the full name and its kind, or nothing if the name is to stay. -/
def qualify? (p : Pool) (name? : Option String) (scope what : String)
    (accepts : SymbolKind → Bool) : StateM Log (Option (String × SymbolKind)) :=
  match Name.relative? name? with
  | none => return none
  | some name =>
    match (p.resolve? name scope).filter fun (_, kind) => accepts kind with
    | some found => return some found
    | none => do
      let d := Diagnostic.violation .unresolvedTypeName
        (what ++ " \"" ++ name ++ "\" is not defined (referenced from \"" ++ scope ++ "\")")
      modify (·.report (d.inFile p.file.name))
      return none

def qualifyMessage (p : Pool) (name? : Option String) (scope what : String) :
    StateM Log (Option String) := do
  let found? ← p.qualify? name? scope what (· == .message)
  return (found?.map fun (fullName, _) => Name.qualify fullName).or name?

def qualifyField (p : Pool) (scope : String) (f : FieldDescriptor) :
    StateM Log FieldDescriptor := do
  let found? ← p.qualify? f.typeName? scope "type" SymbolKind.isType
  let f := found?.elim f fun (fullName, kind) => f.withType fullName kind
  return { f with extendee? := ← p.qualifyMessage f.extendee? scope "extendee" }

def qualifyMethod (p : Pool) (scope : String) (m : MethodDescriptor) :
    StateM Log MethodDescriptor := do
  let input? ← p.qualifyMessage m.inputType? scope "message type"
  let output? ← p.qualifyMessage m.outputType? scope "message type"
  return { m with inputType? := input?, outputType? := output? }

end Pool

def OptionResolver.interpretOptions (r : OptionResolver) (scope : String) (o : Options) :
    Reporting BuildError Options := fun log =>
  match r.interpretAll scope ⟨o, log⟩ with
  | .ok _ s => .ok s.options s.log
  | .error e s => .error e s.log

def FieldDescriptor.normalizeDefault (f : FieldDescriptor) : Except Overflow FieldDescriptor :=
  (f.defaultValue?.mapM fun text => f.type?.elim (.ok text) (DefaultText.normalize · text)).map
    fun text? => { f with defaultValue? := text? }

namespace Canonicalizer

def qualifyNames (c : Canonicalizer) (file : FileDescriptor) : StateM Log FileDescriptor :=
  if file.isQualified then return file
  else do
    let pool := c.pool file
    let file ← file.traverseFields pool.qualifyField
    file.traverseMethods pool.qualifyMethod

def resolver (c : Canonicalizer) (file : FileDescriptor) : OptionResolver where
  pool := c.pool file
  registry := c.options.registry?.getD (LinkedFile.registryOf file c.dependencies).1
  asExtensions := c.options.typedExtensions
  file := file.name

def interpretOptions (c : Canonicalizer) (file : FileDescriptor) :
    Reporting BuildError FileDescriptor :=
  if file.hasLeftovers false then file.traverseOptions (c.resolver file).interpretOptions
  else return file

def normalizeDefaults (file : FileDescriptor) : Except BuildError FileDescriptor :=
  (file.traverseFields fun _ f => f.normalizeDefault).mapError .overflow

def canonicalize (c : Canonicalizer) (file : FileDescriptor) :
    Reporting BuildError FileDescriptor := do
  let (file, log) := (c.qualifyNames file).run (← get)
  set log
  let file ← c.interpretOptions file
  if c.options.normalizeDefaults then ofExcept (normalizeDefaults file) else return file

end Canonicalizer

end ProtobufSchema

import ProtobufSchema.Compiler.Basic

/-! Finishing one file once the files it imports are finished: its references are looked up in what
it sees, and it is brought into canonical form. A file about which anything is reported is not
finished. -/

namespace ProtobufSchema

structure PendingFile where
  file : FileDescriptor
  unresolved : List Reference

/-- Writes the full name of a reference into a file, or reports it. Where names need not be
strict, one that is written out in full is taken to be a message. -/
def Pool.resolveReference (p : Pool) (strict : Bool) (file : FileDescriptor) (r : Reference) :
    StateM Log FileDescriptor :=
  match p.resolveWith? r.name r.scope fun d => d.symbolKind?.any r.kind.accepts with
  | some found =>
    let kind := found.definition.symbolKind?.getD .message
    return (r.write? file found.fullName kind).getD file
  | none =>
    match if strict then none else Name.absolute? r.name with
    | some fullName => return (r.write? file fullName .message).getD file
    | none => do
      let d := Diagnostic.violation .unresolvedTypeName
        (r.kind.describe ++ " \"" ++ r.name ++ "\" is not defined (referenced from \"" ++ r.scope ++
          "\")")
      modify (·.report ((d.located r.span?).inFile p.file.name))
      return file

def PendingFile.resolve (p : PendingFile) (strict : Bool) (dependencies : List LinkedFile) :
    StateM Log FileDescriptor :=
  let pool :=
    (Pool.ofDependencies p.file (.ofFile p.file) dependencies).withFallback MetaSchema.file
  p.unresolved.foldlM (pool.resolveReference strict) p.file

def FileDescriptor.duplicateSymbols (file : FileDescriptor) (dependencies : List LinkedFile) :
    List Diagnostic :=
  let visible := LinkedFile.visible dependencies
  (SymbolIndex.ofFile file).entries.filterMap fun (name, definition) =>
    if definition = .package then none
    else
      (visible.find? fun f => (f.index.get? name).any (· != .package)).map fun other =>
        (Diagnostic.violation .duplicateName
          ("\"" ++ name ++ "\" is already defined in file \"" ++ other.name ++ "\"")).inFile
        file.name

def FileDescriptor.duplicateExtensions (file : FileDescriptor) (dependencies : List LinkedFile) :
    List Diagnostic :=
  (LinkedFile.registryOf file dependencies).2.map fun (rejected, existing) =>
    (Diagnostic.violation .duplicateExtensionNumber
      ("extension number " ++ Numeral.signed rejected.number.toInt ++ " of \"" ++
        rejected.extendee ++ "\" is used by both \"" ++ rejected.fullName ++ "\" and \"" ++
        existing.fullName ++ "\" (in \"" ++ existing.file ++ "\")")).inFile file.name

/-- Finishes a file, or answers nothing if there was anything to report. -/
def Compiler.finish (c : Compiler) (name : String) (pending : PendingFile)
    (dependencies : List LinkedFile) : Reporting CompileError (Option LinkedFile) := do
  let before := (← get).size
  let (file, log) := (pending.resolve c.options.strictNames dependencies).run (← get)
  set log
  if log.size ≠ before then return none
  match (Canonicalizer.ofDependencies dependencies c.options).canonicalize file log with
  | .error e log => do
    set log
    throw (.build name e)
  | .ok file log => do
    let log := (file.duplicateSymbols dependencies ++ file.duplicateExtensions dependencies).foldl
      Log.report log
    set log
    return if log.size = before then some (.link file dependencies) else none

end ProtobufSchema

import ProtobufSchema.Compiler.Finish
import ProtobufSchema.ImportGraph

/-! Building all inputs of a compiler in passes, each taking the files whose imports are finished
when it begins. Files that no pass takes are stuck. -/

namespace ProtobufSchema

abbrev Pending := List (String × PendingFile)

def Pending.graph (p : Pending) : ImportGraph :=
  ⟨p.map fun (name, f) => (name, f.file.dependencies)⟩

def Pending.contains (p : Pending) (name : String) : Bool := p.any (·.1 == name)

namespace FileSet

def dependency? (s : FileSet) (name : String) : Option LinkedFile :=
  if name = metaSchemaFile then some MetaSchema.file else s.get? name

def isReady (s : FileSet) (f : PendingFile) : Bool :=
  f.file.dependencies.all fun d => (s.dependency? d).isSome

def ready (s : FileSet) (p : Pending) : Pending := p.filter fun (_, f) => s.isReady f

def waiting (s : FileSet) (p : Pending) : Pending := p.filter fun (_, f) => !s.isReady f

theorem length_waiting_lt (s : FileSet) (p : Pending) (h : s.ready p ≠ []) :
    (s.waiting p).length < p.length := by
  obtain ⟨x, hx⟩ := List.exists_mem_of_ne_nil _ h
  obtain ⟨hmem, hready⟩ := List.mem_filter.1 hx
  rw [waiting, List.length_filter_lt_length_iff_exists]
  exact ⟨x, hmem, by simpa using hready⟩

end FileSet

namespace Compiler

def assemble (name : String) (input : SchemaInput) : Reporting CompileError (Option PendingFile) :=
  let ofTree (tree : Tree.File) : Reporting CompileError (Option PendingFile) := fun log =>
    match tree.assemble name log with
    | .ok built log => .ok (some ⟨built.file, built.unresolved⟩) log
    | .error e log => .error (.build name e) log
  match input with
  | .descriptor file => return some ⟨file, []⟩
  | .tree tree => ofTree tree
  | .source text =>
    match Tree.File.parse text with
    | .ok tree => ofTree tree
    | .error e => do
      Reporting.report ((Diagnostic.ofSyntaxError e.span e.fault.message).inFile name)
      return none

/-- The descriptors of the inputs. An input under the name of the schema of schemas stands for that
schema, whatever it holds, and is finished. -/
def assembleAll (finished : FileSet) (pending : Pending) :
    List (String × SchemaInput) → Reporting CompileError (FileSet × Pending)
  | [] => return (finished, pending)
  | (name, input) :: inputs =>
    if name = metaSchemaFile then assembleAll (finished.insert name MetaSchema.file) pending inputs
    else do
      match ← assemble name input with
      | some f => assembleAll finished (pending ++ [(name, f)]) inputs
      | none => assembleAll finished pending inputs

def isReservedPackage (package : String) : Bool :=
  package == reservedPackage || (reservedPackage ++ ".").toList.isPrefixOf package.toList

def reservedSpaceViolations (pending : Pending) : List Diagnostic :=
  (pending.filter fun (_, f) => isReservedPackage f.file.package).map fun (name, f) =>
    (Diagnostic.violation .reservedSpaceViolation
      ("package \"" ++ f.file.package ++ "\" is reserved for the meta-schema")).inFile name

def finishAll (c : Compiler) (finished : FileSet) : Pending → Reporting CompileError FileSet
  | [] => return finished
  | (name, f) :: rest => do
    match ← c.finish name f (f.file.dependencies.filterMap finished.dependency?) with
    | some done => c.finishAll (finished.insert name done) rest
    | none => c.finishAll finished rest

def passes (c : Compiler) (finished : FileSet) (pending : Pending) :
    Reporting CompileError (FileSet × Pending) :=
  if finished.ready pending = [] then return (finished, pending)
  else do
    let after ← c.finishAll finished (finished.ready pending)
    c.passes after (finished.waiting pending)
termination_by pending.length
decreasing_by exact finished.length_waiting_lt pending ‹_›

abbrev Cycles := List (String × String)

def diagnoseImport (c : Compiler) (finished : FileSet) (stuck : Pending) (name target : String)
    (cycles : Cycles) : Cycles × Option Diagnostic :=
  let about (cause : Cause) (message : String) : Option Diagnostic :=
    some ((Diagnostic.violation cause message).inFile name)
  if (finished.dependency? target).isSome then (cycles, none)
  else if !c.hasInput target then
    (cycles, about .missingDependency ("import \"" ++ target ++ "\" was not found"))
  else if stuck.contains target && stuck.graph.reaches target name then
    if !c.options.bothEndsOfCycles &&
        (cycles.contains (name, target) || cycles.contains (target, name)) then
      (cycles, none)
    else
      ((name, target) :: cycles, about .circularDependency
        ("file \"" ++ name ++ "\" has a circular dependency on \"" ++ target ++ "\""))
  else if c.options.unbuiltImports then
    (cycles, about .unbuiltDependency ("import \"" ++ target ++ "\" exists but could not be built"))
  else (cycles, none)

def diagnose (c : Compiler) (finished : FileSet) (stuck : Pending) :
    Cycles → List (String × String) → List Diagnostic
  | _, [] => []
  | cycles, (name, target) :: rest =>
    let (cycles, d?) := c.diagnoseImport finished stuck name target cycles
    d?.toList ++ c.diagnose finished stuck cycles rest

def diagnoseAll (c : Compiler) (finished : FileSet) (stuck : Pending) : List Diagnostic :=
  c.diagnose finished stuck [] (stuck.flatMap fun (name, f) => f.file.dependencies.map (name, ·))

/-- Builds the inputs. The set holds the files that could be finished. -/
def build (c : Compiler) : Reporting CompileError FileSet := do
  let (finished, pending) ← assembleAll .empty [] c.inputs
  let violations := reservedSpaceViolations pending
  if violations.isEmpty then
    let (finished, stuck) ← c.passes finished pending
    modify fun log => (c.diagnoseAll finished stuck).foldl Log.report log
    return finished
  else
    modify fun log => violations.foldl Log.report log
    return .empty

end Compiler

end ProtobufSchema

import ProtobufSchema.Assembly.Reference
import ProtobufSchema.Diagnostic
import ProtobufSchema.RangeSet
import ProtobufSchema.Scope
import ProtobufSchema.Tree.Basic

/-!
The state of assembling one file, and the checks that single declarations go through. A declaration
that fails a check is reported and left out, and what it claimed is given back.
-/

namespace ProtobufSchema

structure Locations where
  spans : List (Path × Span)
  comments : List (Path × String)
  deriving DecidableEq, Repr

namespace Locations

def empty : Locations := ⟨[], []⟩

def record (l : Locations) (path : Path) (span : Span) (comment? : Option String) : Locations :=
  ⟨l.spans ++ [(path, span)], l.comments ++ (comment?.map fun text => (path, text)).toList⟩

def spanOf? (l : Locations) (path : Path) : Option Span := l.spans.lookup path

end Locations

structure ClaimedField where
  name : String
  number : Int32
  span : Span
  deriving DecidableEq, Repr

/-- What a message has declared so far, for the checks that need all of it. -/
structure Claims where
  fields : List ClaimedField
  ranges : RangeSet
  reservedRanges : List NumberRange
  reservedNames : List String
  optionNames : List String
  deriving DecidableEq, Repr

def Claims.empty : Claims := ⟨[], .empty, [], [], []⟩

def Claims.release (c : Claims) (name : String) (number : Int32) : Claims :=
  let later := c.fields.reverse.takeWhile fun f => !(f.name == name && f.number == number)
  let rest := c.fields.reverse.dropWhile fun f => !(f.name == name && f.number == number)
  { c with fields := (later ++ rest.tail).reverse }

structure Assembly where
  fileName : String
  dialect : Dialect
  symbols : SymbolTable
  scope : Nat
  stack : ScopeStack
  /-- Names that are no symbols, each with the scope it is taken in. -/
  taken : List (Nat × String)
  claims : Claims
  references : List Reference
  log : Log
  locations : Locations
  deriving BEq, Repr

/-- A step of assembling; what was reported before a failure stays reported. -/
abbrev Assemble := EStateM BuildError Assembly

inductive FieldContext where
  | message
  | oneof
  | extend (extendee : String)
  deriving DecidableEq, Repr

def FieldContext.isExtend : FieldContext → Bool
  | extend _ => true
  | message | oneof => false

namespace Assembly

def report (cause : Cause) (span : Span) (message : String) : Assemble Unit :=
  modify fun a =>
    let d := ((Diagnostic.violation cause message).located (some span)).inFile a.fileName
    { a with log := a.log.report d }

def recordLocation (path : Path) (span : Span) (comment? : Option String) : Assemble Unit :=
  modify fun a => { a with locations := a.locations.record path span comment? }

def onStack (op : ScopeStack → Except BuildError ScopeStack) : Assemble Unit := do
  match op (← get).stack with
  | .ok stack => modify fun a => { a with stack := stack }
  | .error e => throw e

def openElement (e : Element) (span : Span) (comment? : Option String) : Assemble Path := do
  onStack (·.openElement e)
  let path := (← get).stack.path
  recordLocation path span comment?
  return path

def close : Assemble Unit := onStack (·.close)

def scopeName (a : Assembly) (node : Nat) : String :=
  let name := a.symbols.fullName node
  if name = "" then a.fileName else name

def reportDuplicate (node : Nat) (name : String) (span : Span) : Assemble Unit := do
  let scope := (← get).scopeName node
  report .duplicateName span ("\"" ++ name ++ "\" is already defined in \"" ++ scope ++ "\"")

/-- Declares a message, enum or service in the current scope, unless its name is taken. -/
def declare (name : String) (kind : SymbolKind) (span : Span) : Assemble (Option Nat) := do
  let a ← get
  let clash := a.taken.contains (a.scope, name)
  match if clash then none else (a.symbols.add a.scope name kind).toOption with
  | some (symbols, node) => do
    set { a with symbols := symbols }
    return some node
  | none => do
    reportDuplicate a.scope name span
    return none

/-- Takes a name that is no symbol in a scope, unless it is in use there. -/
def takeName (scope : Nat) (name : String) (span : Span) : Assemble Bool := do
  let a ← get
  if (a.symbols.child? scope name).isSome || a.taken.contains (scope, name) then
    reportDuplicate scope name span
    return false
  set { a with taken := (scope, name) :: a.taken }
  return true

/-- Claims the name and number of a field. In an extend block only the name counts. -/
def claimField (name : String) (number : Int32) (span : Span) (context : FieldContext) :
    Assemble Bool := do
  let a ← get
  if !context.isExtend && a.claims.fields.any (·.number == number) then
    report .duplicateNumber span
      (s!"field number {number.toInt} has already been used in \"" ++ a.scopeName a.scope ++
        "\" by another field")
    return false
  if !(← takeName a.scope name span) then return false
  if isReservedNumber number then
    report .reservedNumber span
      (s!"field numbers {reservedStart.toInt} through {(reservedEnd - 1).toInt} are reserved " ++
        "for the protocol buffer library implementation")
  if !context.isExtend then
    modify fun a =>
      { a with claims := { a.claims with fields := a.claims.fields ++ [⟨name, number, span⟩] } }
  return true

def releaseField (name : String) (number : Int32) (context : FieldContext) : Assemble Unit :=
  modify fun a =>
    { a with
      taken := a.taken.erase (a.scope, name)
      claims := if context.isExtend then a.claims else a.claims.release name number }

def refer (name : String) (kind : ReferenceKind) (path : Path) (span : Span) : Assemble Unit :=
  modify fun a =>
    let r : Reference := ⟨name, a.symbols.fullName a.scope, a.scope, path, kind, some span⟩
    { a with references := a.references ++ [r] }

end Assembly

/-- The assignment as it waits to be interpreted. A negative integer has 64 bits. -/
def Tree.Assignment.raw (a : Assignment) : Except BuildError RawOption :=
  let base : RawOption := { name := a.name, span := some a.span }
  match a.value with
  | .identifier name => .ok { base with identifier := some name }
  | .integer false magnitude _ => .ok { base with positiveInt := some magnitude }
  | .integer true magnitude text =>
    if 0x8000000000000000 < magnitude then
      .error (.optionValue base.nameText ("integer out of range: " ++ text))
    else .ok { base with negativeInt := some (.ofInt (-magnitude.toNat)) }
  | .decimal value _ => .ok { base with double := some value }
  | .string content => .ok { base with string := some content }
  | .aggregate text => .ok { base with aggregate := some text }

/-- The text of a default value: byte strings are escaped, and all else stays as written. -/
def Tree.Constant.defaultText (value : Constant) (type? : Option FieldType) : String :=
  match value, type? with
  | .string content, some .bytes => Escape.bytes content
  | other, _ => other.text

namespace Assembly

open ProtobufSchema.Tree

def reportRepeatedOption (name : String) (span : Span) : Assemble Unit :=
  report .duplicateOptionName span ("option \"" ++ name ++ "\" was already set")

/-- Records an assignment on the innermost element, unless its simple name is in use among `seen`.
-/
def addOption (seen : List String) (a : Assignment) : Assemble (List String) := do
  match a.simpleName? with
  | some name =>
    if seen.contains name then
      reportRepeatedOption name a.span
      return seen
    record
    return name :: seen
  | none => do
    record
    return seen
where
  record : Assemble Unit := do
    match a.raw with
    | .error e => throw e
    | .ok raw => do
      let _ ← openElement (.option raw) a.span none
      close

def addOptions (seen : List String) (options : List Assignment) : Assemble (List String) :=
  options.foldlM addOption seen

def isStored (a : Assignment) : Bool :=
  a.simpleName? == some "default" || a.simpleName? == some "json_name"

/-- Stores one of the options that are stored in a field itself, unless its name is in use. -/
def storeAssignment :
    FieldDescriptor × List String → Assignment → Assemble (FieldDescriptor × List String)
  | (field, seen), a => do
    let name := a.simpleName?.getD ""
    if seen.contains name then
      reportRepeatedOption name a.span
      return (field, seen)
    else if name = "json_name" then
      match a.value with
      | .string content =>
        return ({ field with jsonName? := some (Utf8.decodeLossy content) }, name :: seen)
      | _ => throw (.optionValue "json_name" "expected a string")
    else
      return ({ field with defaultValue? := some (a.value.defaultText field.type?) }, name :: seen)

def applyStored (options : List Assignment) (field : FieldDescriptor) :
    Assemble (FieldDescriptor × List String) :=
  (options.filter isStored).foldlM storeAssignment (field, [])

def addField (field : FieldDescriptor) (options : List Assignment) (span : Span)
    (comment? : Option String) (referTo : Path → Assemble Unit) : Assemble Unit := do
  let (field, seen) ← applyStored options field
  let path ← openElement (.field field) span comment?
  referTo path
  let _ ← addOptions seen (options.filter fun a => !isStored a)
  close

end Assembly

end ProtobufSchema

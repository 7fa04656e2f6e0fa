import ProtobufSchema.Source.Token

/-!
Diagnostics: what a build reports and goes on from. One without a cause is a syntax error, and one
with a cause is a violation of the rules of schemas.
-/

namespace ProtobufSchema

inductive Cause where
  | duplicateName
  | duplicateNumber
  | invalidExtensionRange
  | overlappingExtensionRange
  | fieldInExtensionRange
  | reservedNumber
  | reservedName
  | duplicateOptionName
  | unresolvedTypeName
  | unresolvedOptionName
  | duplicateExtensionNumber
  | circularDependency
  | missingDependency
  | unbuiltDependency
  | reservedSpaceViolation
  deriving DecidableEq, Repr

namespace Cause

def all : List Cause :=
  [duplicateName, duplicateNumber, invalidExtensionRange, overlappingExtensionRange,
    fieldInExtensionRange, reservedNumber, reservedName, duplicateOptionName, unresolvedTypeName,
    unresolvedOptionName, duplicateExtensionNumber, circularDependency, missingDependency,
    unbuiltDependency, reservedSpaceViolation]

def text : Cause → String
  | duplicateName => "duplicate name"
  | duplicateNumber => "duplicate number"
  | invalidExtensionRange => "invalid extension range"
  | overlappingExtensionRange => "overlapping extension range"
  | fieldInExtensionRange => "field in extension range"
  | reservedNumber => "reserved number"
  | reservedName => "reserved name"
  | duplicateOptionName => "duplicate option name"
  | unresolvedTypeName => "unresolved type name"
  | unresolvedOptionName => "unresolved option name"
  | duplicateExtensionNumber => "duplicate extension number"
  | circularDependency => "circular dependency"
  | missingDependency => "missing dependency"
  | unbuiltDependency => "unbuilt dependency"
  | reservedSpaceViolation => "reserved space violation"

def ofText? (text : String) : Option Cause := all.find? (·.text == text)

end Cause

structure Diagnostic where
  file? : Option String := none
  span? : Option Span := none
  message : String
  cause? : Option Cause := none
  deriving DecidableEq, Repr

namespace Diagnostic

def ofSyntaxError (span : Span) (message : String) : Diagnostic :=
  { span? := some span, message := message }

def violation (cause : Cause) (message : String) : Diagnostic :=
  { message := message, cause? := some cause }

def located (d : Diagnostic) (span? : Option Span) : Diagnostic :=
  { d with span? := span?.or d.span? }

def inFile (d : Diagnostic) (file : String) : Diagnostic := { d with file? := some file }

def within (d : Diagnostic) (file : String) : Diagnostic :=
  { d with file? := d.file?.or (some file) }

def display (d : Diagnostic) : String :=
  let file := d.file?.elim "" fun f => f ++ ":"
  let place := d.span?.elim "" fun s => s!"{s.line}:{s.column}:"
  let gap := if d.file?.isSome || d.span?.isSome then " " else ""
  let cause := d.cause?.elim "" fun c => " (" ++ c.text ++ ")"
  file ++ place ++ gap ++ d.message ++ cause

end Diagnostic

structure Log where
  entries : List Diagnostic
  deriving DecidableEq, Repr

namespace Log

def empty : Log := ⟨[]⟩

def report (log : Log) (d : Diagnostic) : Log := ⟨log.entries ++ [d]⟩

def isEmpty (log : Log) : Bool := log.entries.isEmpty

def size (log : Log) : Nat := log.entries.length

def syntaxErrors (log : Log) : List Diagnostic := log.entries.filter (·.cause?.isNone)

def violations (log : Log) : List Diagnostic := log.entries.filter (·.cause?.isSome)

def causes (log : Log) : List Cause := log.entries.filterMap (·.cause?)

def count (log : Log) (cause : Cause) : Nat := log.causes.count cause

end Log

/-- Work that reports as it goes; what was reported before a failure stays. -/
abbrev Reporting (ε : Type) := EStateM ε Log

def Reporting.report {ε : Type} (d : Diagnostic) : Reporting ε Unit := modify (·.report d)

inductive Listener where
  | keeping (log : Log)
  | silent
  deriving DecidableEq, Repr

def Listener.report (d : Diagnostic) : Listener → Listener
  | keeping log => keeping (log.report d)
  | silent => silent

def Listener.reportAll (listeners : List Listener) (d : Diagnostic) : List Listener :=
  listeners.map (report d)

end ProtobufSchema

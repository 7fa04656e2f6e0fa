import ProtobufSchema.Options.Literal
import ProtobufSchema.Source.Cursor

/-! Text format: messages written field by field, and extensions by their full names inside square
brackets. -/

namespace ProtobufSchema

namespace TextFormat

open Parse

def fieldNamed (types : TypeLookup) (typeName : String) (t : LocatedToken) :
    Parse FieldDescriptor := do
  match t.token with
  | .symbol '[' => do
    let _ ← token
    let name := Name.unqualify (← reference)
    expectSymbol ']'
    match types.extension? name with
    | none => fail t.span (.unknownExtension name)
    | some f =>
      if f.extendee ≠ typeName then fail t.span (.foreignExtension name typeName)
      return f
  | .name name => do
    let _ ← token
    match types.message? typeName with
    | none => fail t.span (.unknownMessageType typeName)
    | some m =>
      match (m.fieldNamed? name).or (m.groupNamed? name) with
      | none => fail t.span (.unknownField typeName name)
      | some f => return f
  | _ => unexpected t "field name"

def looseBool : Literal → Literal
  | .identifier "True" | .identifier "t" => .identifier "true"
  | .identifier "False" | .identifier "f" => .identifier "false"
  | .integer false 1 => .identifier "true"
  | .integer false 0 => .identifier "false"
  | l => l

def negativeLiteral : Parse Literal := do
  let t ← token
  match t.token with
  | .integer value _ => return .integer true value
  | .decimal value _ => return .decimal value.neg
  | .name word =>
    match Literal.numberWord? word with
    | some value => return .decimal value.neg
    | none => unexpected t "number after '-'"
  | _ => unexpected t "number after '-'"

def literal (t : LocatedToken) : Parse Literal := do
  match t.token with
  | .symbol '-' => negativeLiteral
  | .integer value _ => return .integer false value
  | .decimal value _ => return .decimal value
  | .name word => return .identifier word
  | .string content => return .string (content ++ (← fueled moreStrings))
  | _ => unexpected t "value"

def scalar (types : TypeLookup) (f : FieldDescriptor) : Parse Value := do
  let t ← token
  let l ← literal t
  let l := if f.type? = some .bool then looseBool l else l
  match l.coerce f types with
  | .ok v => return v
  | .error e => fail t.span (.fieldValue f.name e.message)

/-- A value of a field, given how the fields of a message up to a closing symbol are read. -/
def value (types : TypeLookup) (body : Char → String → Parse Message) (f : FieldDescriptor) :
    Parse Value := do
  if f.isMessage then
    let t ← token
    match t.token with
    | .symbol '{' => return .message (← body '}' f.typeName)
    | .symbol '<' => return .message (← body '>' f.typeName)
    | _ => unexpected t r"'{' or '<'"
  else scalar types f

def values (types : TypeLookup) (body : Char → String → Parse Message) (f : FieldDescriptor) :
    Nat → Message → Parse Message
  | 0, _ => exhausted
  | fuel + 1, m => do
    let m := f.store m (← value types body f)
    if ← eatSymbol ',' then values types body f fuel m
    else do
      expectSymbol ']'
      return m

def field (types : TypeLookup) (body : Char → String → Parse Message) (m : Message) :
    Parse Message := do
  let t ← peek
  let f ← fieldNamed types m.typeName t
  if f.type?.isNone then fail t.span (.untypedField f.name)
  if f.isMessage then
    let _ ← eatSymbol ':'
  else expectSymbol ':'
  let m ←
    if ← eatSymbol '[' then
      if ← eatSymbol ']' then pure m else fueled fun fuel => values types body f fuel m
    else do pure (f.store m (← value types body f))
  if !(← eatSymbol ';') then
    let _ ← eatSymbol ','
  return m

/-- Reads fields into a message up to a closing symbol, or to the end where there is none. -/
def fields (types : TypeLookup) (body : Char → String → Parse Message) (closing? : Option Char) :
    Nat → Message → Parse Message
  | 0, _ => exhausted
  | fuel + 1, m => do
    let t ← peek
    match t.token, closing? with
    | .endOfInput, none => return m
    | .endOfInput, some c => unexpected t (inQuotes c)
    | found, _ =>
      if closing?.map Token.symbol = some found then
        let _ ← token
        return m
      else fields types body closing? fuel (← field types body m)

/-- A message up to its closing symbol, with messages inside each other at most `depth` deep. -/
def messageBody (types : TypeLookup) : (depth : Nat) → Char → String → Parse Message
  | 0, _, _ => exhausted
  | depth + 1, closing, typeName =>
    fueled fun fuel => fields types (messageBody types depth) (some closing) fuel (.empty typeName)

end TextFormat

def Message.mergeText (types : TypeLookup) (m : Message) (text : String) :
    Except SyntaxError Message :=
  let start := Cursor.ofText text
  let fuel := start.rest.length + 1
  match TextFormat.fields types (TextFormat.messageBody types fuel) none fuel m start with
  | .ok m _ => .ok m
  | .error e _ => .error e

def Message.parseText (types : TypeLookup) (typeName text : String) : Except SyntaxError Message :=
  mergeText types (.empty typeName) text

end ProtobufSchema

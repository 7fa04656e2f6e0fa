import ProtobufSchema.Source.Lexeme

/-!
A cursor is a place in a text with what is left of it. Parsing is a computation over a cursor; where
it fails the cursor stays where it got to, and looking ahead leaves the cursor alone.
-/

namespace ProtobufSchema

structure Cursor where
  offset : Nat
  line : Nat
  column : Nat
  rest : Bytes
  deriving DecidableEq, Repr

namespace Cursor

def ofBytes (bytes : Bytes) : Cursor := ⟨0, 1, 1, bytes⟩

def ofText (text : String) : Cursor := ofBytes (Utf8.encode text)

def span (c : Cursor) : Span := ⟨c.line, c.column⟩

/-- Steps over a number of bytes. A column counts the bytes since the last newline. -/
def skip : Nat → Cursor → Cursor
  | 0, c => c
  | count + 1, c =>
    match c.rest with
    | [] => c
    | b :: rest =>
      if b = 0x0A then skip count ⟨c.offset + 1, c.line + 1, 1, rest⟩
      else skip count ⟨c.offset + 1, c.line, c.column + 1, rest⟩

def upTo (c : Cursor) (rest : Bytes) : Cursor := c.skip (c.rest.length - rest.length)

end Cursor

abbrev Parse := EStateM SyntaxError Cursor

namespace Parse

/-- A fault that a scanner finds is reported where the scanner stopped. -/
def scan {α : Type} (s : Scan α) : Parse α := fun c =>
  match s c.rest with
  | .ok a rest => .ok a (c.upTo rest)
  | .error fault rest => .error ⟨(c.upTo rest).span, fault⟩ (c.upTo rest)

def fail {α : Type} (span : Span) (fault : SyntaxFault) : Parse α := throw ⟨span, fault⟩

def token : Parse LocatedToken := do
  let comment? ← scan Scan.blanks
  let span := (← get).span
  let lexeme ← scan Scan.lexeme
  match lexeme.token with
  | .ok t => return ⟨t, span, comment?⟩
  | .error fault => fail span fault

def ahead {α : Type} (p : Parse α) : Parse α := fun c =>
  match p c with
  | .ok a _ => .ok a c
  | .error e _ => .error e c

def peek : Parse LocatedToken := ahead token

def bracedText : Parse String := scan Scan.bracedText

/-- Gives a computation more fuel than there are bytes left, so that it may use some for each
token. -/
def fueled {α : Type} (p : Nat → Parse α) : Parse α := fun c => p (c.rest.length + 1) c

def unexpected {α : Type} (t : LocatedToken) (wanted : String) : Parse α :=
  fail t.span (.expected wanted t.token)

/-- The answer of a computation whose fuel is used up while there is more to read. -/
def exhausted {α : Type} : Parse α := do unexpected (← peek) "end of input"

def inQuotes (c : Char) : String := "'" ++ c.toString ++ "'"

def expectSymbol (c : Char) : Parse Unit := do
  let t ← token
  if t.token = .symbol c then return
  unexpected t (inQuotes c)

def expectName : Parse String := do
  let t ← token
  match t.token with
  | .name word => return word
  | _ => unexpected t "identifier"

def expectKeyword (word : String) : Parse Unit := do
  let t ← token
  if t.token = .name word then return
  unexpected t ("'" ++ word ++ "'")

def expectInteger : Parse UInt64 := do
  let t ← token
  match t.token with
  | .integer value _ => return value
  | _ => unexpected t "integer"

def eat (wanted : Token) : Parse Bool := do
  if (← peek).token = wanted then
    let _ ← token
    return true
  return false

def eatSymbol (c : Char) : Parse Bool := eat (.symbol c)

def eatName (word : String) : Parse Bool := eat (.name word)

/-- Elements with a separator between them. -/
def separated {α : Type} (element : Parse α) (separator : Char) : Nat → Parse (List α)
  | 0 => exhausted
  | fuel + 1 => do
    let x ← element
    if ← eatSymbol separator then return x :: (← separated element separator fuel)
    return [x]

def moreStrings : Nat → Parse Bytes
  | 0 => exhausted
  | fuel + 1 => do
    match (← peek).token with
    | .string content => do
      let _ ← token
      return content ++ (← moreStrings fuel)
    | _ => return []

def expectString : Parse Bytes := do
  let t ← token
  match t.token with
  | .string content => return content ++ (← fueled moreStrings)
  | _ => unexpected t "string"

/-- The segments that follow the first one of a dotted name, each with its dot. -/
def moreSegments : Nat → Parse String
  | 0 => exhausted
  | fuel + 1 => do
    if ← eatSymbol '.' then
      let segment ← expectName
      return "." ++ segment ++ (← moreSegments fuel)
    return ""

def dottedName : Parse String := do
  let first ← expectName
  return first ++ (← fueled moreSegments)

def reference : Parse String := do
  let qualified ← eatSymbol '.'
  let name ← dottedName
  return if qualified then "." ++ name else name

end Parse

end ProtobufSchema

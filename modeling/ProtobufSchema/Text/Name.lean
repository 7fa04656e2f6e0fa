/-!
Dotted names. A scope is the full name of a package or message, and the root scope is empty. A name
is searched for in its scope and in every scope around it, the closest first.
-/

namespace ProtobufSchema

namespace Name

def join (scope name : String) : String :=
  if scope = "" then name else scope ++ "." ++ name

def segments (name : String) : List String :=
  (name.toList.splitOn '.').map String.ofList

/-- The scopes around the scope whose characters are given last to first. -/
def outerReversed : List Char → List (List Char)
  | [] => []
  | c :: cs =>
    if c = '.' then cs :: outerReversed cs else if cs = [] then [[]] else outerReversed cs

def enclosing (scope : String) : List String :=
  scope :: (outerReversed scope.toList.reverse).map fun cs => String.ofList cs.reverse

def absolute? (name : String) : Option String :=
  match name.toList with
  | '.' :: rest => some (String.ofList rest)
  | _ => none

def isAbsolute (name : String) : Bool := (absolute? name).isSome

def qualify (fullName : String) : String := "." ++ fullName

def unqualify (name : String) : String := (absolute? name).getD name

def lastSegment (name : String) : String :=
  String.ofList (name.toList.reverse.takeWhile (· != '.')).reverse

/-- Drops underscores; the character after one is capitalized, and so is the first one if `upper`.
-/
def camelChars (upper : Bool) : List Char → List Char
  | [] => []
  | c :: cs =>
    if c = '_' then camelChars true cs
    else (if upper then c.toUpper else c) :: camelChars false cs

def jsonName (name : String) : String := String.ofList (camelChars false name.toList)

def mapEntryName (field : String) : String :=
  String.ofList (camelChars true field.toList) ++ "Entry"

end Name

end ProtobufSchema

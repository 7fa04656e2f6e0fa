import ProtobufSchema.Ieee.Decimal
import ProtobufSchema.Source.Token
import ProtobufSchema.Text.Blank

/-! Lexemes: the longest piece at the head of a text that makes one token, and the blanks and
comments before it. A scanner that fails leaves the text where the fault was found. -/

namespace ProtobufSchema

abbrev Scan := EStateM SyntaxFault Bytes

namespace Scan

def isDigit (b : UInt8) : Bool := 0x30 ≤ b && b ≤ 0x39

def isOctalDigit (b : UInt8) : Bool := 0x30 ≤ b && b ≤ 0x37

def isHexDigit (b : UInt8) : Bool :=
  isDigit b || (0x41 ≤ b && b ≤ 0x46) || (0x61 ≤ b && b ≤ 0x66)

def isNameStart (b : UInt8) : Bool :=
  (0x41 ≤ b && b ≤ 0x5A) || (0x61 ≤ b && b ≤ 0x7A) || b == 0x5F

def isNameByte (b : UInt8) : Bool := isNameStart b || isDigit b

def chars (bs : Bytes) : List Char := bs.map fun b => Char.ofNat b.toNat

def value (base : Nat) (digits : Bytes) : Nat := (Numeral.natural? base (chars digits)).getD 0

def run (p : UInt8 → Bool) : Scan Bytes := fun s => .ok (s.takeWhile p) (s.dropWhile p)

def upTo (count : Nat) (p : UInt8 → Bool) : Scan Bytes := fun s =>
  let found := (s.take count).takeWhile p
  .ok found (s.drop found.length)

def oneOf (p : UInt8 → Bool) : Scan Bytes := upTo 1 p

def plainEscape? (b : UInt8) : Option UInt8 :=
  if b = 0x61 then some 0x07
  else if b = 0x62 then some 0x08
  else if b = 0x66 then some 0x0C
  else if b = 0x6E then some 0x0A
  else if b = 0x72 then some 0x0D
  else if b = 0x74 then some 0x09
  else if b = 0x76 then some 0x0B
  else if b = 0x5C || b = 0x27 || b = 0x22 || b = 0x3F then some b
  else none

/-- Exactly `count` more hexadecimal digits after those of value `acc`. -/
def codePoint : (count acc : Nat) → Scan Nat
  | 0, acc => pure acc
  | count + 1, acc => fun s =>
    match s with
    | [] => .error .unicodeEscapeWithoutDigits []
    | b :: rest =>
      match Numeral.digitIn? 16 (Char.ofNat b.toNat) with
      | none => .error .unicodeEscapeWithoutDigits rest
      | some d => codePoint count (acc * 16 + d) rest

def unicodeEscape (count : Nat) : Scan Bytes := do
  let n ← codePoint count 0
  if n.isValidChar then return Utf8.encode (Char.ofNat n).toString
  else throw (.invalidUnicodeEscape n)

def escapeOf (b : UInt8) : Scan Bytes :=
  match plainEscape? b with
  | some out => return [out]
  | none =>
    if isOctalDigit b then do
      let more ← upTo 2 isOctalDigit
      return [(value 8 (b :: more)).toUInt8]
    else if b = 0x78 || b = 0x58 then do
      let digits ← upTo 2 isHexDigit
      if digits.isEmpty then throw .hexEscapeWithoutDigits
      return [(value 16 digits).toUInt8]
    else if b = 0x75 then unicodeEscape 4
    else if b = 0x55 then unicodeEscape 8
    else throw (.invalidEscape b)

theorem codePoint_rest {count acc n : Nat} {s s' : Bytes} (h : codePoint count acc s = .ok n s') :
    s'.length ≤ s.length := by
  induction count generalizing acc s with
  | zero => cases h; exact Nat.le_refl _
  | succ count ih =>
    cases s with
    | nil => simp [codePoint] at h
    | cons b rest =>
      simp only [codePoint] at h
      split at h
      · cases h
      · exact Nat.le_succ_of_le (ih h)

theorem unicodeEscape_rest {count : Nat} {s s' bs : Bytes} (h : unicodeEscape count s = .ok bs s') :
    s'.length ≤ s.length := by
  simp only [unicodeEscape, bind, EStateM.bind] at h
  cases hc : codePoint count 0 s with
  | error e t => rw [hc] at h; cases h
  | ok n t =>
    rw [hc] at h
    dsimp only at h
    split at h <;> cases h
    exact codePoint_rest hc

theorem escapeOf_rest {b : UInt8} {s s' bs : Bytes} (h : escapeOf b s = .ok bs s') :
    s'.length ≤ s.length := by
  cases hp : plainEscape? b with
  | some out =>
    simp only [escapeOf, hp] at h
    cases h
    exact Nat.le_refl _
  | none =>
    simp only [escapeOf, hp] at h
    split at h
    · simp only [bind, EStateM.bind, upTo] at h
      cases h
      simp
    · split at h
      · simp only [bind, EStateM.bind, upTo] at h
        split at h <;> cases h
        simp
      · split at h
        · exact unicodeEscape_rest h
        · split at h
          · exact unicodeEscape_rest h
          · cases h

/-- The content of a string literal up to its closing quote, its escapes replaced. -/
def quoted (quote : UInt8) (s : Bytes) : EStateM.Result SyntaxFault Bytes Bytes :=
  match s with
  | [] => .error .unterminatedString []
  | b :: rest =>
    if b = 0x0A then .error .unterminatedString rest
    else if b = quote then .ok [] rest
    else if b = 0x5C then
      match rest with
      | [] => .error .unterminatedString []
      | e :: tail =>
        match h : escapeOf e tail with
        | .error fault s' => .error fault s'
        | .ok out s' =>
          have := escapeOf_rest h
          match quoted quote s' with
          | .error fault s'' => .error fault s''
          | .ok more s'' => .ok (out ++ more) s''
    else
      match quoted quote rest with
      | .error fault s' => .error fault s'
      | .ok more s' => .ok (b :: more) s'
termination_by s.length

theorem quoted_rest {quote : UInt8} {s s' bs : Bytes} (h : quoted quote s = .ok bs s') :
    s'.length < s.length := by
  induction s using WellFounded.induction (measure fun s : Bytes => s.length).wf
    generalizing bs with
  | _ s ih =>
    rw [quoted.eq_def] at h
    split at h
    · cases h
    · rename_i b rest
      have hlt : rest.length < (b :: rest).length := by simp
      split at h
      · cases h
      · split at h
        · cases h; exact hlt
        · split at h
          · split at h
            · cases h
            · rename_i e tail
              split at h
              · cases h
              · rename_i out t he
                have hle : t.length < (b :: e :: tail).length := by
                  have := escapeOf_rest he
                  simp; omega
                split at h <;> cases h
                rename_i more hm
                exact Nat.lt_trans (ih _ hle hm) hle
          · split at h <;> cases h
            rename_i more hm
            exact Nat.lt_trans (ih _ hlt hm) hlt

def isQuote (b : UInt8) : Bool := b == 0x22 || b == 0x27

def splitBlock : Bytes → Option (Bytes × Bytes)
  | [] => none
  | b :: rest =>
    if b = 0x2A ∧ rest.head? = some 0x2F then some ([], rest.tail)
    else (splitBlock rest).map fun (text, after) => (b :: text, after)

theorem splitBlock_rest {s text after : Bytes} (h : splitBlock s = some (text, after)) :
    after.length < s.length := by
  induction s generalizing text with
  | nil => simp [splitBlock] at h
  | cons b rest ih =>
    simp only [splitBlock] at h
    split at h
    · cases h
      simp only [List.length_tail, List.length_cons]
      omega
    · obtain ⟨⟨t, a⟩, ha, heq⟩ := Option.map_eq_some_iff.1 h
      cases heq
      exact Nat.lt_succ_of_lt (ih ha)

def commentLine (text : Bytes) : String :=
  Utf8.decodeLossy (if text.head? = some 0x20 then text.tail else text) ++ "\n"

/-- Passes over blanks and comments and answers the comment that ends right before what follows.
Line comments add up, a block comment replaces what stands before it, and an empty line detaches.
Newlines are counted without a bound; in a text below 2 ^ 31 bytes, 32 bits suffice. -/
def blanksFrom (comment : Option String) (newlines : Nat) (s : Bytes) :
    EStateM.Result SyntaxFault Bytes (Option String) :=
  match s with
  | [] => .ok comment []
  | b :: rest =>
    if b = 0x0A then blanksFrom (if newlines = 0 then comment else none) (newlines + 1) rest
    else if b = 0x20 || b = 0x09 || b = 0x0D then blanksFrom comment newlines rest
    else if b = 0x2F && rest.head? == some 0x2F then
      let text := rest.tail.takeWhile (· != 0x0A)
      have : (rest.tail.dropWhile (· != 0x0A)).length ≤ rest.length :=
        Nat.le_trans (List.dropWhile_sublist _).length_le (by simp)
      blanksFrom (some (comment.getD "" ++ commentLine text)) 0 (rest.tail.dropWhile (· != 0x0A))
    else if b = 0x2F && rest.head? == some 0x2A then
      match h : splitBlock rest.tail with
      | none => .error .unterminatedComment []
      | some (text, after) =>
        have : after.length ≤ rest.length :=
          Nat.le_trans (Nat.le_of_lt (splitBlock_rest h)) (by simp)
        blanksFrom (some (Blank.trim (Utf8.decodeLossy text))) 0 after
    else .ok comment (b :: rest)
termination_by s.length

def blanks : Scan (Option String) := blanksFrom none 0

end Scan

inductive Lexeme where
  | name (text : Bytes)
  | hexadecimal (text : Bytes)
  | integer (text : Bytes)
  | decimal (text : Bytes)
  | string (content : Bytes)
  | symbol (b : UInt8)
  | endOfInput
  deriving DecidableEq, Repr

namespace Scan

def fraction : Scan Bytes := do
  let point ← oneOf (· == 0x2E)
  if point.isEmpty then return []
  let digits ← run isDigit
  return point ++ digits

def exponent : Scan Bytes := do
  let mark ← oneOf fun b => b == 0x65 || b == 0x45
  if mark.isEmpty then return []
  let sign ← oneOf fun b => b == 0x2B || b == 0x2D
  let digits ← run isDigit
  if digits.isEmpty then throw .exponentWithoutDigits
  return mark ++ sign ++ digits

def number : Scan Lexeme := do
  let whole ← run isDigit
  let part ← fraction
  let power ← exponent
  if (← get).head?.any isNameStart then throw .numberRunsIntoName
  if part.isEmpty && power.isEmpty then return .integer whole
  return .decimal (whole ++ part ++ power)

def stringLiteral (quote : UInt8) : Scan Lexeme := fun s =>
  match quoted quote s with
  | .error fault s' => .error fault s'
  | .ok content s' => .ok (.string content) s'

def isSymbol (b : UInt8) : Bool :=
  ("{}[]()<>;,=.:-+/".toList.map fun c => c.toNat.toUInt8).contains b

def lexeme : Scan Lexeme := fun s =>
  match s with
  | [] => .ok .endOfInput []
  | b :: rest =>
    if isNameStart b then .ok (.name (s.takeWhile isNameByte)) (s.dropWhile isNameByte)
    else if b = 0x30 && rest.head?.any (fun x => x == 0x78 || x == 0x58) then
      let digits := rest.tail.takeWhile isHexDigit
      .ok (.hexadecimal (b :: rest.take 1 ++ digits)) (rest.tail.dropWhile isHexDigit)
    else if isDigit b || (b = 0x2E && rest.head?.any isDigit) then number s
    else if isQuote b then stringLiteral b rest
    else if isSymbol b then .ok (.symbol b) rest
    else .error (.unexpectedCharacter b) s

/-- Stops before the brace that closes `depth` open ones; string literals are passed over whole.
Depths are counted without a bound; in a text below 2 ^ 31 bytes, 32 bits suffice. -/
def closingBrace (depth : Nat) (s : Bytes) : EStateM.Result SyntaxFault Bytes Unit :=
  match s with
  | [] => .error .unterminatedAggregate []
  | b :: rest =>
    if b = 0x7B then closingBrace (depth + 1) rest
    else if b = 0x7D then if depth ≤ 1 then .ok () (b :: rest) else closingBrace (depth - 1) rest
    else if isQuote b then
      match h : quoted b rest with
      | .error fault s' => .error fault s'
      | .ok _ s' =>
        have : s'.length ≤ rest.length := Nat.le_of_lt (quoted_rest h)
        closingBrace depth s'
    else closingBrace depth rest
termination_by s.length

/-- The text up to the brace that closes an open one, without the blanks around it. -/
def bracedText : Scan String := fun s =>
  match closingBrace 1 s with
  | .error fault s' => .error fault s'
  | .ok _ s' => .ok (Blank.trim (Utf8.decodeLossy (s.take (s.length - s'.length)))) s'.tail

end Scan

namespace Lexeme

def word? (base : Nat) (digits : Bytes) : Option UInt64 :=
  (Numeral.natural? base (Scan.chars digits)).bind fun n =>
    if n < UInt64.size then some n.toUInt64 else none

/-- What an integer without a base mark is worth: base eight after a leading zero, else base ten. -/
def integer? (text : Bytes) : Option UInt64 :=
  if 1 < text.length && text.head? == some 0x30 then word? 8 text.tail else word? 10 text

def token : Lexeme → Except SyntaxFault Token
  | name text => .ok (.name (Utf8.decodeLossy text))
  | hexadecimal text =>
    let written := Utf8.decodeLossy text
    match word? 16 (text.drop 2) with
    | some value => .ok (.integer value written)
    | none => .error (.invalidHexadecimal written)
  | integer text =>
    let written := Utf8.decodeLossy text
    match integer? text with
    | some value => .ok (.integer value written)
    | none => .error (.integerLiteral written)
  | decimal text =>
    let written := Utf8.decodeLossy text
    match Double.ofText? written with
    | some value => .ok (.decimal value written)
    | none => .error (.invalidDecimal written)
  | string content => .ok (.string content)
  | symbol b => .ok (.symbol (Char.ofNat b.toNat))
  | endOfInput => .ok .endOfInput

end Lexeme

end ProtobufSchema

import Mathlib.Data.Nat.Digits.Defs
import ProtobufSchema.Assembly.Basic
import ProtobufSchema.Proofs.ReadWords

/-! What an integer literal is worth is decided by its digits alone; an option gets exactly that
integer, or nothing if its type lacks it. -/

namespace ProtobufSchema

open List Scan Parse ProtobufSchema.Tree Numeral

variable {rest u : Bytes} {type : FieldType} {p : UInt8 → Bool} {f : FieldDescriptor} {lo hi : Int}
  {ε α β : Type}

/-- The notations of integers; the mark of the last one may be a capital letter. -/
inductive Radix where
  | decimal
  | octal
  | hexadecimal (capital : Bool)
  deriving DecidableEq, Repr

namespace Radix

def base : Radix → Nat
  | decimal => 10
  | octal => 8
  | hexadecimal _ => 16

def mark : Radix → Bytes
  | decimal => []
  | octal => [0x30]
  | hexadecimal capital => [0x30, if capital then 0x58 else 0x78]

end Radix

def Numeral.digitByte (d : Nat) (capital : Bool) : UInt8 :=
  if d < 10 then .ofNat (0x30 + d) else .ofNat ((if capital then 0x41 else 0x61) + (d - 10))

/-- An integer as it is written: perhaps a sign, and digits, the first of which is no zero where
that would change the notation. -/
structure IntegerLiteral where
  sign? : Option Bool
  radix : Radix
  digits : List (Fin radix.base × Bool)
  digits_ne_nil : digits ≠ []
  head_ne_zero : radix = .decimal → 1 < digits.length → ∀ x ∈ digits.head?, x.1.val ≠ 0

namespace IntegerLiteral

def magnitude (l : IntegerLiteral) : Nat :=
  Nat.ofDigits l.radix.base (l.digits.reverse.map (·.1.val))

def value (l : IntegerLiteral) : Int := if l.sign? = some true then -l.magnitude else l.magnitude

def digitBytes (l : IntegerLiteral) : Bytes := l.digits.map fun x => Numeral.digitByte x.1 x.2

def numeral (l : IntegerLiteral) : Bytes := l.radix.mark ++ l.digitBytes

def text (l : IntegerLiteral) : Bytes :=
  l.sign?.toList.map (fun negative => if negative then 0x2D else 0x2B) ++ l.numeral

end IntegerLiteral

def Scan.Ends (rest : Bytes) : Prop := ∀ b ∈ rest.head?, isNameByte b = false ∧ b ≠ 0x2E

theorem Numeral.digitByte_cases {d : Nat} (hd : d < 16) (capital : Bool) :
    digit? (.ofNat (digitByte d capital).toNat) = some d ∧ isHexDigit (digitByte d capital) = true ∧
      (d < 10 → isDigit (digitByte d capital) = true) ∧ (digitByte d capital = 0x30 → d = 0) := by
  have hall : ∀ d < 16, ∀ capital, digit? (.ofNat (digitByte d capital).toNat) = some d ∧
      isHexDigit (digitByte d capital) = true ∧ (d < 10 → isDigit (digitByte d capital) = true) ∧
      (digitByte d capital = 0x30 → d = 0) := by
    decide
  exact hall d hd capital

theorem Scan.Ends.head_false (h : Ends rest)
    (hp : ∀ b, p b = true → isNameByte b = true) : ∀ b ∈ rest.head?, p b = false := by
  intro b hb
  by_contra hpb
  have hname := hp b (by simpa using hpb)
  rw [(h b hb).1] at hname
  cases hname

theorem Scan.Ends.any_head (h : Ends rest)
    (hp : ∀ b, p b = true → isNameByte b = true) : rest.head?.any p = false := by
  have hhead := h.head_false hp
  cases rest with
  | nil => rfl
  | cons b rest => exact hhead b rfl

theorem bind_error {σ : Type} {x : EStateM ε σ α} {f : α → EStateM ε σ β} {s s' : σ} {e : ε}
    (h : x s = .error e s') : (x >>= f) s = .error e s' := by
  simp [bind, EStateM.bind, h]

theorem Scan.blanks_spaces (n : Nat) (hu : u.head?.any isPlain = true) (rest : Bytes) :
    blanks (replicate n 0x20 ++ (u ++ rest)) = .ok none (u ++ rest) := by
  induction n with
  | zero =>
    cases u with
    | nil => cases hu
    | cons b u => exact blanks_plain hu (u ++ rest)
  | succ n ih => exact (blanks_space _).trans ih

theorem Parse.token_spaced {c : Cursor} {n : Nat} {l : Lexeme}
    (hc : c.rest = replicate n 0x20 ++ (u ++ rest)) (hu : u.head?.any isPlain = true)
    (hl : lexeme (u ++ rest) = .ok l rest) : ∃ span c', c'.rest = rest ∧
      (∀ t, l.token = .ok t → token c = .ok ⟨t, span, none⟩ c') ∧
      ∀ fault, l.token = .error fault → token c = .error ⟨span, fault⟩ c' := by
  have hblanks : scan blanks c = .ok none (c.upTo (u ++ rest)) := by
    rw [scan, hc, blanks_spaces n hu rest]
  have hc₁ := Cursor.rest_upTo hc
  rw [← hc₁] at hl
  refine ⟨(c.upTo (u ++ rest)).span, (c.upTo (u ++ rest)).upTo rest, Cursor.rest_upTo hc₁,
    fun t ht => token_of_lexeme hblanks hl ht, fun fault hfault => ?_⟩
  have hscan : scan lexeme (c.upTo (u ++ rest)) = .ok l ((c.upTo (u ++ rest)).upTo rest) := by
    rw [scan, hl]
  refine (bind_run hblanks).trans ((bind_run rfl).trans ((bind_run hscan).trans ?_))
  rw [hfault]
  rfl

namespace IntegerLiteral

variable (l : IntegerLiteral)

theorem lt_of_mem_digits (x : Fin l.radix.base × Bool) : x.1.val < 16 := by
  have hbase : l.radix.base ≤ 16 := by cases l.radix <;> simp [Radix.base]
  omega

theorem continue?_digits (ds : List (Fin l.radix.base × Bool)) (acc : Nat) :
    continue? l.radix.base acc (chars (ds.map fun x => digitByte x.1 x.2)) =
      some (acc * l.radix.base ^ ds.length +
        .ofDigits l.radix.base (ds.reverse.map (·.1.val))) := by
  induction ds generalizing acc with
  | nil => simp [chars, continue?]
  | cons x ds ih =>
    have hx : digitIn? l.radix.base (.ofNat (digitByte x.1 x.2).toNat) = some x.1.val := by
      rw [digitIn?, (digitByte_cases (l.lt_of_mem_digits x) x.2).1]
      simp
    have hvalue : .ofDigits l.radix.base ((x :: ds).reverse.map (·.1.val)) =
        .ofDigits l.radix.base (ds.reverse.map (·.1.val)) + l.radix.base ^ ds.length * x.1.val := by
      rw [reverse_cons, map_append, Nat.ofDigits_append, length_map, length_reverse]
      simp
    simp only [chars, map_cons, continue?, hx, Option.bind_some] at ih ⊢
    rw [ih, hvalue, length_cons, Option.some_inj]
    ring

theorem natural?_digits : natural? l.radix.base (chars l.digitBytes) = some l.magnitude := by
  have hvalue := l.continue?_digits l.digits 0
  obtain ⟨x, ds, hds⟩ := exists_cons_of_ne_nil l.digits_ne_nil
  rw [digitBytes, magnitude]
  rw [hds] at hvalue ⊢
  simp only [chars, map_cons, natural?] at hvalue ⊢
  rw [hvalue, zero_mul, zero_add]

theorem word?_digits : Lexeme.word? l.radix.base l.digitBytes =
    if l.magnitude < UInt64.size then some l.magnitude.toUInt64 else none := by
  rw [Lexeme.word?, l.natural?_digits, Option.bind_some]

theorem numeral_ne_nil : l.numeral ≠ [] := by simp [numeral, digitBytes, l.digits_ne_nil]

def lexeme : Lexeme :=
  match l.radix with
  | .hexadecimal _ => .hexadecimal l.numeral
  | _ => .integer l.numeral

theorem integer?_numeral (h : l.radix = .decimal ∨ l.radix = .octal) :
    Lexeme.integer? l.numeral = Lexeme.word? l.radix.base l.digitBytes := by
  have hlength : l.digitBytes.length = l.digits.length := length_map ..
  rcases h with h | h
  · have hzero : (1 < l.numeral.length && l.numeral.head? == some 0x30) = false := by
      rw [numeral, h, Radix.mark, nil_append, hlength]
      by_cases hmany : 1 < l.digits.length
      · have hhead := l.head_ne_zero h hmany
        obtain ⟨x, ds, hds⟩ := exists_cons_of_ne_nil l.digits_ne_nil
        have hx := (digitByte_cases (l.lt_of_mem_digits x) x.2).2.2.2
        simpa [digitBytes, hds] using fun _ hbyte => hhead x (by simp [hds]) (hx hbyte)
      · simp [hmany]
    rw [Lexeme.integer?, hzero, numeral, h]
    rfl
  · have hne : l.digits.length ≠ 0 := mt length_eq_zero_iff.mp l.digits_ne_nil
    rw [Lexeme.integer?, numeral, h]
    simpa [Radix.mark, Radix.base, hlength] using fun hnil => absurd hnil hne

theorem token_lexeme : ∃ text fault, l.lexeme.token =
    if l.magnitude < UInt64.size then .ok (.integer l.magnitude.toUInt64 text)
    else .error fault := by
  have hword := l.word?_digits
  rw [lexeme]
  cases hradix : l.radix with
  | hexadecimal capital =>
    rw [hradix] at hword
    refine ⟨Utf8.decodeLossy l.numeral, .invalidHexadecimal (Utf8.decodeLossy l.numeral), ?_⟩
    have hdrop : l.numeral.drop 2 = l.digitBytes := by rw [numeral, hradix]; rfl
    simp only [Lexeme.token, hdrop]
    rw [show (16 : Nat) = (Radix.hexadecimal capital).base from rfl, hword]
    by_cases hfits : l.magnitude < UInt64.size <;> simp [hfits]
  | decimal | octal =>
    refine ⟨Utf8.decodeLossy l.numeral, .integerLiteral (Utf8.decodeLossy l.numeral), ?_⟩
    simp only [Lexeme.token]
    rw [l.integer?_numeral (by simp [hradix]), hword]
    by_cases hfits : l.magnitude < UInt64.size <;> simp [hfits]

theorem isDigit_numeral (h : l.radix = .decimal ∨ l.radix = .octal) :
    ∀ b ∈ l.numeral, isDigit b = true := by
  have hbase : l.radix.base ≤ 10 := by rcases h with h | h <;> rw [h] <;> decide
  have hmark : ∀ b ∈ l.radix.mark, isDigit b = true := by
    rcases h with h | h <;> simp [h, Radix.mark, isDigit]
  intro b hb
  rcases mem_append.mp hb with hb | hb
  · exact hmark b hb
  · obtain ⟨x, -, rfl⟩ := mem_map.mp hb
    exact (digitByte_cases (l.lt_of_mem_digits x) x.2).2.2.1 (x.1.isLt.trans_le hbase)

theorem scan_numeral (hrest : Ends rest) : Scan.lexeme (l.numeral ++ rest) = .ok l.lexeme rest := by
  have hdigits : ∀ b ∈ l.digitBytes, isHexDigit b = true := by
    intro b hb
    obtain ⟨x, -, rfl⟩ := mem_map.mp hb
    exact (digitByte_cases (l.lt_of_mem_digits x) x.2).2.1
  rw [lexeme]
  cases hradix : l.radix with
  | hexadecimal capital =>
    rw [numeral, hradix]
    exact lexeme_hexadecimal (by cases capital <;> rfl) hdigits
      (hrest.head_false (by decide +kernel))
  | decimal | octal =>
    have hall := l.isDigit_numeral (by simp [hradix])
    have hfraction : fraction ([] ++ ([] ++ rest)) = .ok [] ([] ++ rest) :=
      fraction_none fun b hb => (hrest b hb).2
    have hnext : ∀ b ∈ ([] ++ ([] ++ rest)).head?, isDigit b = false :=
      hrest.head_false (by decide +kernel)
    have hnumber :=
      number_eq hall hnext hfraction (exponent_none (hrest.head_false (by decide +kernel)))
    rw [hrest.any_head (by decide +kernel)] at hnumber
    exact (lexeme_number ((startsNumber_digits l.numeral_ne_nil hall).append
      (hrest.any_head (by decide +kernel)))).trans hnumber

theorem isPlain_numeral : l.numeral.head?.any isPlain = true := by
  cases hradix : l.radix with
  | hexadecimal capital =>
    rw [numeral, hradix]
    rfl
  | decimal | octal =>
    exact (startsNumber_digits l.numeral_ne_nil (l.isDigit_numeral (by simp [hradix]))).isPlain

variable {l} {c : Cursor} {n : Nat} {rest : Bytes}

theorem token_numeral (hc : c.rest = replicate n 0x20 ++ (l.numeral ++ rest)) (hrest : Ends rest) :
    ∃ c', c'.rest = rest ∧ (l.magnitude < UInt64.size → ∃ text span,
      token c = .ok ⟨.integer l.magnitude.toUInt64 text, span, none⟩ c') ∧
      (UInt64.size ≤ l.magnitude → ∃ e, token c = .error e c') := by
  obtain ⟨span, c', hc', hok, herror⟩ := token_spaced hc l.isPlain_numeral (l.scan_numeral hrest)
  obtain ⟨text, fault, ht⟩ := l.token_lexeme
  exact ⟨c', hc', fun hfits => ⟨text, span, hok _ (by rw [ht, if_pos hfits])⟩,
    fun hlarge => ⟨_, herror fault (by rw [ht, if_neg (by omega)])⟩⟩

theorem constant_text (hc : c.rest = replicate n 0x20 ++ (l.text ++ rest)) (hrest : Ends rest) :
    ∃ c', c'.rest = rest ∧ (l.magnitude < UInt64.size → ∃ text,
      Grammar.constant c = .ok (.integer (l.sign? = some true) l.magnitude.toUInt64 text) c') ∧
      (UInt64.size ≤ l.magnitude → ∃ e, Grammar.constant c = .error e c') := by
  rw [text] at hc
  cases hsign : l.sign? with
  | none =>
    rw [hsign] at hc
    obtain ⟨c', hc', hok, herror⟩ := token_numeral hc hrest
    refine ⟨c', hc', fun hfits => ?_, fun hlarge => ?_⟩
    · obtain ⟨text, span, ht⟩ := hok hfits
      exact ⟨text, bind_run ht⟩
    · obtain ⟨e, he⟩ := herror hlarge
      exact ⟨e, bind_error he⟩
  | some negative =>
    have hsymbol : Scan.lexeme ((if negative then 0x2D else 0x2B) :: (l.numeral ++ rest)) =
        .ok (.symbol (if negative then 0x2D else 0x2B)) (l.numeral ++ rest) := by
      cases negative <;> exact lexeme_symbol rfl rfl rfl (by decide)
        fun hpoint => absurd hpoint (by decide)
    rw [hsign] at hc
    obtain ⟨signSpan, c₁, hc₁, hsigned, -⟩ :=
      token_spaced (u := [if negative then 0x2D else 0x2B]) hc (by cases negative <;> rfl) hsymbol
    obtain ⟨c', hc', hok, herror⟩ := token_numeral (n := 0) hc₁ hrest
    refine ⟨c', hc', fun hfits => ?_, fun hlarge => ?_⟩
    · obtain ⟨text, span, ht⟩ := hok hfits
      refine ⟨(if negative then "-" else "") ++ text, (bind_run (hsigned _ rfl)).trans ?_⟩
      cases negative <;> exact bind_run ht
    · obtain ⟨e, he⟩ := herror hlarge
      refine ⟨e, (bind_run (hsigned _ rfl)).trans ?_⟩
      cases negative <;> exact bind_error he

end IntegerLiteral

def FieldType.integerRange? : FieldType → Option (Int × Int)
  | .int32 | .sint32 | .sfixed32 | .enum => some (-2147483648, 2147483647)
  | .int64 | .sint64 | .sfixed64 => some (-9223372036854775808, 9223372036854775807)
  | .uint32 | .fixed32 => some (0, 4294967295)
  | .uint64 | .fixed64 => some (0, 18446744073709551615)
  | _ => none

def Value.integer? : Value → Option Int
  | .int32 v | .enum v => some v.toInt
  | .int64 v => some v.toInt
  | .uint32 v => some v.toNat
  | .uint64 v => some v.toNat
  | _ => none

/-- A computation that succeeds just where a condition holds, with an answer that has a property. -/
def SucceedsIff {ε α : Type} (p : Except ε α) (condition : Prop) (P : α → Prop) : Prop :=
  (condition → ∃ a, p = .ok a ∧ P a) ∧ (¬ condition → ∃ e, p = .error e)

theorem SucceedsIff.bind {p : Except ε α} {q : α → Except ε β} {condition : Prop} {P : α → Prop}
    {Q : β → Prop} (h : SucceedsIff p condition P)
    (hq : ∀ a, condition → P a → ∃ b, q a = .ok b ∧ Q b) : SucceedsIff (p >>= q) condition Q := by
  refine ⟨fun hc => ?_, fun hc => ?_⟩
  · obtain ⟨a, rfl, ha⟩ := h.1 hc
    exact hq a hc ha
  · obtain ⟨e, rfl⟩ := h.2 hc
    exact ⟨e, rfl⟩

namespace Literal

variable {v : Int}

def ofInt (v : Int) : Literal := .integer (v < 0) v.natAbs.toUInt64

theorem signed_ofInt (hv : v.natAbs < UInt64.size) (lo hi : Int) :
    SucceedsIff ((ofInt v).signed lo hi) (lo ≤ v ∧ v ≤ hi) (· = v) := by
  have hnat : v.natAbs.toUInt64.toNat = v.natAbs := UInt64.toNat_ofNat_of_lt' hv
  have hvalue : (if v < 0 then -(v.natAbs : Int) else v.natAbs) = v := by split <;> omega
  simp only [ofInt, signed, hnat, decide_eq_true_eq, hvalue]
  exact ⟨fun h => ⟨v, if_pos h, rfl⟩, fun h => ⟨_, if_neg h⟩⟩

theorem unsigned_ofInt (hv : v.natAbs < UInt64.size) (hi : Nat) :
    SucceedsIff ((ofInt v).unsigned hi) (0 ≤ v ∧ v ≤ hi) (fun n => (n : Int) = v) := by
  have hnat : v.natAbs.toUInt64.toNat = v.natAbs := UInt64.toNat_ofNat_of_lt' hv
  by_cases hneg : v < 0
  · refine ⟨fun h => absurd h.1 (by omega), fun _ => ⟨.negative, ?_⟩⟩
    simp [ofInt, unsigned, hneg]
  · simp only [ofInt, hneg]
    exact ⟨fun h => ⟨_, if_pos (by omega), by omega⟩,
      fun h => ⟨.outOfRange 0 hi, if_neg (by omega)⟩⟩

theorem coerce_ofInt (types : TypeLookup) (htype : f.type? = some type)
    (hrange : type.integerRange? = some (lo, hi)) (hv : v.natAbs < UInt64.size) :
    SucceedsIff ((ofInt v).coerce f types) (lo ≤ v ∧ v ≤ hi)
      (fun value => value.isScalarOf type = true ∧ value.integer? = some v) := by
  have hint32 : SucceedsIff (ofInt v).int32 (-2147483648 ≤ v ∧ v ≤ 2147483647) (·.toInt = v) :=
    (signed_ofInt hv _ _).bind fun a (h : -2147483648 ≤ v ∧ v ≤ 2147483647) ha =>
      ⟨_, rfl, by rw [ha, Int32.toInt_ofInt_of_le h.1 (by omega)]⟩
  have hint64 : SucceedsIff (ofInt v).int64 (-9223372036854775808 ≤ v ∧
      v ≤ 9223372036854775807) (·.toInt = v) :=
    (signed_ofInt hv _ _).bind fun a (h : -9223372036854775808 ≤ v ∧ v ≤ 9223372036854775807) ha =>
      ⟨_, rfl, by rw [ha, Int64.toInt_ofInt_of_le h.1 (by omega)]⟩
  have huint32 := (unsigned_ofInt hv 4294967295)
  have huint64 := (unsigned_ofInt hv 18446744073709551615)
  cases type <;> cases hrange <;> simp [coerce, htype]
  case int32 | sint32 | sfixed32 => exact hint32.bind fun a _ ha => ⟨_, rfl, rfl, congrArg some ha⟩
  case enum => exact hint32.bind fun a _ ha => ⟨_, rfl, rfl, congrArg some ha⟩
  case int64 | sint64 | sfixed64 => exact hint64.bind fun a _ ha => ⟨_, rfl, rfl, congrArg some ha⟩
  case uint32 | fixed32 =>
    refine huint32.bind fun a h ha => ⟨_, rfl, rfl, congrArg some ?_⟩
    rw [UInt32.toNat_ofNat_of_lt' (by change a < 4294967296; omega), ha]
  case uint64 | fixed64 =>
    refine huint64.bind fun a h ha => ⟨_, rfl, rfl, congrArg some ?_⟩
    rw [UInt64.toNat_ofNat_of_lt' (by change a < 18446744073709551616; omega), ha]

end Literal

theorem Tree.Assignment.raw_integer (name : List NamePart) (span : Span) (negative : Bool)
    (m : UInt64) (text : String) :
    SucceedsIff (raw ⟨name, .integer negative m text, span⟩)
      (negative = true → m.toNat ≤ 9223372036854775808)
      (fun raw => raw.aggregate = none ∧
        Literal.ofRaw? raw = some (.ofInt (if negative then -m.toNat else m.toNat))) := by
  cases negative with
  | false =>
    refine ⟨fun _ => ⟨_, rfl, rfl, ?_⟩,
      fun h => absurd (fun hneg => absurd hneg Bool.false_ne_true) h⟩
    simp [Literal.ofRaw?, Literal.ofInt]
  | true =>
    have hlt : 0x8000000000000000 < m ↔ 9223372036854775808 < m.toNat := UInt64.lt_iff_toNat_lt
    refine ⟨fun h => ⟨_, if_neg (by rw [hlt]; have := h rfl; omega), rfl, ?_⟩,
      fun h => ⟨_, if_pos ?_⟩⟩
    · have hint : (Int64.ofInt (-(m.toNat : Int))).toInt = -m.toNat :=
        Int64.toInt_ofInt_of_le (by have := h rfl; omega) (by omega)
      change some (Literal.integer (Int64.ofInt (-(m.toNat : Int)) < 0) _) = _
      simp only [Literal.ofInt, Int64.lt_iff_toInt_lt, hint, if_true, Int64.toInt_zero]
    · rw [hlt]
      simpa using h

/-- What the constant at a cursor gives an option's field: it is read, waits to be interpreted, and
is given the type of the field. -/
def OptionResolver.assigned (r : OptionResolver) (f : FieldDescriptor) (name : List NamePart)
    (span : Span) (c : Cursor) : Except (SyntaxError ⊕ BuildError) Value :=
  match Grammar.constant c with
  | .error e _ => .error (.inl e)
  | .ok value _ =>
    match Assignment.raw ⟨name, value, span⟩ with
    | .error e => .error (.inr e)
    | .ok raw => (r.value raw (some f)).mapError .inr

theorem FieldType.integerRange?_le (h : type.integerRange? = some (lo, hi)) :
    -9223372036854775808 ≤ lo ∧ hi ≤ 18446744073709551615 := by
  cases type <;> cases h <;> decide

theorem OptionResolver.value_integer (r : OptionResolver) {v : Int} {raw : RawOption}
    (htype : f.type? = some type) (hrange : type.integerRange? = some (lo, hi))
    (hv : v.natAbs < UInt64.size) (haggregate : raw.aggregate = none)
    (hraw : Literal.ofRaw? raw = some (.ofInt v)) :
    SucceedsIff (r.value raw (some f)) (lo ≤ v ∧ v ≤ hi)
      (fun value => value.isScalarOf type = true ∧ value.integer? = some v) := by
  obtain ⟨hok, herror⟩ := Literal.coerce_ofInt r.pool.types htype hrange hv
  simp only [value, haggregate, hraw]
  refine ⟨fun h => ?_, fun h => ?_⟩
  · obtain ⟨value, hvalue, hexact⟩ := hok h
    exact ⟨value, by rw [hvalue], hexact⟩
  · obtain ⟨e, he⟩ := herror h
    exact ⟨_, by rw [he]⟩

/-- An option of an integer type gets exactly the integer that a literal is worth, and nothing at
all where its type lacks that integer. -/
theorem IntegerLiteral.assigned_text (l : IntegerLiteral) (r : OptionResolver) {f : FieldDescriptor}
    {type : FieldType} {lo hi : Int} (htype : f.type? = some type)
    (hrange : type.integerRange? = some (lo, hi)) (name : List NamePart) (span : Span) {c : Cursor}
    {n : Nat} {rest : Bytes} (hc : c.rest = List.replicate n 0x20 ++ (l.text ++ rest))
    (hrest : Ends rest) :
    SucceedsIff (r.assigned f name span c) (lo ≤ l.value ∧ l.value ≤ hi)
      (fun v => v.isScalarOf type = true ∧ v.integer? = some l.value) := by
  obtain ⟨hlo, hhi⟩ := FieldType.integerRange?_le hrange
  obtain ⟨c', -, hok, herror⟩ := constant_text hc hrest
  rw [OptionResolver.assigned]
  by_cases hlarge : UInt64.size ≤ l.magnitude
  · have hout : ¬ (lo ≤ l.value ∧ l.value ≤ hi) := by
      change 18446744073709551616 ≤ l.magnitude at hlarge
      rw [value]
      split <;> omega
    obtain ⟨e, he⟩ := herror hlarge
    exact ⟨fun h => absurd h hout, fun _ => ⟨.inl e, by rw [he]⟩⟩
  · obtain ⟨text, htext⟩ := hok (by omega)
    have hnat : l.magnitude.toUInt64.toNat = l.magnitude := UInt64.toNat_ofNat_of_lt' (by omega)
    have hvalue : l.value.natAbs < UInt64.size := by
      rw [value]
      split <;> omega
    obtain ⟨hraw, hrefused⟩ :=
      Assignment.raw_integer name span (l.sign? = some true) l.magnitude.toUInt64 text
    simp only [hnat, decide_eq_true_eq, htext] at hraw hrefused ⊢
    rw [← value] at hraw
    by_cases hwide : l.sign? = some true → l.magnitude ≤ 9223372036854775808
    · obtain ⟨raw, hraw, haggregate, hliteral⟩ := hraw hwide
      obtain ⟨hok, herror⟩ := r.value_integer htype hrange hvalue haggregate hliteral
      refine ⟨fun h => ?_, fun h => ?_⟩
      · obtain ⟨v, hv, hexact⟩ := hok h
        exact ⟨v, by simp only [hraw, hv, Except.mapError], hexact⟩
      · obtain ⟨e, he⟩ := herror h
        exact ⟨.inr e, by simp only [hraw, he, Except.mapError]⟩
    · have hout : ¬ (lo ≤ l.value ∧ l.value ≤ hi) := by
        rw [Classical.not_imp] at hwide
        rw [value, if_pos hwide.1]
        omega
      obtain ⟨e, he⟩ := hrefused hwide
      exact ⟨fun h => absurd h hout, fun _ => ⟨.inr e, by rw [he]⟩⟩

namespace LeastInteger

def literal : IntegerLiteral where
  sign? := some true
  radix := .hexadecimal true
  digits := (⟨8, by decide⟩, false) :: List.replicate 15 (⟨0, by decide⟩, false)
  digits_ne_nil := by simp
  head_ne_zero := by simp

def width : FieldDescriptor where
  name? := some "width"
  type? := some .sint64

def resolver : OptionResolver where
  pool := .full (.link {} [])
  registry := .empty
  asExtensions := true
  file := "a.proto"

theorem assigned_leastInteger : ∃ v, resolver.assigned width [⟨"width", false⟩] ⟨1, 1⟩
      (.ofText "  -0X8000000000000000;") = .ok v ∧ v.integer? = some (-9223372036854775808) := by
  have hvalue : literal.value = -9223372036854775808 := by decide
  have hc : (Cursor.ofText "  -0X8000000000000000;").rest =
      List.replicate 2 0x20 ++ (literal.text ++ [0x3B]) := by decide +kernel
  obtain ⟨v, hv, -, hexact⟩ :=
    (literal.assigned_text resolver (f := width) rfl rfl [⟨"width", false⟩] ⟨1, 1⟩ hc
    (by simp [Scan.Ends]; decide)).1 (by rw [hvalue]; decide)
  exact ⟨v, hv, by rw [hexact, hvalue]⟩

end LeastInteger

end ProtobufSchema

import ProtobufSchema.Proofs.EnclosedTexts

/-! A word spells a token if it is read as that token wherever a space follows or the text ends.
Every token that was read is spelled by its own word. -/

namespace ProtobufSchema

open List Utf8

variable {l : Lexeme} {t : Token}
variable {text : Bytes} {b : UInt8}
variable {whole power part s' digits : Bytes} {p : UInt8 → Bool} {c' c : Cursor} {x : UInt8}

namespace Scan

variable {s part s' t power whole : Bytes}
variable {rest : Bytes}

def Stops (r : Bytes) : Prop := ∀ b ∈ r.head?, b = 0x20

theorem Stops.head_false {r : Bytes} (h : Stops r) (hp : p 0x20 = false) :
    ∀ b ∈ r.head?, p b = false := fun b hb => (h b hb).symm ▸ hp

section Runs

variable {p : UInt8 → Bool} {ds : Bytes}

theorem takeWhile_run (hds : ∀ d ∈ ds, p d = true) (ht : ∀ b ∈ t.head?, p b = false) :
    (ds ++ t).takeWhile p = ds := by
  have htail : t.takeWhile p = [] := by
    cases t with
    | nil => rfl
    | cons b t => simp [ht b rfl]
  rw [takeWhile_append_of_pos hds, htail, append_nil]

theorem dropWhile_run (hds : ∀ d ∈ ds, p d = true) (ht : ∀ b ∈ t.head?, p b = false) :
    (ds ++ t).dropWhile p = t := by
  have htail : t.dropWhile p = t := by
    cases t with
    | nil => rfl
    | cons b t => simp [ht b rfl]
  rw [dropWhile_append_of_pos hds, htail]

theorem forall_mem_takeWhile (s : Bytes) : ∀ b ∈ s.takeWhile p, p b = true :=
  fun _ hb => mem_takeWhile_imp hb

end Runs

def IsFraction (part : Bytes) : Prop :=
  part = [] ∨ ∃ ds, part = 0x2E :: ds ∧ ∀ d ∈ ds, isDigit d = true

def IsExponent (power : Bytes) : Prop :=
  power = [] ∨ ∃ mark sign ds, power = mark :: (sign ++ ds) ∧ (mark = 0x65 ∨ mark = 0x45) ∧
    (sign = [] ∨ sign = [0x2B] ∨ sign = [0x2D]) ∧ ds ≠ [] ∧ ∀ d ∈ ds, isDigit d = true

theorem fraction_none (h : ∀ b ∈ s.head?, b ≠ 0x2E) : fraction s = .ok [] s := by
  cases s with
  | nil => rfl
  | cons b rest =>
    have hb : (b == 0x2E) = false := beq_eq_false_iff_ne.mpr (h b rfl)
    simp only [fraction, bind, EStateM.bind, oneOf, upTo, take_succ_cons, takeWhile_cons, hb]
    rfl

theorem fraction_point (rest : Bytes) :
    fraction (0x2E :: rest) = .ok (0x2E :: rest.takeWhile isDigit) (rest.dropWhile isDigit) := rfl

theorem fraction_cases (h : fraction s = .ok part s') : s = part ++ s' ∧ IsFraction part := by
  by_cases hs : ∀ b ∈ s.head?, b ≠ 0x2E
  · rw [fraction_none hs] at h
    cases h
    exact ⟨rfl, .inl rfl⟩
  · simp only [not_forall, not_not] at hs
    obtain ⟨_, hhead, rfl⟩ := hs
    obtain ⟨rest, rfl⟩ := head?_eq_some_iff.mp hhead
    rw [fraction_point] at h
    cases h
    refine ⟨?_, .inr ⟨rest.takeWhile isDigit, rfl, forall_mem_takeWhile rest⟩⟩
    rw [cons_append, takeWhile_append_dropWhile]

theorem fraction_append (h : IsFraction part) (ht : ∀ b ∈ t.head?, b ≠ 0x2E ∧ isDigit b = false) :
    fraction (part ++ t) = .ok part t := by
  rcases h with rfl | ⟨ds, rfl, hds⟩
  · exact fraction_none fun b hb => (ht b hb).1
  · have hdigits : ∀ b ∈ t.head?, isDigit b = false := fun b hb => (ht b hb).2
    rw [cons_append, fraction_point, takeWhile_run hds hdigits, dropWhile_run hds hdigits]

def isMark (b : UInt8) : Bool := b == 0x65 || b == 0x45

def isSign (b : UInt8) : Bool := b == 0x2B || b == 0x2D

theorem exponent_none (h : ∀ b ∈ s.head?, isMark b = false) : exponent s = .ok [] s := by
  cases s with
  | nil => rfl
  | cons b rest =>
    have hb : (b == 0x65 || b == 0x45) = false := h b rfl
    simp only [exponent, bind, EStateM.bind, oneOf, upTo, take_succ_cons, takeWhile_cons, hb]
    rfl

theorem exponent_mark {mark : UInt8} (hmark : isMark mark = true) {sign : Bytes}
    (hsign : oneOf isSign (sign ++ rest) = .ok sign rest) : exponent (mark :: (sign ++ rest)) =
      if (rest.takeWhile isDigit).isEmpty then .error .exponentWithoutDigits
        (rest.dropWhile isDigit)
      else .ok (mark :: (sign ++ rest.takeWhile isDigit)) (rest.dropWhile isDigit) := by
  have hfirst : oneOf isMark (mark :: (sign ++ rest)) = .ok [mark] (sign ++ rest) := by
    simp [oneOf, upTo, hmark]
  refine (bind_run hfirst).trans ?_
  refine (bind_run hsign).trans ((bind_run rfl).trans ?_)
  by_cases hempty : (rest.takeWhile isDigit).isEmpty = true
  · rw [if_pos hempty, if_pos hempty]
    rfl
  · rw [if_neg hempty, if_neg hempty]
    rfl

theorem oneOf_isSign (s : Bytes) : ∃ sign rest, s = sign ++ rest ∧
    oneOf isSign (sign ++ rest) = .ok sign rest ∧ (sign = [] ∨ sign = [0x2B] ∨ sign = [0x2D]) := by
  cases s with
  | nil => exact ⟨[], [], rfl, rfl, .inl rfl⟩
  | cons b rest =>
    by_cases hb : isSign b = true
    · refine ⟨[b], rest, rfl, by simp [oneOf, upTo, hb], ?_⟩
      simpa [isSign] using hb
    · exact ⟨[], b :: rest, rfl, by simp [oneOf, upTo, hb], .inl rfl⟩

theorem exponent_cases (h : exponent s = .ok power s') : s = power ++ s' ∧ IsExponent power := by
  by_cases hs : ∀ b ∈ s.head?, isMark b = false
  · rw [exponent_none hs] at h
    cases h
    exact ⟨rfl, .inl rfl⟩
  · simp only [not_forall, Bool.not_eq_false] at hs
    obtain ⟨mark, hhead, hmark⟩ := hs
    obtain ⟨more, rfl⟩ := head?_eq_some_iff.mp hhead
    obtain ⟨sign, rest, rfl, hsign, hshape⟩ := oneOf_isSign more
    rw [exponent_mark hmark hsign] at h
    by_cases hempty : (rest.takeWhile isDigit).isEmpty = true
    · rw [if_pos hempty] at h
      cases h
    · rw [if_neg hempty] at h
      cases h
      refine ⟨?_,
        .inr ⟨mark, sign, rest.takeWhile isDigit, rfl, ?_, hshape, ?_, forall_mem_takeWhile rest⟩⟩
      · rw [cons_append, append_assoc, takeWhile_append_dropWhile]
      · simpa [isMark] using hmark
      · simpa using hempty

theorem isSign_of_isDigit (h : isDigit b = true) : isSign b = false := by
  decide +kernel +revert

theorem exponent_append (h : IsExponent power)
    (ht : ∀ b ∈ t.head?, isMark b = false ∧ isDigit b = false) :
    exponent (power ++ t) = .ok power t := by
  rcases h with rfl | ⟨mark, sign, ds, rfl, hmark, hshape, hne, hds⟩
  · exact exponent_none fun b hb => (ht b hb).1
  · have hdigits : ∀ b ∈ t.head?, isDigit b = false := fun b hb => (ht b hb).2
    have hmark : isMark mark = true := by simpa [isMark] using hmark
    have hsign : oneOf isSign (sign ++ (ds ++ t)) = .ok sign (ds ++ t) := by
      rcases hshape with rfl | rfl | rfl
      · obtain ⟨d, ds, rfl⟩ := exists_cons_of_ne_nil hne
        have hd := isSign_of_isDigit (hds d mem_cons_self)
        simp [oneOf, upTo, hd]
      · rfl
      · rfl
    have hexp := exponent_mark hmark hsign
    rw [takeWhile_run hds hdigits, dropWhile_run hds hdigits, if_neg (by simpa using hne)] at hexp
    rwa [cons_append, append_assoc]

def numberLexeme (whole part power : Bytes) : Lexeme :=
  if part.isEmpty && power.isEmpty then .integer whole else .decimal (whole ++ part ++ power)

theorem number_eq (hwhole : ∀ d ∈ whole, isDigit d = true)
    (hnext : ∀ b ∈ (part ++ (power ++ rest)).head?, isDigit b = false)
    (hpart : fraction (part ++ (power ++ rest)) = .ok part (power ++ rest))
    (hpower : exponent (power ++ rest) = .ok power rest) :
    number (whole ++ (part ++ (power ++ rest))) =
      if rest.head?.any isNameStart then .error .numberRunsIntoName rest
      else .ok (numberLexeme whole part power) rest := by
  have hrun : run isDigit (whole ++ (part ++ (power ++ rest))) =
      .ok whole (part ++ (power ++ rest)) := by
    rw [run, takeWhile_run hwhole hnext, dropWhile_run hwhole hnext]
  refine (bind_run hrun).trans
    ((bind_run hpart).trans ((bind_run hpower).trans ((bind_run rfl).trans ?_)))
  by_cases hname : (head? rest).any isNameStart = true
  · simp only [hname]
    rfl
  · simp only [hname, numberLexeme]
    by_cases hempty : (part.isEmpty && power.isEmpty) = true
    · simp only [hempty]
      rfl
    · simp only [hempty]
      rfl

theorem head_power (h : IsExponent power) (ht : Stops t) :
    ∀ b ∈ (power ++ t).head?, b ≠ 0x2E ∧ isDigit b = false := by
  intro b hb
  rcases h with rfl | ⟨mark, sign, ds, rfl, hmark, -⟩
  · rw [ht b hb]
    decide
  · cases hb
    rcases hmark with rfl | rfl <;> decide

theorem head_part (hpart : IsFraction part) (hpower : IsExponent power) (ht : Stops t) :
    ∀ b ∈ (part ++ (power ++ t)).head?, isDigit b = false := by
  rcases hpart with rfl | ⟨ds, rfl, -⟩
  · exact fun b hb => (head_power hpower ht b hb).2
  · rintro b ⟨⟩
    decide

theorem number_append (hwhole : ∀ d ∈ whole, isDigit d = true) (hpart : IsFraction part)
    (hpower : IsExponent power) (ht : Stops t) :
    number (whole ++ (part ++ (power ++ t))) = .ok (numberLexeme whole part power) t := by
  have hfraction := fraction_append hpart (head_power hpower ht)
  have hexponent := exponent_append hpower fun b hb => by rw [ht b hb]; decide
  have hname : ¬(t.head?.any isNameStart = true) := by
    cases t with
    | nil => decide
    | cons b t =>
      rw [ht b rfl]
      exact Bool.false_ne_true
  rw [number_eq hwhole (head_part hpart hpower ht) hfraction hexponent, if_neg hname]

theorem number_cases (h : number s = .ok l s') :
    ∃ whole part power, s = whole ++ (part ++ (power ++ s')) ∧ (∀ d ∈ whole, isDigit d = true) ∧
      (∀ b ∈ (part ++ (power ++ s')).head?, isDigit b = false) ∧ IsFraction part ∧
      IsExponent power ∧
      fraction (part ++ (power ++ s')) = .ok part (power ++ s') ∧
      l = numberLexeme whole part power := by
  obtain ⟨whole, s₁, hwhole, h₁⟩ := bind_ok h
  obtain ⟨part, s₂, hpart, h₂⟩ := bind_ok h₁
  obtain ⟨power, s₃, hpower, -⟩ := bind_ok h₂
  obtain ⟨rfl, rfl⟩ : whole = s.takeWhile isDigit ∧ s₁ = s.dropWhile isDigit := by
    cases hwhole
    exact ⟨rfl, rfl⟩
  obtain ⟨hs₁, hfraction⟩ := fraction_cases hpart
  obtain ⟨rfl, hexponent⟩ := exponent_cases hpower
  have hs : s = s.takeWhile isDigit ++ (part ++ (power ++ s₃)) := by
    rw [← hs₁, takeWhile_append_dropWhile]
  have hnext : ∀ b ∈ (s.dropWhile isDigit).head?, isDigit b = false := by
    intro b hb
    have := head?_dropWhile_not isDigit s
    rwa [Option.mem_def.mp hb] at this
  rw [hs₁] at hpart hnext
  have heq := number_eq (forall_mem_takeWhile s) hnext hpart hpower
  rw [← hs, h] at heq
  split at heq
  · cases heq
  · cases heq
    exact ⟨_, part, power, hs, forall_mem_takeWhile s, hnext, hfraction, hexponent, hpart, rfl⟩

def isNumberByte (b : UInt8) : Bool := isDigit b || b == 0x2E || isMark b || isSign b

theorem isNumberByte_of_mem (hwhole : ∀ d ∈ whole, isDigit d = true) (hpart : IsFraction part)
    (hpower : IsExponent power) : ∀ b ∈ whole ++ (part ++ power), isNumberByte b = true := by
  have hdigit (b : UInt8) (h : isDigit b = true) : isNumberByte b = true := by
    simp [isNumberByte, h]
  intro b hb
  rcases mem_append.mp hb with hb | hb
  · exact hdigit b (hwhole b hb)
  rcases mem_append.mp hb with hb | hb
  · rcases hpart with rfl | ⟨ds, rfl, hds⟩
    · cases hb
    · rcases mem_cons.mp hb with rfl | hb
      · rfl
      · exact hdigit b (hds b hb)
  · rcases hpower with rfl | ⟨mark, sign, ds, rfl, hmark, hsign, -, hds⟩
    · cases hb
    · rcases mem_cons.mp hb with rfl | hb
      · rcases hmark with rfl | rfl <;> rfl
      · rcases mem_append.mp hb with hb | hb
        · rcases hsign with rfl | rfl | rfl
          · cases hb
          · rw [mem_singleton.mp hb]; rfl
          · rw [mem_singleton.mp hb]; rfl
        · exact hdigit b (hds b hb)

def isPlain (b : UInt8) : Bool := !(b == 0x0A || b == 0x20 || b == 0x09 || b == 0x0D || b == 0x2F)

theorem blanks_plain (h : isPlain b = true) (s : Bytes) : blanks (b :: s) = .ok none (b :: s) := by
  simp only [isPlain, Bool.not_eq_true', Bool.or_eq_false_iff, beq_eq_false_iff_ne] at h
  obtain ⟨⟨⟨⟨hn, hs⟩, ht⟩, hr⟩, hc⟩ := h
  rw [blanks, blanksFrom.eq_def]
  simp [hn, hs, ht, hr, hc]

theorem blanks_space (s : Bytes) : blanks (0x20 :: s) = blanks s := by
  rw [blanks, blanksFrom.eq_def]
  simp

end Scan

open Scan

/-- A word that is read as a token wherever a space follows it or the text ends. -/
structure Spells (w : String) (t : Token) : Prop where
  blanks : ∀ r, Stops r → blanks (encode w ++ r) = .ok none (encode w ++ r)
  lexeme : ∀ r, Stops r → ∃ l, lexeme (encode w ++ r) = .ok l r ∧ l.token = .ok t

theorem spells_of_lexeme (hascii : ∀ b ∈ text, b < 0x80)
    (hplain : text.head?.any isPlain = true) (hread : ∀ r, Stops r → lexeme (text ++ r) = .ok l r)
    (ht : l.token = .ok t) : Spells (decodeLossy text) t := by
  constructor
  · intro r _
    rw [encode_decodeLossy hascii]
    cases text with
    | nil => cases hplain
    | cons b text => exact blanks_plain hplain _
  · intro r hr
    rw [encode_decodeLossy hascii]
    exact ⟨l, hread r hr, ht⟩

namespace Scan

variable {r : Bytes}

theorem isPlain_of_isNameByte (h : isNameByte b = true) : isPlain b = true := by
  decide +kernel +revert

theorem lexeme_name (hstart : text.head?.any isNameStart = true)
    (hall : ∀ b ∈ text, isNameByte b = true) (hr : Stops r) :
    lexeme (text ++ r) = .ok (.name text) r := by
  have hnext := hr.head_false (p := isNameByte) (by decide)
  cases text with
  | nil => cases hstart
  | cons b text =>
    have hb : isNameStart b = true := hstart
    have htake := takeWhile_run hall hnext
    have hdrop := dropWhile_run hall hnext
    rw [cons_append] at htake hdrop
    simp [lexeme, hb, htake, hdrop]

theorem lexeme_hexadecimal (hx : (x == 0x78 || x == 0x58) = true)
    (hdigits : ∀ d ∈ digits, isHexDigit d = true) (hnext : ∀ b ∈ r.head?, isHexDigit b = false) :
    lexeme (0x30 :: x :: digits ++ r) = .ok (.hexadecimal (0x30 :: x :: digits)) r := by
  have htake := takeWhile_run hdigits hnext
  have hdrop := dropWhile_run hdigits hnext
  have hstart : isNameStart 0x30 = false := by decide
  simp [lexeme, hstart, hx, htake, hdrop]

def isHexMark (b : UInt8) : Bool := b == 0x78 || b == 0x58

/-- How a number begins: with a digit that is not the zero of a base mark, or with a point and a
digit. -/
def StartsNumber (text : Bytes) : Prop :=
  ∃ b rest, text = b :: rest ∧ (b = 0x30 && rest.head?.any isHexMark) = false ∧
    (isDigit b || (b = 0x2E && rest.head?.any isDigit)) = true

theorem not_isNameStart_of_isDigit (h : isDigit b = true) : isNameStart b = false := by
  decide +kernel +revert

theorem Stops.any_head (h : Stops r) (hp : p 0x20 = false) : r.head?.any p = false := by
  cases r with
  | nil => rfl
  | cons b r =>
    rw [h b rfl]
    exact hp

theorem StartsNumber.append (h : StartsNumber text) (hr : r.head?.any isHexMark = false) :
    StartsNumber (text ++ r) := by
  obtain ⟨b, rest, rfl, hmark, hstart⟩ := h
  refine ⟨b, rest ++ r, rfl, ?_⟩
  cases rest with
  | nil =>
    have hb : isDigit b = true := by simpa using hstart
    rw [nil_append, hr, hb]
    simp
  | cons x rest => exact ⟨hmark, hstart⟩

theorem lexeme_number {s : Bytes} (h : StartsNumber s) : lexeme s = number s := by
  obtain ⟨b, rest, rfl, hmark, hstart⟩ := h
  have hname : isNameStart b = false := by
    rw [Bool.or_eq_true] at hstart
    rcases hstart with hb | hb
    · exact not_isNameStart_of_isDigit hb
    · simp only [Bool.and_eq_true, decide_eq_true_eq] at hb
      rw [hb.1]
      decide
  have hmark : (b = 0x30 && rest.head?.any fun x => x == 0x78 || x == 0x58) = false := hmark
  simp only [lexeme, hname, hmark, hstart]
  rfl

theorem startsNumber_of_append (hwhole : ∀ d ∈ whole, isDigit d = true)
    (hnext : ∀ b ∈ (part ++ (power ++ s')).head?, isDigit b = false) (hpart : IsFraction part)
    (hfraction : fraction (part ++ (power ++ s')) = .ok part (power ++ s'))
    (h : StartsNumber (whole ++ (part ++ (power ++ s')))) :
    StartsNumber (whole ++ (part ++ power)) := by
  obtain ⟨b, rest, hs, hmark, hstart⟩ := h
  cases whole with
  | cons d whole =>
    rw [cons_append] at hs
    obtain ⟨rfl, rfl⟩ := cons.inj hs
    refine ⟨d, whole ++ (part ++ power), rfl, ?_, by rw [hwhole d mem_cons_self]; rfl⟩
    rw [← append_assoc part, ← append_assoc whole] at hmark
    cases hrest : whole ++ (part ++ power) with
    | nil => simp
    | cons x rest =>
      rw [hrest] at hmark
      exact hmark
  | nil =>
    -- Without digits in front there is a point, and the digit after it is part of the number.
    rw [nil_append] at hs ⊢
    have hb : isDigit b = false := hnext b (by rw [hs]; rfl)
    rw [hb, Bool.false_or, Bool.and_eq_true, decide_eq_true_eq] at hstart
    obtain ⟨rfl, hdigit⟩ := hstart
    rw [hs, fraction_point] at hfraction
    rcases hpart with rfl | ⟨ds, rfl, hds⟩
    · cases hfraction
    · obtain ⟨-, rfl⟩ := cons.inj hs
      cases ds with
      | nil =>
        cases hrest : power ++ s' with
        | nil => simp [hrest] at hdigit
        | cons x rest =>
          have hx : isDigit x = true := by simpa [hrest] using hdigit
          simp [hrest, hx] at hfraction
      | cons d ds => exact ⟨0x2E, d :: ds ++ power, rfl, rfl, by simp [hds d mem_cons_self]⟩

theorem lexeme_cases {s : Bytes} (h : lexeme s = .ok l s') : (s = [] ∧ l = .endOfInput) ∨
    (s.head?.any isNameStart = true ∧ l = .name (s.takeWhile isNameByte) ∧
      s' = s.dropWhile isNameByte) ∨
    (∃ x rest, s = 0x30 :: x :: rest ∧ isHexMark x = true ∧
      l = .hexadecimal (0x30 :: x :: rest.takeWhile isHexDigit) ∧ s' = rest.dropWhile isHexDigit) ∨
    (StartsNumber s ∧ number s = .ok l s') ∨
    (∃ b rest content, s = b :: rest ∧ isQuote b = true ∧ quoted b rest = .ok content s' ∧
      l = .string content) ∨
    ∃ b, isSymbol b = true ∧ l = .symbol b ∧ s = b :: s' := by
  unfold lexeme at h
  split at h
  · cases h
    exact .inl ⟨rfl, rfl⟩
  rename_i b rest
  split at h
  · rename_i hname
    cases h
    exact .inr (.inl ⟨hname, rfl, rfl⟩)
  split at h
  · rename_i hmark
    cases h
    simp only [Bool.and_eq_true, decide_eq_true_eq] at hmark
    obtain ⟨rfl, hx⟩ := hmark
    cases rest with
    | nil => cases hx
    | cons x rest => exact .inr (.inr (.inl ⟨x, rest, rfl, hx, rfl, rfl⟩))
  rename_i hmark
  split at h
  · rename_i hstart
    exact .inr (.inr (.inr (.inl ⟨⟨b, rest, rfl, (Bool.not_eq_true _).mp hmark, hstart⟩, h⟩)))
  split at h
  · rename_i hquote
    unfold stringLiteral at h
    split at h
    · cases h
    · rename_i hquoted
      cases h
      exact .inr (.inr (.inr (.inr (.inl ⟨b, rest, _, rfl, hquote, hquoted, rfl⟩))))
  split at h
  · rename_i hsymbol
    cases h
    exact .inr (.inr (.inr (.inr (.inr ⟨b, hsymbol, rfl, rfl⟩))))
  · cases h

theorem isSymbol_cases (h : isSymbol b = true) : isNameStart b = false ∧
    isDigit b = false ∧ isQuote b = false ∧ b < 0x80 ∧ (b ≠ 0x2F → isPlain b = true) := by
  decide +kernel +revert

theorem blanks_slash (hr : Stops r) : blanks (0x2F :: r) = .ok none (0x2F :: r) := by
  have hnext (b : UInt8) (hb : b ≠ 0x20) : r.head? ≠ some b := fun h => hb (hr b h)
  rw [blanks, blanksFrom.eq_def]
  simp [hnext 0x2F (by decide), hnext 0x2A (by decide)]

theorem lexeme_symbol (hname : isNameStart b = false) (hdigit : isDigit b = false)
    (hquote : isQuote b = false) (hsymbol : isSymbol b = true)
    (hr : b = 0x2E → r.head?.any isDigit = false) : lexeme (b :: r) = .ok (.symbol b) r := by
  have hzero : b ≠ 0x30 := by
    rintro rfl
    cases hdigit
  have hpoint : (isDigit b || (b = 0x2E && r.head?.any isDigit)) = false := by
    by_cases hb : b = 0x2E
    · simp [hdigit, hr hb]
    · simp [hdigit, hb]
  simp only [lexeme, hname, hzero, hpoint, hquote, hsymbol]
  rfl

end Scan

theorem spells_symbolByte (h : isSymbol b = true) :
    Spells (Char.ofNat b.toNat).toString (.symbol (.ofNat b.toNat)) := by
  obtain ⟨hname, hdigit, hquote, hascii, hplain⟩ := isSymbol_cases h
  have hbytes : encode (Char.ofNat b.toNat).toString = [b] := by
    rw [encode_eq, Char.toString, String.toList_singleton, encodeChars_cons,
      encodeChar_ofNat hascii]
    rfl
  constructor
  · intro r hr
    rw [hbytes]
    by_cases hslash : b = 0x2F
    · rw [hslash]
      exact blanks_slash hr
    · exact blanks_plain (hplain hslash) r
  · intro r hr
    rw [hbytes]
    exact ⟨.symbol b, lexeme_symbol hname hdigit hquote h fun _ => hr.any_head (by decide), rfl⟩

theorem spells_literal (content : Bytes) : Spells (Escape.literal content) (.string content) := by
  have hbytes (r : Bytes) : encode (Escape.literal content) ++ r =
      0x22 :: (encode (Escape.bytes content) ++ 0x22 :: r) := by
    rw [Escape.literal, encode_append, append_assoc]
    rfl
  constructor
  · intro r _
    exact blanks_plain (by decide) _
  · intro r _
    rw [hbytes]
    refine ⟨.string content, ?_, rfl⟩
    simp only [lexeme, stringLiteral, quoted_bytes]
    rfl

/-- Names, numbers and symbols are written as they were read, and strings in one notation. -/
def Token.word : Token → String
  | name word => word
  | integer _ text | decimal _ text => text
  | string content => Escape.literal content
  | symbol c => c.toString
  | endOfInput => ""

structure IsWord (s : String) : Prop where
  spells : Spells s (.name s)
  segment : Name.IsSegment s

def Token.IsSpelled : Token → Prop
  | .endOfInput => True
  | .name s => IsWord s
  | t => Spells t.word t

theorem isSpelled_of_spells (hspells : ∀ t, l.token = .ok t → Spells (decodeLossy text) t)
    (hl : l = .hexadecimal text ∨ l = .integer text ∨ l = .decimal text)
    (ht : l.token = .ok t) : t.IsSpelled := by
  have hspells := hspells t ht
  rcases hl with rfl | rfl | rfl
  all_goals
    simp only [Lexeme.token] at ht
    split at ht <;> cases ht
    exact hspells

theorem isSpelled_name (hstart : text.head?.any isNameStart = true)
    (hall : ∀ b ∈ text, isNameByte b = true) (ht : (Lexeme.name text).token = .ok t) :
    t.IsSpelled := by
  have hplain : text.head?.any isPlain = true := by
    cases text with
    | nil => cases hstart
    | cons b text => exact isPlain_of_isNameByte (hall b mem_cons_self)
  have hspells := spells_of_lexeme (fun b hb => (ne_dot_of_isNameByte b (hall b hb)).1) hplain
    (fun r hr => lexeme_name hstart hall hr) ht
  cases ht
  exact ⟨hspells, isSegment_decodeLossy (by rintro rfl; cases hstart) hall⟩

theorem isSpelled_hexadecimal (hx : isHexMark x = true)
    (hdigits : ∀ d ∈ digits, isHexDigit d = true)
    (ht : (Lexeme.hexadecimal (0x30 :: x :: digits)).token = .ok t) : t.IsSpelled := by
  have hascii : ∀ b ∈ 0x30 :: x :: digits, b < 0x80 := by
    have hx : x < 0x80 := by
      simp only [isHexMark, Bool.or_eq_true, beq_iff_eq] at hx
      rcases hx with rfl | rfl <;> decide
    simpa [hx] using fun b hb => lt_of_isHexDigit (hdigits b hb)
  exact isSpelled_of_spells (fun t => spells_of_lexeme hascii rfl
    fun r hr => lexeme_hexadecimal hx hdigits (hr.head_false (by decide)))
    (.inl rfl) ht

theorem Scan.StartsNumber.isPlain (h : StartsNumber text) : text.head?.any isPlain = true := by
  obtain ⟨b, rest, rfl, -, hstart⟩ := h
  rw [Bool.or_eq_true] at hstart
  rcases hstart with hb | hb
  · exact isPlain_of_isNameByte (by simp [isNameByte, hb])
  · simp only [Bool.and_eq_true, decide_eq_true_eq] at hb
    rw [hb.1]
    rfl

theorem spells_number (hwhole : ∀ d ∈ whole, isDigit d = true) (hpart : IsFraction part)
    (hpower : IsExponent power) (hstart : StartsNumber (whole ++ (part ++ power)))
    (ht : (numberLexeme whole part power).token = .ok t) :
    Spells (decodeLossy (whole ++ (part ++ power))) t := by
  have hascii : ∀ b, isNumberByte b = true → b < 0x80 := by decide +kernel
  refine spells_of_lexeme (fun b hb => hascii b (isNumberByte_of_mem hwhole hpart hpower b hb))
    hstart.isPlain (fun r hr => ?_) ht
  rw [lexeme_number (hstart.append (hr.any_head (by decide))), append_assoc, append_assoc,
    number_append hwhole hpart hpower hr]

theorem isSpelled_number (hwhole : ∀ d ∈ whole, isDigit d = true) (hpart : IsFraction part)
    (hpower : IsExponent power) (hstart : StartsNumber (whole ++ (part ++ power)))
    (ht : (numberLexeme whole part power).token = .ok t) : t.IsSpelled := by
  refine isSpelled_of_spells (fun t => spells_number hwhole hpart hpower hstart) ?_ ht
  unfold numberLexeme
  split
  · rename_i hempty
    rw [Bool.and_eq_true, List.isEmpty_iff, List.isEmpty_iff] at hempty
    rw [hempty.1, hempty.2]
    simp
  · simp

theorem Lexeme.token_isSpelled {s : Bytes} (h : lexeme s = .ok l s') (ht : l.token = .ok t) :
    t.IsSpelled := by
  rcases lexeme_cases h with ⟨-, rfl⟩ | ⟨hstart, rfl, -⟩ | ⟨x, rest, rfl, hx, rfl, -⟩ |
    ⟨hstart, hnumber⟩ | ⟨_, _, content, -, -, -, rfl⟩ | ⟨b, hsymbol, rfl, -⟩
  · cases ht
    exact trivial
  · have hstart : (s.takeWhile isNameByte).head?.any isNameStart = true := by
      cases s with
      | nil => cases hstart
      | cons b s =>
        have hb : isNameByte b = true := by simp [isNameByte, show isNameStart b = true from hstart]
        rw [takeWhile_cons_of_pos hb]
        exact hstart
    exact isSpelled_name hstart (forall_mem_takeWhile s) ht
  · exact isSpelled_hexadecimal hx (forall_mem_takeWhile rest) ht
  · obtain ⟨whole, part, power, rfl, hwhole, hnext, hpart, hpower, hfraction, rfl⟩ :=
      number_cases hnumber
    exact isSpelled_number hwhole hpart hpower
      (startsNumber_of_append hwhole hnext hpart hfraction hstart) ht
  · cases ht
    exact spells_literal content
  · cases ht
    exact spells_symbolByte hsymbol

theorem Parse.token_cases {t : LocatedToken} (h : token c = .ok t c') :
    ∃ s l s', blanks c.rest = .ok t.comment? s ∧ lexeme (c.upTo s).rest = .ok l s' ∧
      l.token = .ok t.token ∧ t.span = (c.upTo s).span ∧ c' = (c.upTo s).upTo s' := by
  obtain ⟨comment?, c₁, hblanks, h₁⟩ := bind_ok h
  obtain ⟨_, _, hget, h₂⟩ := bind_ok h₁
  cases hget
  obtain ⟨l, c₃, hlexeme, h₃⟩ := bind_ok h₂
  unfold scan at hblanks hlexeme
  split at hblanks <;> cases hblanks
  rename_i s hs
  split at hlexeme <;> cases hlexeme
  rename_i s' hl
  cases htok : l.token with
  | ok tok =>
    simp only [htok] at h₃
    cases h₃
    exact ⟨s, l, s', hs, hl, htok, rfl, rfl⟩
  | error fault =>
    simp only [htok] at h₃
    cases h₃

theorem Parse.token_isSpelled {t : LocatedToken} (h : token c = .ok t c') : t.token.IsSpelled := by
  obtain ⟨_, l, _, -, hl, ht, -⟩ := token_cases h
  exact Lexeme.token_isSpelled hl ht

end ProtobufSchema

import ProtobufSchema.Proofs.SpelledTokens

variable {c : Char}

/-! Reading words that stand with one space between any two, with one rule for each way to build
such a computation. -/

namespace ProtobufSchema

open List Scan Utf8 Numeral

variable {w : String}
variable {t : Token} {r : Bytes} {l : Lexeme}

theorem spells_name (hstart : (encode w).head?.any isNameStart = true)
    (hall : (encode w).all isNameByte = true) : Spells w (.name w) := by
  have h : IsWord (decodeLossy (encode w)) := isSpelled_name hstart (all_eq_true.mp hall) rfl
  rw [decodeLossy_encode] at h
  exact h.spells

def keywords : List String :=
  ["syntax", "package", "import", "public", "weak", "option", "message", "enum", "service",
    "extend",
    "rpc", "returns", "stream", "oneof", "map", "extensions", "reserved", "group", "optional",
    "required", "repeated", "to", "inf", "nan"]

theorem spells_keyword (h : keywords.contains w) : Spells w (.name w) := by
  have hall : ∀ w ∈ keywords, (encode w).head?.any isNameStart = true ∧
      (encode w).all isNameByte = true := by
    decide
  exact (hall w (contains_iff_mem.mp h)).elim spells_name

def symbolWords : List (String × Char) :=
  [(r"{", '{'), (r"}", '}'), ("[", '['), ("]", ']'), ("(", '('), (")", ')'), ("<", '<'),
    (">", '>'), (";", ';'), (",", ','), ("=", '='), (".", '.'), ("-", '-'), ("+", '+')]

theorem lexeme_symbolWord (h : symbolWords.contains (w, c)) :
    ∀ r, blanks (encode w ++ r) = .ok none (encode w ++ r) ∧
      ((c = '.' → r.head?.any isDigit = false) →
        ∃ l, lexeme (encode w ++ r) = .ok l r ∧ l.token = .ok (.symbol c)) := by
  have hall : ∀ x ∈ symbolWords, ∃ b ∈ (encode x.1).head?, encode x.1 = [b] ∧ isPlain b = true ∧
      isNameStart b = false ∧ isDigit b = false ∧ isQuote b = false ∧ isSymbol b = true ∧
      .ofNat b.toNat = x.2 := by
    decide
  obtain ⟨b, -, hbytes, hplain, hname, hdigit, hquote, hsymbol, hchar⟩ :=
    hall _ (contains_iff_mem.mp h)
  dsimp only at hbytes hchar
  intro r
  rw [hbytes]
  refine ⟨blanks_plain hplain r,
    fun hr => ⟨_, lexeme_symbol hname hdigit hquote hsymbol fun hb => hr ?_, ?_⟩⟩
  · rw [← hchar, hb]
    rfl
  · rw [Lexeme.token, hchar]

theorem spells_symbol (h : symbolWords.contains (w, c)) : Spells w (.symbol c) :=
  ⟨fun r _ => (lexeme_symbolWord h r).1,
    fun r hr => (lexeme_symbolWord h r).2 fun _ => hr.any_head (by decide)⟩

namespace Numeral

variable (n : Nat)

theorem digits_eq : digits 10 n =
    if n < 10 then [n.digitChar] else digits 10 (n / 10) ++ [(n % 10).digitChar] :=
  Nat.toDigits_eq_if (by decide)

theorem digitChar_read : ∀ d < 10, digitIn? 10 d.digitChar = some d ∧
    isDigit (.ofNat d.digitChar.toNat) = true ∧ d.digitChar.toNat < 0x80 ∧
    (d ≠ 0 → d.digitChar ≠ '0') := by
  decide

theorem continue?_append (base acc : Nat) (cs ds : List Char) :
    continue? base acc (cs ++ ds) = (continue? base acc cs).bind fun a => continue? base a ds := by
  induction cs generalizing acc with
  | nil => rfl
  | cons c cs ih =>
    simp only [cons_append, continue?]
    cases digitIn? base c with
    | none => rfl
    | some d => exact ih _

theorem digits_read : (∀ b ∈ encodeChars (digits 10 n), isDigit b = true) ∧
    continue? 10 0 (digits 10 n) = some n ∧
    ∃ c cs, digits 10 n = c :: cs ∧ c.toNat < 0x80 ∧ (n ≠ 0 → c ≠ '0') := by
  induction n using Nat.strongRecOn with
  | _ n ih =>
    rw [digits_eq]
    by_cases hn : n < 10
    · obtain ⟨hvalue, hdigit, hascii, hzero⟩ := digitChar_read n hn
      rw [if_pos hn]
      refine ⟨?_, ?_, n.digitChar, [], rfl, hascii, hzero⟩
      · rw [encodeChars_cons, encodeChar_of_lt hascii]
        simpa [encodeChars] using hdigit
      · simp [continue?, hvalue]
    · obtain ⟨hdigits, hvalue, c, cs, hcs, hc, hzero⟩ := ih (n / 10) (by omega)
      obtain ⟨hvalue', hdigit, hascii, -⟩ := digitChar_read (n % 10) (by omega)
      rw [if_neg hn]
      refine ⟨?_, ?_, c, cs ++ [(n % 10).digitChar], by rw [hcs, cons_append], hc,
        fun _ => hzero (by omega)⟩
      · rw [encodeChars_append, encodeChars_cons, encodeChar_of_lt hascii]
        intro b hb
        rcases mem_append.mp hb with hb | hb
        · exact hdigits b hb
        · obtain rfl : b = .ofNat (n % 10).digitChar.toNat := by simpa [encodeChars] using hb
          exact hdigit
      · rw [continue?_append, hvalue]
        simp [continue?, hvalue']
        omega

end Numeral

theorem Scan.startsNumber_digits {text : Bytes} (hne : text ≠ [])
    (h : ∀ b ∈ text, isDigit b = true) : StartsNumber text := by
  obtain ⟨b, rest, rfl⟩ := exists_cons_of_ne_nil hne
  refine ⟨b, rest, rfl, ?_, by rw [h b mem_cons_self]; rfl⟩
  cases rest with
  | nil => simp
  | cons x rest =>
    have hx : isDigit x = true := h x (by simp)
    have hall : ∀ x, isDigit x = true → isHexMark x = false := by decide +kernel
    simp [hall x hx]

theorem Lexeme.integer?_digits {n : Nat} (h : n < UInt64.size) :
    integer? (encodeChars (digits 10 n)) = some n.toUInt64 := by
  obtain ⟨hdigits, hvalue, c, cs, hcs, hc, hzero⟩ := digits_read n
  have hascii : ∀ b ∈ encodeChars (digits 10 n), b < 0x80 :=
    fun b hb => lt_of_isHexDigit (by simp [isHexDigit, hdigits b hb])
  have hchars : chars (encodeChars (digits 10 n)) = digits 10 n := by
    have := lossyChars_encodeChars (digits 10 n) []
    rw [append_nil, lossyChars.eq_def [], append_nil] at this
    exact (lossyChars_ascii hascii).symm.trans this
  have hbase : (1 < (encodeChars (digits 10 n)).length &&
      (encodeChars (digits 10 n)).head? == some 0x30) = false := by
    by_cases hn : n = 0
    · subst hn
      rfl
    · have hhead : UInt8.ofNat c.toNat ≠ 0x30 := by
        intro hb
        have hnat := congrArg UInt8.toNat hb
        rw [UInt8.toNat_ofNat_of_lt' (by change c.toNat < 256; omega)] at hnat
        exact hzero hn (by rw [← Char.ofNat_toNat c, hnat]; rfl)
      rw [hcs, encodeChars_cons, encodeChar_of_lt hc]
      simp [hhead]
  rw [integer?, hbase, if_neg Bool.false_ne_true, word?, hchars, hcs, natural?, ← hcs,
    hvalue, Option.bind_some, if_pos h]

theorem spells_decimal {n : Nat} (h : n < UInt64.size) :
    Spells (decimal n) (.integer n.toUInt64 (decimal n)) := by
  obtain ⟨hdigits, -, c, cs, hcs, -⟩ := digits_read n
  have hne : encodeChars (digits 10 n) ≠ [] := by
    rw [hcs, encodeChars_cons]
    simp
  have htext : decodeLossy (encodeChars (digits 10 n)) = decimal n := by
    rw [← encode_ofList, ← decimal, decodeLossy_encode]
  have hspells := spells_number (t := .integer n.toUInt64 (decimal n)) hdigits (.inl rfl) (.inl rfl)
    (by simpa using startsNumber_digits hne hdigits) ?_
  · rwa [append_nil, append_nil, htext] at hspells
  · simp [numberLexeme, Lexeme.token, Lexeme.integer?_digits h, htext]

def spaced (ws : List String) : Bytes := encode (" ".intercalate ws)

theorem spaced_cons (w : String) (ws : List String) :
    ∃ r, spaced (w :: ws) = encode w ++ r ∧ Stops r ∧ (r = spaced ws ∨ r = 0x20 :: spaced ws) := by
  cases ws with
  | nil =>
    refine ⟨[], ?_, by simp [Stops], .inl rfl⟩
    rw [spaced, String.intercalate_singleton, append_nil]
  | cons w' ws =>
    refine ⟨0x20 :: spaced (w' :: ws), ?_, ?_, .inr rfl⟩
    · rw [spaced, String.intercalate_cons_cons, encode_append, encode_append, append_assoc]
      rfl
    · rintro b ⟨⟩
      rfl

theorem length_le_spaced (ws : List String) : ws.length ≤ (spaced ws).length + 1 := by
  induction ws with
  | nil => exact Nat.zero_le _
  | cons w ws ih =>
    cases ws with
    | nil => simp
    | cons w' ws =>
      rw [spaced, String.intercalate_cons_cons, encode_append, encode_append, ← spaced]
      have hspace : (encode " ").length = 1 := rfl
      simp only [length_append, length_cons] at ih ⊢
      omega

theorem Cursor.rest_skip (c : Cursor) (count : Nat) : (c.skip count).rest = c.rest.drop count := by
  induction count generalizing c with
  | zero => rfl
  | succ count ih =>
    rw [skip]
    split
    · rename_i h
      rw [h, drop_nil]
    · rename_i b rest h
      rw [h]
      split <;> rw [ih] <;> rfl

theorem Cursor.rest_upTo {c : Cursor} {u : Bytes} (h : c.rest = u ++ r) : (c.upTo r).rest = r := by
  rw [upTo, rest_skip, h]
  simp

theorem Parse.token_of_lexeme {c c₁ : Cursor} {comment? : Option String}
    (hblanks : scan blanks c = .ok comment? c₁) (hl : lexeme c₁.rest = .ok l r)
    (ht : l.token = .ok t) : token c = .ok ⟨t, c₁.span, comment?⟩ (c₁.upTo r) := by
  have hscan : scan lexeme c₁ = .ok l (c₁.upTo r) := by rw [scan, hl]
  refine (bind_run hblanks).trans ((bind_run rfl).trans ((bind_run hscan).trans ?_))
  rw [ht]
  rfl

def Cursor.Ahead (c : Cursor) (ws : List String) : Prop :=
  c.rest = spaced ws ∨ c.rest = 0x20 :: spaced ws

/-- A computation goes from one list of words to another, and its answer has a property. -/
def Reads {α : Type} (p : Parse α) (ws ws' : List String) (Q : α → Prop) : Prop :=
  ∀ c : Cursor, c.Ahead ws → ∃ a c', p c = .ok a c' ∧ c'.Ahead ws' ∧ Q a

namespace Reads

variable {α β : Type} {p : Parse α} {ws ws' ws'' : List String} {Q : α → Prop} {R : β → Prop}

theorem pure {a : α} (h : Q a) : Reads (pure a) ws ws Q := fun c hc => ⟨a, c, rfl, hc, h⟩

theorem bind {f : α → Parse β} (hp : Reads p ws ws' Q) (hf : ∀ a, Q a → Reads (f a) ws' ws'' R) :
    Reads (p >>= f) ws ws'' R := by
  intro c hc
  obtain ⟨a, c', hpc, hc', ha⟩ := hp c hc
  obtain ⟨b, c'', hfc, hc'', hb⟩ := hf a ha c' hc'
  exact ⟨b, c'', (bind_run hpc).trans hfc, hc'', hb⟩

theorem seq {a : α} {f : α → Parse β} (hp : Reads p ws ws' (· = a)) (hf : Reads (f a) ws' ws'' R) :
    Reads (p >>= f) ws ws'' R :=
  hp.bind fun _ hb => hb ▸ hf

theorem located {p : Parse LocatedToken} {f : LocatedToken → Parse β}
    (hp : Reads p ws ws' (·.token = t))
    (hf : ∀ span comment?, Reads (f ⟨t, span, comment?⟩) ws' ws'' R) :
    Reads (p >>= f) ws ws'' R := by
  refine hp.bind fun lt hlt => ?_
  cases hlt
  exact hf _ _

theorem mono {Q' : α → Prop} (h : Reads p ws ws' Q) (hQ : ∀ a, Q a → Q' a) : Reads p ws ws' Q' := by
  intro c hc
  obtain ⟨a, c', hpc, hc', ha⟩ := h c hc
  exact ⟨a, c', hpc, hc', hQ a ha⟩

theorem ahead (h : Reads p ws ws' Q) : Reads (.ahead p) ws ws Q := by
  intro c hc
  obtain ⟨a, c', hpc, -, ha⟩ := h c hc
  exact ⟨a, c, by rw [Parse.ahead, hpc], hc, ha⟩

theorem fueled {p : Nat → Parse α}
    (h : ∀ fuel, ws.length ≤ fuel → 0 < fuel → Reads (p fuel) ws ws' Q) :
    Reads (.fueled p) ws ws' Q := by
  intro c hc
  have hlength : ws.length ≤ c.rest.length + 1 := by
    have := length_le_spaced ws
    rcases hc with hc | hc <;> rw [hc]
    · exact this
    · exact Nat.le_succ_of_le this
  exact h (c.rest.length + 1) hlength (Nat.succ_pos _) c hc

theorem token_of_lexeme
    (hblanks : blanks (spaced ws) = .ok none (spaced ws)) (hl : lexeme (spaced ws) = .ok l r)
    (ht : l.token = .ok t) (hsuffix : ∃ u, spaced ws = u ++ r)
    (hr : r = spaced ws' ∨ r = 0x20 :: spaced ws') : Reads .token ws ws' (·.token = t) := by
  intro c hc
  have hblanks : Parse.scan blanks c = .ok none (c.upTo (spaced ws)) := by
    rcases hc with hc | hc
    · rw [Parse.scan, hc, hblanks]
    · rw [Parse.scan, hc, blanks_space, hblanks]
  have hrest : (c.upTo (spaced ws)).rest = spaced ws := by
    rcases hc with hc | hc
    · exact Cursor.rest_upTo (u := []) hc
    · exact Cursor.rest_upTo (u := [0x20]) hc
  obtain ⟨u, hu⟩ := hsuffix
  refine ⟨_, _, Parse.token_of_lexeme hblanks (hrest ▸ hl) ht, ?_, rfl⟩
  rw [Cursor.Ahead, Cursor.rest_upTo (hrest.trans hu)]
  exact hr

theorem token (h : Spells w t) : Reads .token (w :: ws) ws (·.token = t) := by
  obtain ⟨r, hspaced, hstops, hr⟩ := spaced_cons w ws
  obtain ⟨l, hl, ht⟩ := h.lexeme r hstops
  rw [← hspaced] at hl
  exact token_of_lexeme (hspaced ▸ h.blanks r hstops) hl ht ⟨_, hspaced⟩ hr

theorem token_glued {symbol : String} (h : symbolWords.contains (symbol, c)) (hc : c != '.') :
    Reads .token ((symbol ++ w) :: ws) (w :: ws) (·.token = .symbol c) := by
  have hspaced : spaced ((symbol ++ w) :: ws) = encode symbol ++ spaced (w :: ws) := by
    rw [spaced, spaced, ← encode_append]
    cases ws with
    | nil => rw [String.intercalate_singleton, String.intercalate_singleton]
    | cons w' ws =>
      rw [String.intercalate_cons_cons, String.intercalate_cons_cons, String.append_assoc,
        String.append_assoc, String.append_assoc]
  obtain ⟨hblanks, hlexeme⟩ := lexeme_symbolWord h (spaced (w :: ws))
  obtain ⟨l, hl, ht⟩ := hlexeme fun hdot => absurd hdot (bne_iff_ne.mp hc)
  rw [← hspaced] at hblanks hl
  exact token_of_lexeme hblanks hl ht ⟨_, hspaced⟩ (.inl rfl)

theorem token_end : Reads .token [] [] (·.token = .endOfInput) := by
  have hblanks : blanks (spaced []) = .ok none (spaced []) := by
    rw [blanks, blanksFrom.eq_def]
    rfl
  exact token_of_lexeme hblanks rfl rfl ⟨[], rfl⟩ (.inl rfl)

end Reads

def Opens (ws : List String) (t : Token) : Prop := ∃ ws', Reads Parse.token ws ws' (·.token = t)

theorem opens_cons {ws : List String} (h : Spells w t) : Opens (w :: ws) t := ⟨ws, .token h⟩

namespace Reads

variable {ws : List String} {t : Token}

theorem peek (h : Opens ws t) : Reads .peek ws ws (·.token = t) := by
  obtain ⟨ws', h⟩ := h
  exact h.ahead

section Next

variable {α : Type} {ws' : List String} {Q : α → Prop}

theorem symbol {f : Unit → Parse α} (h : symbolWords.contains (w, c))
    (hf : Reads (f ()) ws ws' Q) : Reads (.expectSymbol c >>= f) (w :: ws) ws' Q := by
  refine .bind (Q := fun _ => True) ?_ fun _ _ => hf
  refine (token (spells_symbol h)).bind fun t ht => ?_
  rw [if_pos ht]
  exact pure trivial

theorem keyword {f : LocatedToken → Parse α} (h : keywords.contains w)
    (hf : ∀ lt, Reads (f lt) ws ws' Q) : Reads (.token >>= f) (w :: ws) ws' Q :=
  (token (spells_keyword h)).bind fun lt _ => hf lt

end Next

theorem expectKeyword (h : keywords.contains w) :
    Reads (.expectKeyword w) (w :: ws) ws (· = ()) := by
  refine (token (spells_keyword h)).bind fun t ht => ?_
  rw [if_pos ht]
  exact pure rfl

theorem expectName (h : Spells w (.name w)) : Reads .expectName (w :: ws) ws (· = w) :=
  (token h).located fun _ _ => pure rfl

theorem expectInteger {value : UInt64} (h : Spells w (.integer value w)) :
    Reads .expectInteger (w :: ws) ws (· = value) :=
  (token h).located fun _ _ => pure rfl

theorem eat_token {ws' : List String} (h : Reads .token ws ws' (·.token = t)) :
    Reads (.eat t) ws ws' (· = true) := by
  refine (peek ⟨ws', h⟩).bind fun lt hlt => ?_
  rw [if_pos hlt]
  exact h.bind fun _ _ => pure rfl

theorem eat (h : Spells w t) : Reads (.eat t) (w :: ws) ws (· = true) := eat_token (token h)

theorem eat_not {t' : Token} (h : Opens ws t') (hne : t' ≠ t) :
    Reads (.eat t) ws ws (· = false) := by
  refine (peek h).bind fun lt hlt => ?_
  rw [if_neg (hlt ▸ hne)]
  exact pure rfl

end Reads

def IsDotted (name : String) : Prop :=
  ∃ s ss, (∀ x ∈ s :: ss, IsWord x) ∧ name = Name.dotted (s :: ss)

def IsReference (name : String) : Prop := IsDotted name ∨ ∃ n, IsDotted n ∧ name = "." ++ n

namespace Name

variable {ss : List String}
variable {s : String}

theorem intersperse_dots (s : String) (ss : List String) :
    (s :: ss).intersperse "." = s :: ss.flatMap fun x => [".", x] := by
  induction ss generalizing s with
  | nil => rfl
  | cons x ss ih => rw [intersperse_cons_cons, ih]; rfl

theorem filter_dots (h : ∀ x ∈ ss, IsSegment x) :
    (ss.flatMap fun x => [".", x]).filter (· ≠ "") = ss.flatMap fun x => [".", x] := by
  rw [filter_eq_self]
  intro x hx
  obtain ⟨s, hs, hx⟩ := mem_flatMap.mp hx
  rcases mem_cons.mp hx with rfl | hx
  · decide
  · rw [mem_singleton.mp hx]
    exact decide_eq_true (h s hs).1

theorem words_dotted (h : ∀ x ∈ s :: ss, IsSegment x) :
    words (dotted (s :: ss)) = s :: ss.flatMap fun x => [".", x] := by
  obtain ⟨hs, hss⟩ := forall_mem_cons.mp h
  rw [words, segments_dotted (by simp) fun x hx => (h x hx).2, intersperse_dots,
    filter_cons_of_pos (by simpa using hs.1), filter_dots hss]

theorem words_qualified (h : ∀ x ∈ s :: ss, IsSegment x) :
    words ("." ++ dotted (s :: ss)) = "." :: s :: ss.flatMap fun x => [".", x] := by
  have hname : "." ++ dotted (s :: ss) = dotted ("" :: s :: ss) := by
    rw [dotted, dotted, String.intercalate_cons_cons, String.empty_append]
  have hdots : ∀ x ∈ "" :: s :: ss, '.' ∉ x.toList :=
    forall_mem_cons.mpr ⟨by decide, fun x hx => (h x hx).2⟩
  rw [hname, words, segments_dotted (by simp) hdots, intersperse_dots,
    filter_cons_of_neg (by decide), filter_dots h]
  rfl

end Name

namespace Reads

open Name (dotted)

variable {t : Token} {ws : List String}
variable {name : String}

theorem moreStrings (hws : Opens ws t) (ht : ∀ content, t ≠ .string content) :
    Reads (.fueled .moreStrings) ws ws (· = []) := by
  refine fueled fun fuel _ hpos => ?_
  obtain ⟨fuel, rfl⟩ := Nat.exists_eq_add_one.mpr hpos
  refine (peek hws).bind fun lt hlt => ?_
  rw [hlt]
  split
  · exact absurd rfl (ht _)
  · exact pure rfl

theorem expectString (content : Bytes) (hws : Opens ws t) (ht : ∀ content, t ≠ .string content) :
    Reads .expectString (Escape.literal content :: ws) ws (· = content) := by
  refine (token (spells_literal content)).located fun _ _ => ?_
  refine (moreStrings hws ht).bind fun more hmore => ?_
  rw [hmore, append_nil]
  exact pure rfl

theorem moreSegments {ss : List String} (hss : ∀ x ∈ ss, IsWord x) (hws : Opens ws t)
    (ht : t ≠ .symbol '.') :
    Reads (.fueled .moreSegments) ((ss.flatMap fun x => [".", x]) ++ ws) ws
      fun more => ∀ first, first ++ more = dotted (first :: ss) := by
  have hmore {fuel : Nat} (hfuel : ss.length < fuel) :
      Reads (.moreSegments fuel) ((ss.flatMap fun x => [".", x]) ++ ws) ws
        fun more => ∀ first, first ++ more = dotted (first :: ss) := by
    induction ss generalizing fuel with
    | nil =>
      obtain ⟨fuel, rfl⟩ := Nat.exists_eq_add_one.mpr hfuel
      refine (eat_not hws ht).seq ?_
      exact pure fun first => by rw [Name.dotted_singleton, String.append_empty]
    | cons x ss ih =>
      obtain ⟨fuel, rfl⟩ := Nat.exists_eq_add_one.mpr (Nat.zero_lt_of_lt hfuel)
      obtain ⟨hx, hrest⟩ := forall_mem_cons.mp hss
      refine (eat (spells_symbol rfl)).seq ?_
      refine (expectName hx.spells).bind fun segment hsegment => ?_
      rw [hsegment]
      refine (ih hrest (Nat.lt_of_succ_lt_succ hfuel)).bind fun more hmore => pure fun first => ?_
      rw [dotted, String.intercalate_cons_cons, ← dotted, ← hmore, String.append_assoc,
        String.append_assoc]
  refine fueled fun fuel hfuel hpos => hmore ?_
  simp at hfuel
  omega

theorem dottedName (h : IsDotted name) (hws : Opens ws t) (ht : t ≠ .symbol '.') :
    Reads .dottedName (Name.words name ++ ws) ws (· = name) := by
  obtain ⟨s, ss, hwords, rfl⟩ := h
  rw [Name.words_dotted fun x hx => (hwords x hx).segment]
  obtain ⟨hs, hss⟩ := forall_mem_cons.mp hwords
  refine (expectName hs.spells).seq ?_
  exact (moreSegments hss hws ht).bind fun more hmore => pure (hmore s)

theorem reference (h : IsReference name) (hws : Opens ws t) (ht : t ≠ .symbol '.') :
    Reads .reference (Name.words name ++ ws) ws (· = name) := by
  rcases h with h | ⟨n, h, rfl⟩
  · have hname : Reads Parse.dottedName (Name.words name ++ ws) ws _ := dottedName h hws ht
    obtain ⟨s, ss, hwords, rfl⟩ := h
    rw [Name.words_dotted fun x hx => (hwords x hx).segment] at hname ⊢
    have hfirst : Opens ((s :: ss.flatMap fun x => [".", x]) ++ ws) (.name s) :=
      opens_cons (hwords s mem_cons_self).spells
    refine (eat_not (t := .symbol '.') hfirst nofun).seq ?_
    exact hname.bind fun n hn => pure hn
  · have hname : Reads Parse.dottedName (Name.words n ++ ws) ws _ := dottedName h hws ht
    obtain ⟨s, ss, hwords, rfl⟩ := h
    have hsegments : ∀ x ∈ s :: ss, Name.IsSegment x := fun x hx => (hwords x hx).segment
    rw [Name.words_dotted hsegments] at hname
    rw [Name.words_qualified hsegments]
    refine (eat (spells_symbol rfl)).seq ?_
    exact hname.bind fun n hn => pure (by rw [hn]; rfl)

end Reads

/-! ### Tokens as text -/

variable {c : Cursor} {ts : List Token}

inductive Cursor.Lexes : Cursor → List Token → Prop
  | done {c c' : Cursor} {span : Span} {comment? : Option String}
    (h : Parse.token c = .ok ⟨.endOfInput, span, comment?⟩ c') : Lexes c []
  | more {c c' : Cursor} {t : Token} {span : Span} {comment? : Option String} {ts : List Token}
    (h : Parse.token c = .ok ⟨t, span, comment?⟩ c') (hne : t ≠ .endOfInput) (hmore : Lexes c' ts) :
    Lexes c (t :: ts)

def Token.print (ts : List Token) : String := " ".intercalate (ts.map word)

theorem Cursor.Lexes.spelled (h : c.Lexes ts) : ∀ t ∈ ts, t ≠ .endOfInput ∧ Spells t.word t := by
  induction h with
  | done h => simp
  | more h hne hmore ih =>
    refine forall_mem_cons.mpr ⟨⟨hne, ?_⟩, ih⟩
    have hspelled := Parse.token_isSpelled h
    cases ‹Token› with
    | endOfInput => exact absurd rfl hne
    | name s => exact hspelled.spells
    | _ => exact hspelled

theorem Cursor.Ahead.lexes (hts : ∀ t ∈ ts, t ≠ .endOfInput ∧ Spells t.word t)
    (h : c.Ahead (ts.map Token.word)) : c.Lexes ts := by
  induction ts generalizing c with
  | nil =>
    obtain ⟨⟨_, _, _⟩, c', ht, -, rfl⟩ := Reads.token_end c h
    exact .done ht
  | cons t ts ih =>
    obtain ⟨⟨hne, hspells⟩, hmore⟩ := forall_mem_cons.mp hts
    obtain ⟨⟨_, _, _⟩, c', hl, hc', rfl⟩ := Reads.token hspells c h
    exact .more hl hne (ih hmore hc')

/-- Printing the tokens of a text gives a text with the same tokens; a string literal in the
notation of byte strings is one token. -/
theorem lexes_print :
    (∀ text ts, (Cursor.ofText text).Lexes ts → (Cursor.ofText (Token.print ts)).Lexes ts) ∧
      ∀ content,
        (Cursor.ofText ("\"" ++ Escape.bytes content ++ "\"")).Lexes [.string content] := by
  refine ⟨fun text ts h => Cursor.Ahead.lexes h.spelled (.inl rfl), fun content => ?_⟩
  refine Cursor.Ahead.lexes (forall_mem_singleton.mpr ⟨by simp, spells_literal content⟩) (.inl ?_)
  exact congrArg Utf8.encode String.intercalate_singleton.symm

theorem lexes_print_glued :
    let ts : List Token :=
      [.integer 0x1F "0X1F", .name "g", .symbol '/', .string [0x22, 0x41, 0x32]]
    (Cursor.ofText "0X1Fg/'\"\\1012'").Lexes ts ∧
      (Cursor.ofText "0X1F g / \"\\\"A2\"").Lexes ts := by
  intro ts
  have hread : (Cursor.ofText "0X1Fg/'\"\\1012'").Lexes ts := by
    refine .more (by with_unfolding_all rfl) (by decide)
      (.more (by with_unfolding_all rfl) (by decide) ?_)
    refine .more (by with_unfolding_all rfl) (by decide)
      (.more (by with_unfolding_all rfl) (by decide) ?_)
    exact .done (by with_unfolding_all rfl)
  exact ⟨hread, lexes_print.1 _ ts hread⟩

end ProtobufSchema

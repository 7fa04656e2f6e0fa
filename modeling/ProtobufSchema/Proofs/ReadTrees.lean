import ProtobufSchema.Proofs.ParsedTrees

/-! The words of a tree are read back as that tree: each computation of the grammar goes over the
words of what it reads and stops at the next word. -/

namespace ProtobufSchema

open List Scan Utf8 Reads Name

variable {ws : List String}
variable {w text : String}
variable {α : Type} {c : Char}

theorem opens_symbol (h : symbolWords.contains (w, c)) :
    Opens (w :: ws) (.symbol c) := opens_cons (spells_symbol h)

theorem opens_unique {t t' : Token} (h : Opens ws t) (h' : Opens ws t') : t = t' := by
  have hws : (Cursor.ofText (" ".intercalate ws)).Ahead ws := .inl rfl
  obtain ⟨ws₁, h⟩ := h
  obtain ⟨ws₂, h'⟩ := h'
  obtain ⟨l, c, hl, -, rfl⟩ := h _ hws
  obtain ⟨l', c', hl', -, rfl⟩ := h' _ hws
  cases hl.symm.trans hl'
  rfl

namespace Reads

variable {t : Token}

theorem bracedText (h : IsEnclosed text) :
    Reads .bracedText (text :: r"}" :: ws) ws (· = text) := by
  obtain ⟨r, hbrace, -, hr⟩ := spaced_cons r"}" ws
  have hspaced : spaced (text :: r"}" :: ws) = encode text ++ 0x20 :: 0x7D :: r := by
    rw [spaced, String.intercalate_cons_cons, encode_append, encode_append, append_assoc, ← spaced,
      hbrace]
    rfl
  obtain ⟨hread, hread'⟩ := h.bracedText_spaced r
  intro c hc
  rw [Cursor.Ahead, hspaced] at hc
  rcases hc with hc | hc
  · refine ⟨text, c.upTo r, by rw [Parse.bracedText, Parse.scan, hc, hread], ?_, rfl⟩
    have hrest : c.rest = (encode text ++ [0x20, 0x7D]) ++ r := by rw [hc, append_assoc]; rfl
    rwa [Cursor.Ahead, Cursor.rest_upTo hrest]
  · refine ⟨text, c.upTo r, by rw [Parse.bracedText, Parse.scan, hc, hread'], ?_, rfl⟩
    have hrest : c.rest = (0x20 :: (encode text ++ [0x20, 0x7D])) ++ r := by
      rw [hc, cons_append, append_assoc]
      rfl
    rwa [Cursor.Ahead, Cursor.rest_upTo hrest]

theorem separated {β : Type} {element : Parse α} {separator : Char} {mark : String}
    {words : α → List String} {g : α → β} {xs : List α}
    (hmark : symbolWords.contains (mark, separator)) (hws : Opens ws t)
    (ht : t ≠ .symbol separator) (hmore : ws ≠ []) (hne : xs ≠ [])
    (helement : ∀ x ∈ xs, ∀ ws t', Opens ws t' → t' = .symbol separator ∨ t' = t →
      Reads element (words x ++ ws) ws (g · = g x)) :
    Reads (.fueled (.separated element separator)) ([mark].intercalate (xs.map words) ++ ws) ws
      (·.map g = xs.map g) := by
  have hall {fuel : Nat} (hfuel : xs.length ≤ fuel) :
      Reads (.separated element separator fuel) ([mark].intercalate (xs.map words) ++ ws) ws
        (·.map g = xs.map g) := by
    induction xs generalizing fuel with
    | nil => exact absurd rfl hne
    | cons x xs ih =>
      obtain ⟨fuel, rfl⟩ := Nat.exists_eq_add_one.mpr (Nat.zero_lt_of_lt hfuel)
      obtain ⟨hx, hxs⟩ := forall_mem_cons.mp helement
      cases xs with
      | nil =>
        rw [map_singleton, intercalate_singleton]
        refine (hx ws t hws (.inr rfl)).bind fun y hy => ?_
        refine (eat_not hws ht).seq ?_
        exact pure (by simp [hy])
      | cons x' xs =>
        rw [map_cons, map_cons, intercalate_cons_cons, append_assoc, append_assoc]
        refine (hx _ _ (opens_symbol hmark) (.inl rfl)).bind fun y hy => ?_
        refine (eat (spells_symbol hmark)).seq ?_
        refine (ih (by simp) hxs (Nat.le_of_succ_le_succ hfuel)).bind fun ys hys => pure ?_
        simp [hy, hys]
  have hlength : xs.length ≤ ([mark].intercalate (xs.map words)).length + 1 := by
    clear hall helement hne
    induction xs with
    | nil => exact Nat.zero_le _
    | cons x xs ih =>
      cases xs with
      | nil => simp
      | cons x' xs =>
        rw [map_cons, map_cons, intercalate_cons_cons, ← map_cons]
        simp only [length_append, length_cons] at ih ⊢
        omega
  refine fueled fun fuel hfuel hpos => hall ?_
  have := length_pos_of_ne_nil hmore
  rw [length_append] at hfuel
  omega

end Reads

namespace Tree

namespace Grammar

open Parse

variable {t : Token} {a : Assignment} {n : Int32} {kind : RangeKind} {r : Reserved}
  {name : String} {rest : List String}
variable {rs : List (Int32 × Int32)} {label? : Option Label} {value : Double} {t₀ : Token}

theorem reads_special (h : (text, value) ∈ specialNumbers) (negative : Bool) :
    Reads (constant.signed negative) (text :: ws) ws
      (· = .decimal (if negative then value.neg else value)
        ((if negative then "-" else "") ++ text)) := by
  simp only [specialNumbers, mem_cons, not_mem_nil, or_false] at h
  rcases h with ⟨rfl, rfl⟩ | ⟨rfl, rfl⟩
  · exact (token (spells_keyword rfl)).located fun _ _ => .pure rfl
  · exact (token (spells_keyword rfl)).located fun _ _ => .pure rfl

theorem words_decimal {value' : Double} (h : Spells text (.decimal value' text)) :
    (Constant.decimal value text).words = [text] := by
  have hopens : Opens [text] (.decimal value' text) := opens_cons h
  rw [Constant.words, if_neg]
  rintro (rfl | rfl)
  · cases opens_unique hopens (opens_cons (spells_keyword rfl))
  · cases opens_unique hopens (opens_cons (spells_keyword rfl))

theorem reads_constant {v : Constant} (hv : v.IsWritten) (hws : Opens ws t) (hdot : t ≠ .symbol '.')
    (hstring : ∀ content, t ≠ .string content) : Reads constant (v.words ++ ws) ws (· = v) := by
  have hminus {text : String} {v : Constant}
      (hv : Reads (constant.signed true) (text :: ws) ws (· = v)) :
      Reads constant (("-" ++ text) :: ws) ws (· = v) :=
    (token_glued (c := '-') rfl rfl).located fun _ _ => hv
  cases hv with
  | identifier h =>
    obtain ⟨s, ss, hwords, rfl⟩ := h
    rw [Constant.words, words_dotted fun x hx => (hwords x hx).segment]
    obtain ⟨hs, hss⟩ := forall_mem_cons.mp hwords
    refine (token hs.spells).located fun _ _ => ?_
    exact (moreSegments hss hws hdot).bind fun more hmore => .pure (by rw [hmore])
  | integer h => exact (token h).located fun _ _ => .pure rfl
  | negative h => exact hminus ((token h).located fun _ _ => .pure rfl)
  | decimal h =>
    rw [words_decimal h]
    exact (token h).located fun _ _ => .pure rfl
  | negativeDecimal h =>
    exact hminus ((token h).located fun _ _ => .pure rfl)
  | @special value text h =>
    have hwords : (Constant.decimal value text).words = ["+" ++ text] := by
      simp only [specialNumbers, mem_cons, Prod.mk.injEq, not_mem_nil, or_false] at h
      rw [Constant.words, if_pos (h.imp And.left And.left)]
    rw [hwords]
    refine (token_glued (c := '+') rfl rfl).located fun _ _ => ?_
    exact (reads_special h false).mono fun v hv => by rw [hv]; simp
  | negativeSpecial h =>
    exact hminus (reads_special h true)
  | string content =>
    refine (token (spells_literal content)).located fun _ _ => ?_
    refine (moreStrings hws hstring).bind fun more hmore => ?_
    rw [hmore, append_nil]
    exact .pure rfl
  | aggregate h =>
    refine (token (spells_symbol (c := '{') rfl)).located fun _ _ => ?_
    exact (bracedText h).bind fun text htext => .pure (by rw [htext])

theorem reads_namePart {part : NamePart} (h : IsPart part) :
    Reads namePart (partWords part ++ ws) ws (· = part) := by
  obtain ⟨name, isExtension⟩ := part
  cases isExtension with
  | false =>
    refine (eat_not (t := .symbol '(') (opens_cons h.spells) nofun).seq ?_
    exact (expectName h.spells).bind fun word hword => .pure (by rw [hword])
  | true =>
    have hwords : partWords ⟨name, true⟩ ++ ws = "(" :: (words name ++ ")" :: ws) := by
      simp [partWords]
    rw [hwords]
    refine (eat (spells_symbol rfl)).seq ?_
    refine (reference h (opens_symbol (c := ')') rfl) (by decide)).bind fun word hword => ?_
    exact .symbol rfl (.pure (by rw [hword]))

theorem opens_namePart {part : NamePart} (h : IsPart part) :
    ∃ t, Opens (partWords part ++ ws) t ∧ ∀ c, t = .symbol c → c = '(' := by
  obtain ⟨name, isExtension⟩ := part
  cases isExtension with
  | false => exact ⟨_, opens_cons h.spells, nofun⟩
  | true => exact ⟨_, opens_symbol (c := '(') rfl, fun c hc => (Token.symbol.inj hc).symm⟩

theorem intercalate_cons (mark : String) (words : α → List String) (x : α) (xs : List α)
    (ws : List String) :
    ∃ rest, [mark].intercalate ((x :: xs).map words) ++ ws = words x ++ rest := by
  cases xs with
  | nil => exact ⟨ws, by rw [map_singleton, intercalate_singleton]⟩
  | cons x' xs =>
    rw [map_cons, map_cons, intercalate_cons_cons, append_assoc, append_assoc]
    exact ⟨_, rfl⟩

theorem opens_assignment (ha : a.IsWritten) (ws : List String) :
    ∃ t, Opens (a.words ++ ws) t ∧ ∀ c, t = .symbol c → c = '(' := by
  obtain ⟨part, parts, hname⟩ := exists_cons_of_ne_nil ha.name_ne_nil
  obtain ⟨rest, hrest⟩ := intercalate_cons "." partWords part parts ("=" :: a.value.words ++ ws)
  rw [Assignment.words, hname, append_assoc, hrest]
  exact opens_namePart (ha.parts part (by simp [hname]))

theorem reads_assignment (ha : a.IsWritten) (hws : Opens ws t) (hdot : t ≠ .symbol '.')
    (hstring : ∀ content, t ≠ .string content) :
    Reads assignment (a.words ++ ws) ws (·.bare = a.bare) := by
  obtain ⟨t', hopens, -⟩ := opens_assignment ha ws
  refine (peek hopens).bind fun lt _ => ?_
  rw [Assignment.words, append_assoc]
  refine (separated (g := id) rfl (opens_symbol (c := '=') rfl) (by decide) (by simp)
    ha.name_ne_nil fun part hpart ws _ _ _ => reads_namePart (ha.parts part hpart)).bind
    fun name hname => ?_
  refine .symbol rfl ?_
  refine (reads_constant ha.value hws hdot hstring).bind fun value hvalue => .pure ?_
  rw [map_id, map_id] at hname
  rw [hname, hvalue]
  rfl

theorem reads_optionStatement (ha : a.IsWritten) :
    Reads optionStatement (optionWords a ++ ws) ws (·.bare = a.bare) := by
  rw [optionWords, append_assoc]
  refine .keyword rfl fun _ => ?_
  refine (reads_assignment ha (opens_symbol (c := ';') rfl) (by decide) nofun).bind fun b hb => ?_
  exact .symbol rfl (.pure hb)

theorem reads_bracketOptions {options : List Assignment} (h : ∀ a ∈ options, a.IsWritten)
    (hws : Opens ws t) (ht : t ≠ .symbol '[') :
    Reads bracketOptions (bracketWords options ++ ws) ws
      (·.map Assignment.bare = options.map .bare) := by
  unfold bracketOptions bracketWords
  split
  · rename_i hnil
    refine (eat_not hws ht).seq ?_
    rw [hnil]
    exact .pure rfl
  · rename_i hne
    simp only [append_assoc]
    refine (eat (spells_symbol rfl)).seq ?_
    refine (separated rfl (opens_symbol (c := ']') rfl)
      (by decide) (by simp) hne fun a ha ws t' hopens ht' => reads_assignment (h a ha) hopens
      ?_ ?_).bind
      fun found hfound => .symbol rfl (.pure hfound)
    · rcases ht' with rfl | rfl <;> decide
    · rcases ht' with rfl | rfl <;> exact nofun

theorem natAbs_toInt_lt (n : Int32) : n.toInt.natAbs < UInt64.size := by
  have hle := n.le_toInt
  have hlt := n.toInt_lt
  rw [UInt64.size]
  omega

theorem toNat_toUInt64_natAbs (n : Int32) : n.toInt.natAbs.toUInt64.toNat = n.toInt.natAbs :=
  UInt64.toNat_ofNat_of_lt' (natAbs_toInt_lt n)

theorem spells_magnitude (n : Int32) : Spells (Numeral.decimal n.toInt.natAbs)
      (.integer n.toInt.natAbs.toUInt64 (Numeral.decimal n.toInt.natAbs)) :=
  spells_decimal (natAbs_toInt_lt n)

theorem numberWord_of_nonneg (h : 0 ≤ n.toInt) : numberWord n = Numeral.decimal n.toInt.natAbs := by
  rw [numberWord, Numeral.signed, if_neg (not_lt.mpr h), String.empty_append]

theorem numberWord_of_neg (h : n.toInt < 0) :
    numberWord n = "-" ++ Numeral.decimal n.toInt.natAbs := by
  rw [numberWord, Numeral.signed, if_pos h]

theorem reads_fieldNumber (h : IsFieldNumber n) :
    Reads fieldNumber (numberWord n :: ws) ws (· = n) := by
  obtain ⟨hpos, hmax⟩ := h
  have hvalue := toNat_toUInt64_natAbs n
  rw [numberWord_of_nonneg (by omega)]
  refine (peek (opens_cons (spells_magnitude n))).bind fun lt _ => ?_
  refine (expectInteger (spells_magnitude n)).seq ?_
  have hrange : ¬ (n.toInt.natAbs.toUInt64 = 0 || n.toInt.natAbs.toUInt64 > 536870911) = true := by
    rw [Bool.or_eq_true, decide_eq_true_eq, decide_eq_true_eq, gt_iff_lt, UInt64.lt_iff_toNat_lt,
      ← UInt64.toNat_inj, hvalue]
    change ¬ (n.toInt.natAbs = 0 ∨ 536870911 < n.toInt.natAbs)
    omega
  rw [if_neg hrange]
  refine .pure (Int32.toInt_inj.mp ?_)
  rw [toInt_fieldNumber (by omega)]
  omega

theorem reads_int32Of (span : Span) (n : Int32) : Reads (int32Of span n.toInt) ws ws (· = n) := by
  have hle := n.le_toInt
  have hlt := n.toInt_lt
  have hrange : Int32.minValue.toInt ≤ n.toInt ∧ n.toInt ≤ Int32.maxValue.toInt := by
    rw [Int32.toInt_minValue, Int32.toInt_maxValue]
    omega
  rw [int32Of, if_pos hrange, Int32.ofInt_toInt]
  exact .pure rfl

theorem opens_number (n : Int32) (ws : List String) :
    ∃ t, Opens (numberWord n :: ws) t ∧ (∀ w, t ≠ .name w) ∧ (∀ content, t ≠ .string content) ∧
      ∀ c, t = .symbol c → c = '-' := by
  by_cases hn : n.toInt < 0
  · rw [numberWord_of_neg hn]
    exact ⟨_, ⟨_, .token_glued (c := '-') rfl rfl⟩, nofun, nofun,
      fun c hc => (Token.symbol.inj hc).symm⟩
  · rw [numberWord_of_nonneg (not_lt.mp hn)]
    exact ⟨_, opens_cons (spells_magnitude n), nofun, nofun, nofun⟩

theorem reads_signedInt32 (n : Int32) : Reads signedInt32 (numberWord n :: ws) ws (· = n) := by
  obtain ⟨t, hopens, -⟩ := opens_number n ws
  refine (peek hopens).bind fun lt _ => ?_
  by_cases hn : n.toInt < 0
  · rw [numberWord_of_neg hn]
    refine (eat_token (.token_glued rfl rfl)).seq ?_
    refine (expectInteger (spells_magnitude n)).bind fun value hvalue => ?_
    rw [hvalue, toNat_toUInt64_natAbs]
    have hint : (-n.toInt.natAbs : Int) = n.toInt := by omega
    dsimp only
    rw [hint]
    exact reads_int32Of _ n
  · rw [numberWord_of_nonneg (not_lt.mp hn)]
    refine (eat_not (t := .symbol '-') (opens_cons (spells_magnitude n)) nofun).seq ?_
    refine (expectInteger (spells_magnitude n)).bind fun value hvalue => ?_
    rw [hvalue, toNat_toUInt64_natAbs]
    have hint : (n.toInt.natAbs : Int) = n.toInt := by omega
    dsimp only
    rw [hint]
    exact reads_int32Of _ n

theorem reads_lowerBound (h : IsBound kind n) :
    Reads (lowerBound kind) (numberWord n :: ws) ws (· = n) := by
  cases kind with
  | enumNumbers => exact reads_signedInt32 n
  | fieldNumbers =>
    rw [numberWord_of_nonneg h]
    refine (peek (opens_cons (spells_magnitude n))).bind fun lt _ => ?_
    refine (expectInteger (spells_magnitude n)).seq ?_
    have hint : (n.toInt.natAbs : Int) = n.toInt := Int.natAbs_of_nonneg h
    rw [toNat_toUInt64_natAbs, hint]
    exact reads_int32Of _ n

theorem reads_range {r : Int32 × Int32} (h : IsBound kind r.1 ∧ IsBound kind r.2) :
    Reads (range kind) ([numberWord r.1, "to", numberWord r.2] ++ ws) ws (· = r) := by
  refine (reads_lowerBound h.1).seq ?_
  refine (eat (spells_keyword rfl)).seq ?_
  obtain ⟨t, hopens, hname, -⟩ := opens_number r.2 ws
  refine bind (Q := (· = r.2)) ?_ fun last hlast => .pure (by rw [hlast])
  refine (eat_not hopens (hname _)).seq ?_
  exact reads_lowerBound h.2

theorem reads_ranges (h : AreRanges kind rs) (hws : Opens ws t) (ht : t ≠ .symbol ',')
    (hmore : ws ≠ []) : Reads (ranges kind) (rangeWords rs ++ ws) ws (· = rs) := by
  refine (separated (g := id) rfl hws ht hmore h.ne_nil fun r hr ws _ _ _ =>
    reads_range (h.bounds r hr)).mono fun found hfound => ?_
  rwa [map_id, map_id] at hfound

theorem opens_bracket (options : List Assignment) (hws : Opens ws t) :
    ∃ t', Opens (bracketWords options ++ ws) t' ∧ (t' = .symbol '[' ∨ t' = t) := by
  unfold bracketWords
  split
  · exact ⟨t, hws, .inr rfl⟩
  · exact ⟨_, opens_symbol (c := '[') rfl, .inl rfl⟩

theorem reads_extensions {e : Extensions} (he : e.IsWritten) :
    Reads extensions (e.words ++ ws) ws (·.bare = e.bare) := by
  have hend : Opens (";" :: ws) (.symbol ';') := opens_symbol rfl
  obtain ⟨t, hopens, ht⟩ := opens_bracket e.options hend
  simp only [Extensions.words, append_assoc]
  refine .keyword rfl fun start => ?_
  refine (reads_ranges he.ranges hopens ?_ (by simp)).seq ?_
  · rcases ht with rfl | rfl <;> decide
  refine (reads_bracketOptions he.options hend (by decide)).bind fun options hoptions => ?_
  refine .symbol rfl (.pure ?_)
  simp [Extensions.bare, hoptions]

theorem opens_ranges (h : rs ≠ []) (ws : List String) :
    ∃ t, Opens (rangeWords rs ++ ws) t ∧ (∀ content, t ≠ .string content) ∧ ∀ c, t = .symbol c →
      c = '-' := by
  obtain ⟨r, rs, rfl⟩ := exists_cons_of_ne_nil h
  obtain ⟨rest, hrest⟩ : ∃ rest, rangeWords (r :: rs) ++ ws =
      numberWord r.1 :: "to" :: numberWord r.2 :: rest :=
    intercalate_cons "," (fun r : Int32 × Int32 => [numberWord r.1, "to", numberWord r.2]) r rs ws
  rw [hrest]
  obtain ⟨t, hopens, -, hstring, hsymbol⟩ := opens_number r.1 ("to" :: numberWord r.2 :: rest)
  exact ⟨t, hopens, hstring, hsymbol⟩

def nameWords (name : String) : List String := [Escape.literal (encode name)]

theorem opens_names {names : List String} (h : names ≠ []) (ws : List String) :
    ∃ content, Opens (listed (names.map nameWords) ++ ws) (.string content) := by
  obtain ⟨name, names, rfl⟩ := exists_cons_of_ne_nil h
  obtain ⟨rest, hrest⟩ := intercalate_cons "," nameWords name names ws
  rw [listed, hrest]
  exact ⟨_, opens_cons (spells_literal _)⟩

theorem reads_reservedName (name : String) (hws : Opens ws t)
    (ht : ∀ content, t ≠ .string content) :
    Reads reservedName (nameWords name ++ ws) ws (· = name) :=
  (expectString (encode name) hws ht).bind fun content hcontent =>
    .pure (by rw [hcontent, decodeLossy_encode])

theorem words_reserved_names (h : r.names ≠ []) (ws : List String) :
    r.words ++ ws = "reserved" :: (listed (r.names.map nameWords) ++ ";" :: ws) := by
  simp only [Reserved.words, if_neg h, append_assoc]
  rfl

theorem words_reserved_ranges (h : r.names = []) (ws : List String) :
    r.words ++ ws = "reserved" :: (rangeWords r.ranges ++ ";" :: ws) := by
  simp [Reserved.words, if_pos h]

theorem reads_reserved (hr : r.IsWritten kind) :
    Reads (reserved kind) (r.words ++ ws) ws (·.bare = r.bare) := by
  have hend : Opens (";" :: ws) (.symbol ';') := opens_symbol rfl
  have hrest {found : Reserved} (h : found.bare = r.bare) : Reads (do
      let r ← pure found
      expectSymbol ';'
      return r) (";" :: ws) ws (·.bare = r.bare) :=
    .symbol rfl (.pure h)
  rcases hr with ⟨hnames, hranges⟩ | ⟨hnames, hranges⟩
  · rw [words_reserved_names hnames]
    refine .keyword rfl fun start => ?_
    obtain ⟨content, hopens⟩ := opens_names hnames (";" :: ws)
    refine (peek hopens).located fun _ _ => ?_
    refine (separated (g := id) rfl hend (by decide) (by simp) hnames
      fun name _ ws t' hws ht' => reads_reservedName name hws ?_).bind fun names hread => hrest ?_
    · rcases ht' with rfl | rfl <;> exact nofun
    · rw [map_id, map_id] at hread
      rw [hread, ← hranges]
      rfl
  · rw [words_reserved_ranges hnames]
    refine .keyword rfl fun start => ?_
    obtain ⟨t, hopens, hstring, -⟩ := opens_ranges hranges.ne_nil (";" :: ws)
    refine (peek hopens).located fun _ _ => ?_
    split
    · exact absurd ‹_› (hstring _)
    · refine (reads_ranges hranges hend (by decide) (by simp)).bind fun ranges hread => hrest ?_
      rw [hread, ← hnames]
      rfl

theorem opens_reserved (hr : r.IsWritten kind) (ws : List String) :
    ∃ rest t, r.words ++ ws = "reserved" :: rest ∧ Opens rest t ∧ t ≠ .symbol '=' := by
  rcases hr with ⟨hnames, -⟩ | ⟨hnames, hranges⟩
  · obtain ⟨content, hopens⟩ := opens_names hnames (";" :: ws)
    exact ⟨_, _, words_reserved_names hnames ws, hopens, nofun⟩
  · obtain ⟨t, hopens, -, hsymbol⟩ := opens_ranges hranges.ne_nil (";" :: ws)
    exact ⟨_, t, words_reserved_ranges hnames ws, hopens, fun h => absurd (hsymbol _ h) (by decide)⟩

theorem reads_map {m : MapField} (hm : m.IsWritten) :
    Reads map (m.words ++ ws) ws (·.bare = m.bare) := by
  simp only [MapField.words, cons_append, append_assoc, nil_append]
  refine .keyword rfl fun start => ?_
  refine .symbol rfl ?_
  refine (peek (opens_cons hm.key.spells)).bind fun _ _ => ?_
  refine (expectName hm.key.spells).seq ?_
  rw [hm.isMapKey]
  refine .symbol rfl ?_
  refine (reference hm.type (opens_symbol (c := '>') rfl) (by decide)).seq ?_
  refine .symbol rfl ?_
  refine (expectName hm.name.spells).seq ?_
  refine .symbol rfl ?_
  refine (reads_fieldNumber hm.number).seq ?_
  refine (reads_bracketOptions hm.options (opens_symbol (c := ';') rfl) (by decide)).bind
    fun options hoptions => ?_
  refine .symbol rfl (.pure ?_)
  simp [MapField.bare, hoptions]

theorem reads_secondIs (symbol : Char) (hw : Spells w t₀) (hws : Opens ws t) :
    Reads (secondIs symbol) (w :: ws) (w :: ws) (· = (t == .symbol symbol)) := by
  obtain ⟨ws', hws⟩ := hws
  exact ahead ((token hw).bind fun _ _ => hws.bind fun lt hlt => .pure (by rw [hlt]))

structure ReadsMember {α : Type} (member : LocatedToken → Parse α) (words : List String)
    (Q : α → Prop) : Prop where
  ne_nil : words ≠ []
  reads : ∀ ws t', Opens ws t' → t' ≠ .symbol ';' →
    ∃ t, Opens (words ++ ws) t ∧ t ≠ .symbol '}' ∧ t ≠ .symbol ';' ∧
      ∀ lt, lt.token = t → Reads (member lt) (words ++ ws) ws Q

section Members

variable {α β : Type} {member : LocatedToken → Parse α} {words : α → List String} {g : α → β}
  {xs : List α} (h : ∀ x ∈ xs, ReadsMember member (words x) (g · = g x))
include h

theorem opens_members (ws : List String) :
    ∃ t, Opens (xs.flatMap words ++ r"}" :: ws) t ∧ t ≠ .symbol ';' := by
  induction xs with
  | nil => exact ⟨_, opens_symbol (c := '}') rfl, by decide⟩
  | cons x xs ih =>
    obtain ⟨hx, hxs⟩ := forall_mem_cons.mp h
    obtain ⟨t', hopens, ht'⟩ := ih hxs
    obtain ⟨t, hopens, -, ht, -⟩ := hx.reads _ t' hopens ht'
    rw [flatMap_cons, append_assoc]
    exact ⟨t, hopens, ht⟩

theorem reads_membersWith :
    Reads (fueled (membersWith member)) (xs.flatMap words ++ r"}" :: ws) ws
      (·.map g = xs.map g) := by
  have hall {fuel : Nat} (hfuel : (xs.flatMap words).length < fuel) :
      Reads (membersWith member fuel) (xs.flatMap words ++ r"}" :: ws) ws (·.map g = xs.map g) := by
    induction xs generalizing fuel with
    | nil =>
      obtain ⟨fuel, rfl⟩ := Nat.exists_eq_add_one.mpr hfuel
      have hbrace : Spells r"}" (.symbol '}') := spells_symbol rfl
      refine (peek (opens_cons hbrace)).located fun _ _ => ?_
      exact (token hbrace).bind fun _ _ => .pure rfl
    | cons x xs ih =>
      obtain ⟨fuel, rfl⟩ := Nat.exists_eq_add_one.mpr (Nat.zero_lt_of_lt hfuel)
      obtain ⟨hx, hxs⟩ := forall_mem_cons.mp h
      obtain ⟨t', hopens', ht'⟩ := opens_members hxs ws
      obtain ⟨t, hopens, hbrace, hsemicolon, hread⟩ := hx.reads _ t' hopens' ht'
      have hlength : (xs.flatMap words).length < fuel := by
        have := length_pos_of_ne_nil hx.ne_nil
        rw [flatMap_cons, length_append] at hfuel
        omega
      rw [flatMap_cons, append_assoc]
      refine (peek hopens).bind fun lt hlt => ?_
      have hread := hread lt hlt
      split
      · exact absurd (hlt.symm.trans ‹_›) hbrace
      · exact absurd (hlt.symm.trans ‹_›) hsemicolon
      · refine hread.bind fun y hy => (ih hxs hlength).bind fun ys hys => .pure ?_
        simp [hy, hys]
  refine fueled fun fuel hfuel _ => hall ?_
  simp only [length_append, length_cons] at hfuel
  omega

end Members

theorem reads_enumValue {v : EnumValue} (hv : v.IsWritten) :
    Reads enumValue (v.words ++ ws) ws (·.bare = v.bare) := by
  simp only [EnumValue.words, append_assoc]
  refine (token hv.name.spells).located fun _ _ => ?_
  refine .symbol rfl ?_
  refine (reads_signedInt32 v.number).seq ?_
  refine (reads_bracketOptions hv.options (opens_symbol (c := ';') rfl) (by decide)).bind
    fun options hoptions => ?_
  refine .symbol rfl (.pure ?_)
  simp [EnumValue.bare, hoptions]

theorem reads_enumMember {m : EnumMember} (hm : m.IsWritten) :
    ReadsMember enumMember m.words (·.bare = m.bare) := by
  cases hm with
  | @value v hv =>
    refine ⟨by simp [EnumMember.words, EnumValue.words], fun ws _ _ _ => ?_⟩
    have hname := hv.name.spells
    have hread : Reads (do return .value (← enumValue) : Parse EnumMember) (v.words ++ ws) ws
        (·.bare = .bare (.value v)) :=
      (reads_enumValue hv).bind fun v' hv' => .pure (congrArg EnumMember.value hv')
    have hsecond : Reads (secondIs '=') (v.words ++ ws) (v.words ++ ws) (· = true) :=
      (reads_secondIs '=' hname (opens_symbol (c := '=') rfl)).mono
        fun found hfound => hfound.trans (by decide)
    refine ⟨.name v.name, opens_cons hname, nofun, nofun, fun lt hlt => ?_⟩
    unfold enumMember
    split
    · exact hsecond.bind fun found hfound => by rw [hfound]; exact hread
    · exact hsecond.bind fun found hfound => by rw [hfound]; exact hread
    · exact hread
    · rename_i hother
      exact absurd hlt (hother _)
  | @option a ha =>
    refine ⟨by simp [EnumMember.words, optionWords], fun ws _ _ _ => ?_⟩
    have hoption : Spells "option" (.name "option") := spells_keyword rfl
    obtain ⟨t, hopens, ht⟩ := opens_assignment ha (";" :: ws)
    have hwords : EnumMember.words (.option a) ++ ws = "option" :: (a.words ++ ";" :: ws) := by
      simp [EnumMember.words, optionWords]
    refine ⟨.name "option", hwords ▸ opens_cons hoption, nofun, nofun, fun lt hlt => ?_⟩
    have hread : Reads optionStatement (EnumMember.words (.option a) ++ ws) ws _ :=
      reads_optionStatement ha
    rw [enumMember, hlt]
    rw [hwords] at hread ⊢
    refine (reads_secondIs '=' hoption hopens).seq ?_
    rw [beq_eq_false_iff_ne.mpr fun h => absurd (ht _ h) (by decide)]
    exact hread.bind fun b hb => .pure (congrArg EnumMember.option hb)
  | @reserved r hr =>
    refine ⟨by simp [EnumMember.words, Reserved.words], fun ws _ _ _ => ?_⟩
    have hreserved : Spells "reserved" (.name "reserved") := spells_keyword rfl
    obtain ⟨rest, t, hwords, hopens, ht⟩ := opens_reserved hr ws
    have hread : Reads (reserved .enumNumbers) (r.words ++ ws) ws _ := reads_reserved hr
    rw [EnumMember.words, hwords] at *
    refine ⟨.name "reserved", opens_cons hreserved, nofun, nofun, fun lt hlt => ?_⟩
    rw [enumMember, hlt]
    refine (reads_secondIs '=' hreserved hopens).seq ?_
    rw [beq_eq_false_iff_ne.mpr ht]
    exact hread.bind fun b hb => .pure (congrArg EnumMember.reserved hb)

theorem reads_enum {e : Enum} (he : e.IsWritten) :
    Reads enum (e.words ++ ws) ws (·.bare = e.bare) := by
  simp only [Enum.words, append_assoc]
  refine .keyword rfl fun start => ?_
  refine (expectName he.name.spells).seq ?_
  refine .symbol rfl ?_
  refine (reads_membersWith fun m hm => reads_enumMember (he.members m hm)).bind
    fun members hmembers => .pure ?_
  simp [Enum.bare, hmembers]

theorem opens_reference (h : IsReference name) (ws : List String) : ∃ w, firstWord? name = some w ∧
      ((w = "." ∧ Opens (words name ++ ws) (.symbol '.')) ∨
        Opens (words name ++ ws) (.name w)) := by
  rcases h with h | ⟨n, h, rfl⟩
  all_goals
    obtain ⟨s, ss, hwords, rfl⟩ := h
    have hsegments : ∀ x ∈ s :: ss, IsSegment x := fun x hx => (hwords x hx).segment
  · rw [firstWord?, words_dotted hsegments]
    exact ⟨s, rfl, .inr (opens_cons (hwords s mem_cons_self).spells)⟩
  · rw [firstWord?, words_qualified hsegments]
    exact ⟨".", rfl, .inl ⟨rfl, opens_symbol rfl⟩⟩

theorem reads_methodType {streaming : Bool} {type : String} (h : Method.IsType streaming type) :
    Reads methodType (Method.typeWords streaming type ++ ws) ws (· = (streaming, type)) := by
  have hstream : Spells "stream" (.name "stream") := spells_keyword rfl
  have hclose : Opens (")" :: ws) (.symbol ')') := opens_symbol rfl
  have hrest : Reads (do
      let type ← reference
      expectSymbol ')'
      return (streaming, type) : Parse (Bool × String)) (words type ++ ")" :: ws) ws
        (· = (streaming, type)) := by
    refine (reference h.reference hclose (by decide)).seq ?_
    exact .symbol rfl (.pure rfl)
  obtain ⟨w, hfirst, hopens⟩ := opens_reference h.reference (")" :: ws)
  cases streaming with
  | true =>
    have hwords : Method.typeWords true type ++ ws =
        "(" :: "stream" :: (words type ++ ")" :: ws) := by
      simp [Method.typeWords]
    have hsecond : Reads (secondIs ')') ("stream" :: (words type ++ ")" :: ws))
        ("stream" :: (words type ++ ")" :: ws)) (· = false) := by
      rcases hopens with ⟨-, hopens⟩ | hopens
      · exact (reads_secondIs ')' hstream hopens).mono fun found hfound => hfound.trans (by decide)
      · exact (reads_secondIs ')' hstream hopens).mono fun found hfound => hfound.trans rfl
    rw [hwords]
    refine .symbol rfl ?_
    refine (peek (opens_cons hstream)).bind fun lt hlt => ?_
    rw [if_pos hlt]
    refine hsecond.seq ?_
    exact (token hstream).bind fun _ _ => hrest
  | false =>
    have hwords : Method.typeWords false type ++ ws = "(" :: (words type ++ ")" :: ws) := by
      simp [Method.typeWords]
    rw [hwords]
    refine .symbol rfl ?_
    by_cases hword : w = "stream"
    · obtain rfl := h.plain rfl (hword ▸ hfirst)
      have hwords : words "stream" ++ ")" :: ws = "stream" :: ")" :: ws := rfl
      rw [hwords] at hrest ⊢
      refine (peek (opens_cons hstream)).bind fun lt hlt => ?_
      rw [if_pos hlt]
      refine (reads_secondIs ')' hstream hclose).seq ?_
      exact hrest
    · have hpeek : ∃ t, Opens (words type ++ ")" :: ws) t ∧ t ≠ .name "stream" := by
        rcases hopens with ⟨-, hopens⟩ | hopens
        · exact ⟨_, hopens, nofun⟩
        · exact ⟨_, hopens, fun h => hword (Token.name.inj h)⟩
      obtain ⟨t, hopens, ht⟩ := hpeek
      refine (peek hopens).bind fun lt hlt => ?_
      rw [if_neg (hlt ▸ ht)]
      exact hrest

theorem readsMember_option {member : LocatedToken → Parse α} {f : Assignment → α} {Q : α → Prop}
    (ha : a.IsWritten) (hQ : ∀ b : Assignment, b.bare = a.bare → Q (f b))
    (hmember : ∀ lt : LocatedToken, lt.token = .name "option" → member lt = f <$> optionStatement) :
    ReadsMember member (optionWords a) Q := by
  refine ⟨by simp [optionWords], fun ws _ _ _ => ?_⟩
  refine ⟨.name "option", opens_cons (spells_keyword rfl), nofun, nofun, fun lt hlt => ?_⟩
  rw [hmember lt hlt]
  exact (reads_optionStatement ha).bind fun b hb => .pure (hQ b hb)

theorem reads_method {m : Method} (hm : m.IsWritten) (hws : Opens ws t) (ht : t ≠ .symbol ';') :
    Reads method (m.words ++ ws) ws (·.bare = m.bare) := by
  simp only [Method.words, cons_append, append_assoc]
  refine .keyword rfl fun start => ?_
  refine (expectName hm.name.spells).seq ?_
  refine (reads_methodType hm.input).seq ?_
  refine .seq (.expectKeyword rfl) ?_
  refine (reads_methodType hm.output).seq ?_
  by_cases hoptions : m.options = []
  · rw [if_pos hoptions]
    have hend : Opens ([";"] ++ ws) (.symbol ';') := opens_symbol rfl
    refine (eat_not hend (by decide)).seq ?_
    refine .symbol rfl (.pure ?_)
    simp [Method.bare, hoptions]
  · rw [if_neg hoptions, cons_append, append_assoc]
    refine (eat (spells_symbol rfl)).seq ?_
    have hmember : ∀ a ∈ m.options, ReadsMember methodOption (optionWords a) (·.bare = a.bare) := by
      refine fun a ha => readsMember_option (f := id) (hm.options a ha) (fun b hb => hb)
        fun lt hlt => ?_
      rw [methodOption, hlt, id_map]
      rfl
    refine (reads_membersWith hmember).bind fun options hread => ?_
    refine (eat_not hws ht).bind fun _ _ => .pure ?_
    simp [Method.bare, hread]

theorem reads_serviceMember {m : ServiceMember} (hm : m.IsWritten) :
    ReadsMember serviceMember m.words (·.bare = m.bare) := by
  cases hm with
  | option ha =>
    refine readsMember_option (f := ServiceMember.option) ha
      (fun b hb => congrArg ServiceMember.option hb) fun lt hlt => ?_
    rw [serviceMember, hlt]
    rfl
  | @method m hm =>
    refine ⟨by simp [ServiceMember.words, Method.words], fun ws t hws ht => ?_⟩
    refine ⟨.name "rpc", opens_cons (spells_keyword rfl), nofun, nofun, fun lt hlt => ?_⟩
    rw [serviceMember, hlt]
    exact (reads_method hm hws ht).bind fun m' hm' => .pure (congrArg ServiceMember.method hm')

theorem reads_service {s : Service} (hs : s.IsWritten) :
    Reads service (s.words ++ ws) ws (·.bare = s.bare) := by
  simp only [Service.words, append_assoc]
  refine .keyword rfl fun start => ?_
  refine (expectName hs.name.spells).seq ?_
  refine .symbol rfl ?_
  refine (reads_membersWith fun m hm => reads_serviceMember (hs.members m hm)).bind
    fun members hmembers => .pure ?_
  simp [Service.bare, hmembers]

theorem spells_label (l : Label) : Spells l.name (.name l.name) := by
  cases l <;> exact spells_keyword rfl

theorem opens_labelled (label? : Option Label) (hrest : Opens rest t) :
    Opens (labelWords label? ++ rest) (label?.elim t fun l => .name l.name) := by
  cases label? with
  | none => exact hrest
  | some l => exact opens_cons (spells_label l)

theorem reads_label (hrest : Opens rest t)
    (hnone : label? = none → ∀ w, t = .name w → Label.ofKeyword? w = none) :
    Reads label (labelWords label? ++ rest) rest (· = label?) := by
  refine (peek (opens_labelled label? hrest)).bind fun lt hlt => ?_
  cases label? with
  | none =>
    split
    · rename_i w hw
      rw [hnone rfl w (hlt.symm.trans hw)]
      exact .pure rfl
    · exact .pure rfl
  | some l =>
    have hkeyword : Label.ofKeyword? l.name = some l := by cases l <;> rfl
    rw [hlt]
    dsimp only [Option.elim]
    rw [hkeyword]
    exact (token (spells_label l)).bind fun _ _ => .pure rfl

theorem reads_fieldLabel {dialect : Dialect} {start : LocatedToken} {place : FieldPlace}
    (hplace : place.isLabelled = true) (hallows : place.Allows dialect label?)
    (hrest : Opens rest t) (hnone : label? = none → ∀ w, t = .name w → Label.ofKeyword? w = none) :
    Reads (fieldLabel dialect start) (labelWords label? ++ rest) rest (· = label?) := by
  refine (reads_label hrest hnone).seq ?_
  split
  · cases place with
    | oneof => cases hplace
    | message | extend => exact absurd rfl hallows
  · cases place with
    | oneof => cases hplace
    | message | extend => exact absurd rfl hallows
  · exact .pure rfl

theorem reads_field {f : Field} (hf : f.IsWritten) (start : LocatedToken) :
    Reads (field f.label? start)
      (words f.typeName ++ f.name :: "=" :: numberWord f.number ::
        (bracketWords f.options ++ ";" :: ws)) ws
      (·.bare = f.bare) := by
  refine (reference hf.type (opens_cons hf.name.spells) nofun).seq ?_
  refine (expectName hf.name.spells).bind fun name hname => ?_
  refine .symbol rfl ?_
  refine (reads_fieldNumber hf.number).seq ?_
  refine (reads_bracketOptions hf.options (opens_symbol (c := ';') rfl) (by decide)).bind
    fun options hoptions => ?_
  refine .symbol rfl (.pure ?_)
  simp [Field.bare, hname, hoptions]

theorem reads_groupHead {number : Int32} {options : List Assignment} (hname : IsWord name)
    (hupper : name.toList.head?.any Char.isUpper = true) (hnumber : IsFieldNumber number)
    (hoptions : ∀ a ∈ options, a.IsWritten) (start : LocatedToken) :
    Reads (groupHead .proto2 start)
      ("group" :: name :: "=" :: numberWord number :: (bracketWords options ++ r"{" :: ws)) ws
      fun head => head.1 = name ∧ head.2.1 = number ∧
        head.2.2.map Assignment.bare = options.map .bare := by
  refine .keyword rfl fun _ => ?_
  refine (peek (opens_cons hname.spells)).bind fun _ _ => ?_
  refine (expectName hname.spells).seq ?_
  rw [hupper]
  refine .symbol rfl ?_
  refine (reads_fieldNumber hnumber).seq ?_
  refine (reads_bracketOptions hoptions (opens_symbol (c := '{') rfl) (by decide)).bind
    fun options hreads => ?_
  exact .symbol rfl (.pure ⟨rfl, rfl, hreads⟩)

theorem reads_messageHead {keyword : String} (hkeyword : keywords.contains keyword)
    (hname : IsWord name) : Reads messageHead (keyword :: name :: r"{" :: ws) ws (·.2 = name) := by
  refine (token (spells_keyword hkeyword)).bind fun start _ => ?_
  refine (expectName hname.spells).seq ?_
  exact .symbol rfl (.pure rfl)

theorem reads_isDeclaration (hw : Spells w t₀) (hname : IsReference name) (hws : Opens ws t)
    (ht : t ≠ .symbol '.') :
    Reads isDeclaration (w :: (words name ++ ws)) (w :: (words name ++ ws))
      (· = (t == .symbol '{')) := by
  have hread := reference hname hws ht
  obtain ⟨ws', hnext⟩ := hws
  have hbrace : Reads (return (← token).token == .symbol '{' : Parse Bool) ws ws'
      (· = (t == .symbol '{')) := hnext.bind fun lt hlt => .pure (by rw [hlt])
  refine ahead (?_ : Reads _ _ ws' _)
  refine (token hw).bind fun _ _ c hc => ?_
  obtain ⟨n, c₁, hn, hc₁, -⟩ := hread c hc
  obtain ⟨found, c₂, hfound, hc₂, hbrace⟩ := hbrace c₁ hc₁
  refine ⟨found, c₂, ?_, hc₂, hbrace⟩
  simp only [hn]
  exact hfound

end Grammar

end Tree

end ProtobufSchema

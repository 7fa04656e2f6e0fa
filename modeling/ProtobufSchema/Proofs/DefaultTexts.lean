import ProtobufSchema.Proofs.CanonicalFixpoint
import ProtobufSchema.Proofs.IntegerLiterals

/-! Default values of integer types in their usual form. The integers on the way have 128 bits but
for one: the opposite of the least. -/

namespace ProtobufSchema

open List Numeral Scan

variable {cs : List Char} {v : Int} {base : Nat}

theorem Numeral.signed_eq (v : Int) : signed v = toString v := by
  cases v with
  | ofNat n => exact String.empty_append ..
  | negSucc n =>
    rw [signed, if_pos (Int.negSucc_lt_zero n)]
    rfl

theorem Numeral.integer?_of_natural? {bits n : Nat} (h : natural? base cs = some n) :
    integer? base bits cs = if n < 2 ^ (bits - 1) then some (n : Int) else none := by
  have hvalue : integer? base bits cs =
      (some (n : Int)).filter fun v => -((2 ^ (bits - 1) : Nat) : Int) ≤ v ∧
          v < (2 ^ (bits - 1) : Nat) := by
    unfold integer?
    split
    · cases h
    · cases h
    · rw [h]
      rfl
  rw [hvalue]
  generalize 2 ^ (bits - 1) = bound
  by_cases hn : n < bound
  · rw [if_pos hn]
    exact Option.filter_some_pos (by simp; omega)
  · rw [if_neg hn]
    exact Option.filter_some_neg (by simp; omega)

theorem Numeral.integer?_range (h : integer? base 128 cs = some v) :
    -2 ^ 127 ≤ v ∧ v < 2 ^ 127 := by
  have hrange := Option.filter_eq_some_iff.mp h
  simpa using hrange.2

theorem Numeral.integer?_least :
    integer? base 128 cs = some (-2 ^ 127) ↔ ∃ digits, cs = '-' :: digits ∧
      natural? base digits = some (2 ^ 127) := by
  constructor
  · intro h
    have hvalue := (Option.filter_eq_some_iff.mp h).1
    split at hvalue
    · obtain ⟨n, -, hv⟩ := Option.map_eq_some_iff.mp hvalue
      exact absurd hv (by simp)
    · obtain ⟨v, hread, hv⟩ := Option.map_eq_some_iff.mp hvalue
      obtain ⟨n, hn, hcast⟩ := Option.bind_eq_some_iff.mp hread
      cases hcast
      exact ⟨_, rfl, hn.trans (congrArg some (by omega))⟩
    · obtain ⟨n, -, hv⟩ := Option.map_eq_some_iff.mp hvalue
      exact absurd hv (by simp)
  · rintro ⟨digits, rfl, hn⟩
    simp only [integer?, hn]
    rfl

def FieldType.isInteger : FieldType → Bool
  | .int32 | .int64 | .uint32 | .uint64 | .sint32 | .sint64
  | .fixed32 | .fixed64 | .sfixed32 | .sfixed64 => true
  | _ => false

namespace DefaultText

variable {c : Char} {type : FieldType}

theorem normalize_of_isInteger (h : type.isInteger = true) (text : String) :
    normalize type text = integer text := by
  cases type <;> first | rfl | cases h

theorem digit?_ne {d : Nat} (h : digit? c = some d) : c ≠ '-' ∧ (d ≠ 0 → c ≠ '0') ∧
    (d < 10 → c ≠ 'x' ∧ c ≠ 'X') := by
  refine ⟨?_, fun hd => ?_, fun hd => ⟨?_, ?_⟩⟩ <;> rintro rfl <;> cases h
  · exact hd rfl
  · exact absurd hd (by decide)
  · exact absurd hd (by decide)

theorem negate_eq (v : Int) : negate v = if v = -2 ^ 127 then .error .negation else .ok (-v) := rfl

theorem integer?_unsigned (h : c ≠ '-') : integer? (c :: cs) = .ok (magnitude? (c :: cs)) := by
  unfold integer?
  split
  · next heq => exact absurd (cons.inj heq).1 h
  · rfl

theorem magnitude?_decimal (h : c = '0' → cs = []) :
    magnitude? (c :: cs) = Numeral.integer? 10 wordBits (c :: cs) := by
  unfold magnitude?
  split <;> first | rfl | (next heq => cases heq; cases h rfl)

theorem magnitude?_octal (hx : c ≠ 'x' ∧ c ≠ 'X') :
    magnitude? ('0' :: c :: cs) = Numeral.integer? 8 wordBits (c :: cs) := by
  simp [magnitude?, hx.1, hx.2]

theorem integer?_literal {l : IntegerLiteral} (hsign : l.sign? ≠ some false)
    (hfits : l.magnitude < 2 ^ 127) : integer? (chars l.text) = .ok (some l.value) := by
  obtain ⟨x, ds, hds⟩ := exists_cons_of_ne_nil l.digits_ne_nil
  have hchars : chars l.digitBytes =
      .ofNat (digitByte x.1 x.2).toNat :: chars (ds.map fun y => digitByte y.1 y.2) := by
    rw [IntegerLiteral.digitBytes, hds]
    rfl
  obtain ⟨hminus, hzero, hmark⟩ := digit?_ne (digitByte_cases (l.lt_of_mem_digits x) x.2).1
  have hinteger : Numeral.integer? l.radix.base wordBits (chars l.digitBytes) =
      some (l.magnitude : Int) := by
    rw [integer?_of_natural? l.natural?_digits]
    exact if_pos hfits
  -- The first character is a digit, so that it is taken for no sign and for no mark but its own.
  obtain ⟨c, cs, hnumeral, hc, hvalue⟩ : ∃ c cs, chars l.numeral = c :: cs ∧ c ≠ '-' ∧
      magnitude? (c :: cs) = some (l.magnitude : Int) := by
    have hsplit : chars l.numeral = chars l.radix.mark ++ chars l.digitBytes := map_append
    cases hradix : l.radix with
    | decimal =>
      rw [hradix] at hsplit hinteger
      refine ⟨_, _, hsplit.trans hchars, hminus, ?_⟩
      rw [magnitude?_decimal, ← hchars]
      · exact hinteger
      · intro hc
        by_contra hne
        have hlong : 1 < l.digits.length := by
          rw [hds, length_cons]
          have hpos : 0 < ds.length := length_pos_of_ne_nil fun hnil => hne (by rw [hnil]; rfl)
          omega
        exact hzero (l.head_ne_zero hradix hlong x (by rw [hds]; rfl)) hc
    | octal =>
      rw [hradix] at hsplit hinteger
      refine ⟨'0', chars l.digitBytes, hsplit, by decide, ?_⟩
      have hbase : l.radix.base = 8 := by rw [hradix]; rfl
      rw [hchars, magnitude?_octal (hmark (by omega)), ← hchars]
      exact hinteger
    | hexadecimal capital =>
      rw [hradix] at hsplit hinteger
      refine ⟨'0', _, hsplit, by decide, ?_⟩
      cases capital <;> exact hinteger
  have htext : chars l.text = (if l.sign? = some true then ['-'] else []) ++ c :: cs := by
    rw [← hnumeral, IntegerLiteral.text]
    cases hs : l.sign? with
    | none => rfl
    | some negative =>
      cases negative with
      | false => exact absurd hs hsign
      | true => rfl
  rw [htext, IntegerLiteral.value]
  by_cases hnegative : l.sign? = some true
  · rw [if_pos hnegative, if_pos hnegative, singleton_append, integer?, hvalue, Option.mapM_some,
      negate_eq, if_neg (by omega)]
    rfl
  · rw [if_neg hnegative, if_neg hnegative, nil_append, integer?_unsigned hc, hvalue]

theorem magnitude?_digits (n : Nat) :
    magnitude? (digits 10 n) = if n < 2 ^ 127 then some (n : Int) else none := by
  obtain ⟨-, hvalue, c, cs, hcs, -, hzero⟩ := digits_read n
  have hnatural : natural? 10 (c :: cs) = some n := by rw [natural?, ← hcs, hvalue]
  rw [hcs, magnitude?_decimal, integer?_of_natural? hnatural]
  · rfl
  · intro hc
    have hn : n = 0 := by
      by_contra hn
      exact hzero hn hc
    rw [hn] at hcs
    exact (cons.inj hcs).2.symm

theorem integer?_signed (v : Int) : ∃ v?, integer? (signed v).toList = .ok v? ∧ v?.getD v = v := by
  obtain ⟨-, hvalue, c, cs, hcs, -, -⟩ := digits_read v.natAbs
  have hdigits : magnitude? (c :: cs) = if v.natAbs <
      2 ^ 127 then some (v.natAbs : Int) else none := by
    rw [← hcs, magnitude?_digits]
  have hchars : (signed v).toList = (if v < 0 then ['-'] else []) ++ c :: cs := by
    rw [signed, String.toList_append, decimal, String.toList_ofList, hcs]
    split <;> rfl
  rw [hchars]
  by_cases hv : v < 0
  · rw [if_pos hv, singleton_append, integer?, hdigits]
    split
    · rw [Option.mapM_some, negate_eq, if_neg (by omega)]
      exact ⟨some _, rfl, by rw [Option.getD_some]; omega⟩
    · exact ⟨none, rfl, rfl⟩
  · have hc : c ≠ '-' := by
      rintro rfl
      rw [hcs] at hvalue
      cases hvalue
    rw [if_neg hv, nil_append, integer?_unsigned hc, hdigits]
    split
    · exact ⟨some _, rfl, by rw [Option.getD_some]; omega⟩
    · exact ⟨none, rfl, rfl⟩

theorem integer_integer {text s : String} (h : integer text = .ok s) : integer s = .ok s := by
  obtain ⟨v?, -, hs⟩ := map_eq_ok h
  cases v? with
  | none =>
    obtain rfl : text = s := hs
    exact h
  | some v =>
    obtain rfl : signed v = s := hs
    obtain ⟨w?, hagain, hw⟩ := integer?_signed v
    rw [integer, hagain]
    cases w? with
    | none => rfl
    | some w =>
      rw [Option.getD_some] at hw
      rw [hw]
      rfl

theorem normalize_normalize (h : type.isInteger = true) {text s : String}
    (hs : normalize type text = .ok s) : normalize type s = .ok s := by
  rw [normalize_of_isInteger h] at hs ⊢
  exact integer_integer hs

theorem mapM_normalize (h : type.isInteger = true) {before after : Option String}
    (hafter : before.mapM (normalize type) = .ok after) :
    after.mapM (normalize type) = .ok after := by
  cases before with
  | none =>
    cases hafter
    rfl
  | some text =>
    obtain ⟨s, hs, rfl⟩ := map_eq_ok hafter
    exact congrArg (Except.map some) (normalize_normalize h hs)

end DefaultText

/-! ### Default values of a file -/

open DefaultText (normalize)

theorem FieldDescriptor.normalizeDefault_of_overflows {x : FieldDescriptor} (h : x.overflows = []) :
    x.normalizeDefault = .ok x.normalized := by
  unfold overflows at h
  split at h
  · next hx =>
    rw [normalized, hx]
    rfl
  · cases h

namespace Canonicalizer

variable {c : Canonicalizer} {p q r : FileDescriptor} {log log' before after : Log}

theorem type?_qualifiedField (pool : Pool) (scope : String) (x : FieldDescriptor) :
    (pool.qualifiedField scope x).defaultValue? = x.defaultValue? ∧
      ((pool.qualifiedField scope x).type? = x.type? ∨ ∃ kind : SymbolKind,
        (pool.qualifiedField scope x).type? = some (if kind = .enum then .enum else .message)) := by
  unfold Pool.qualifiedField
  cases pool.qualified? x.typeName? scope SymbolKind.isType with
  | none => exact ⟨rfl, .inl rfl⟩
  | some found =>
    refine ⟨rfl, ?_⟩
    simp only [FieldDescriptor.withType]
    split
    · exact .inl rfl
    · exact .inr ⟨found.2, rfl⟩

/-- Writes default values in their usual form besides. -/
def normalizing (c : Canonicalizer) : Canonicalizer :=
  { c with options := { c.options with normalizeDefaults := true } }

theorem canonicalize_normalizing (hdefaults : c.options.normalizeDefaults = false)
    (h : c.canonicalize p log = .ok q log') :
    c.normalizing.canonicalize p log = ended (normalizeDefaults q) log' := by
  rw [canonicalize_eq hdefaults] at h
  rw [canonicalize_steps]
  refine (bind_run h).trans ?_
  cases normalizeDefaults q <;> simp only [normalizing] <;> rfl

theorem canonicalize_defaults (hdefaults : c.options.normalizeDefaults = true)
    (h : c.canonicalize p log = .ok q log') :
    Forall₂ (fun x y => (y.2.type? = x.2.type? ∨ ∃ kind : SymbolKind,
        y.2.type? = some (if kind = .enum then .enum else .message)) ∧
      (x.2.defaultValue?.mapM fun text => y.2.type?.elim (.ok text) (normalize · text)) =
        .ok y.2.defaultValue?) p.allFields q.allFields := by
  rw [canonicalize_steps, qualifyNames_eq] at h
  obtain ⟨file, _, hrun, hq⟩ := bind_ok h
  rw [hdefaults] at hq
  obtain ⟨hfits, hq⟩ := normalizeDefaults_ok hq
  have hfields := allFields_of_bare ((c.interpretOptions_answers _).holds hrun).bare_eq
  have hboth := forall₂_same.mpr fun x (_ : x ∈ file.allFields.map fun x => (x.1, x.2.bare)) =>
    Eq.refl x
  nth_rewrite 1 [hfields] at hboth
  rw [forall₂_map_left_iff, forall₂_map_right_iff] at hboth
  rw [hq, FileDescriptor.allFields_mapFields, forall₂_map_right_iff]
  refine ((forall₂_and_left _ _).mpr ⟨hfits, hboth.flip⟩).flip.imp fun x y ⟨hy, hxy⟩ => ?_
  have hfield : ((c.pool p).qualifiedField x.1 x.2).bare = y.2.bare := congrArg Prod.snd hxy
  obtain ⟨hkept, hcases⟩ := type?_qualifiedField (c.pool p) x.1 x.2
  obtain ⟨text?, hvalue, hnormal⟩ := map_eq_ok (y.2.normalizeDefault_of_overflows hy)
  have htype : y.2.type? = ((c.pool p).qualifiedField x.1 x.2).type? :=
    (congrArg (·.type?) hfield).symm
  have hdefault : y.2.defaultValue? = x.2.defaultValue? :=
    (congrArg (·.defaultValue?) hfield).symm.trans hkept
  rw [← hnormal, ← hdefault]
  dsimp only
  rw [htype] at hvalue ⊢
  exact ⟨hcases, hvalue⟩

end Canonicalizer

/-- A literal is rendered as the decimal numeral of what it is worth, whatever is rendered stays as
it is when it is rendered again, and so a file that is brought into canonical form twice keeps its
integers. -/
theorem integer_defaults_settle :
    (∀ type : FieldType, type.isInteger = true →
      (∀ l : IntegerLiteral, l.sign? ≠ some false → l.magnitude < 2 ^ 127 →
        normalize type (String.ofList (chars l.text)) = .ok (toString l.value)) ∧
      ∀ text s, normalize type text = .ok s → normalize type s = .ok s) ∧
    ∀ (c : Canonicalizer) (p q r : FileDescriptor) (before between after : Log),
      c.options.normalizeDefaults = true → c.canonicalize p before = .ok q between →
      c.canonicalize q between = .ok r after →
      Forall₂ (fun x y => x.2.type?.any (·.isInteger) = true →
        y.2.defaultValue? = x.2.defaultValue?)
        q.allFields r.allFields := by
  refine ⟨fun type htype => ⟨fun l hsign hfits => ?_,
    fun _ _ => DefaultText.normalize_normalize htype⟩, fun c p q r _ _ _ hdefaults hq hr => ?_⟩
  · rw [DefaultText.normalize_of_isInteger htype, DefaultText.integer, String.toList_ofList,
      DefaultText.integer?_literal hsign hfits, ← signed_eq]
    rfl
  · obtain ⟨hlength, hfirst⟩ :=
      forall₂_iff_get.mp (Canonicalizer.canonicalize_defaults hdefaults hq)
    obtain ⟨hlength', hsecond⟩ :=
      forall₂_iff_get.mp (Canonicalizer.canonicalize_defaults hdefaults hr)
    refine forall₂_iff_get.mpr ⟨hlength', fun i hi hi' hinteger => ?_⟩
    obtain ⟨-, hvalue⟩ := hfirst i (by omega) hi
    obtain ⟨hcases, hvalue'⟩ := hsecond i hi hi'
    cases htype : (q.allFields.get ⟨i, hi⟩).2.type? with
    | none => rw [htype] at hinteger; cases hinteger
    | some type =>
      rw [htype] at hinteger hcases hvalue
      rcases hcases with hsame | ⟨kind, hkind⟩
      · rw [hsame] at hvalue'
        exact Except.ok.inj (hvalue'.symm.trans (DefaultText.mapM_normalize hinteger hvalue))
      · rw [hkind] at hvalue'
        generalize (q.allFields.get ⟨i, hi⟩).2.defaultValue? = text? at hvalue'
        cases text? <;> split at hvalue' <;> exact (Except.ok.inj hvalue').symm

def FileDescriptor.ofDefault (text : String) : FileDescriptor where
  name? := some "a.proto"
  extensions := [{ type? := some .sint32, defaultValue? := some text }]

def IntegerLiteral.minusFifteen : IntegerLiteral where
  sign? := some true
  radix := .octal
  digits := [(⟨1, by decide⟩, false), (⟨7, by decide⟩, false)]
  digits_ne_nil := by simp
  head_ne_zero := by simp

theorem integer_defaults_settle_octal :
    normalize .sint32 "-017" = .ok "-15" ∧
    Forall₂ (fun x y => x.2.type?.any (·.isInteger) = true → y.2.defaultValue? = x.2.defaultValue?)
      (FileDescriptor.ofDefault "-15").allFields (FileDescriptor.ofDefault "-15").allFields := by
  have hcanonical {text s : String} (h : normalize .sint32 text = .ok s) :
      (Canonicalizer.ofDependencies [] { normalizeDefaults := true }).canonicalize
        (.ofDefault text) .empty =
        .ok (.ofDefault s) .empty := by
    have hfield :
        FieldDescriptor.normalizeDefault { type? := some .sint32, defaultValue? := some text } =
        .ok { type? := some .sint32, defaultValue? := some s } := by
      unfold FieldDescriptor.normalizeDefault
      rw [Option.mapM_some, Option.elim_some, h]
      rfl
    have hfile : Canonicalizer.normalizeDefaults (.ofDefault text) = .ok (.ofDefault s) := by
      unfold Canonicalizer.normalizeDefaults FileDescriptor.traverseFields
      dsimp only [FileDescriptor.ofDefault]
      rw [mapM_cons, hfield]
      rfl
    have hplain : (Canonicalizer.ofDependencies [] {}).canonicalize (.ofDefault text) .empty =
        .ok (.ofDefault text) .empty := by
      rw [Canonicalizer.canonicalize_eq rfl, Canonicalizer.qualifyNames_eq]
      rfl
    exact (Canonicalizer.canonicalize_normalizing rfl hplain).trans (by rw [hfile]; rfl)
  obtain ⟨hliteral, hsettled⟩ := integer_defaults_settle.1 .sint32 rfl
  have hoctal : normalize .sint32 "-017" = .ok "-15" :=
    hliteral .minusFifteen (by decide) (by decide)
  have hfirst := hcanonical hoctal
  have hsecond := hcanonical (hsettled _ _ hoctal)
  exact ⟨hoctal, integer_defaults_settle.2 _ _ _ _ _ _ _ rfl hfirst hsecond⟩

/-! ### Integers of 128 bits -/

namespace DefaultText

/-- The marks of the notations that are read, each with its base. -/
def marks : List (List Char × Nat) := [([], 10), (['0'], 8), (['0', 'x'], 16), (['0', 'X'], 16)]

/-- The integers that come up where an integer is read: what the digits are worth, and the opposite
of it behind a minus sign. -/
def computed : List Char → List Int
  | '-' :: cs => (magnitude? cs).toList.flatMap fun v => [v, -v]
  | cs => (magnitude? cs).toList

/-- Whether a default value of a type is read as an integer. -/
def readsInteger (type : FieldType) (text : String) : Bool :=
  type.isInteger || (type == .double || type == .float) && hasRadix (unsigned text.toList)

/-- A minus sign on both sides of the mark, and the digits of the least integer. -/
def IsLeastNegated (cs : List Char) : Prop :=
  ∃ x ∈ marks, ∃ digits, cs = '-' :: (x.1 ++ '-' :: digits) ∧ natural? x.2 digits = some (2 ^ 127)

theorem magnitude?_range (h : magnitude? cs = some v) : -2 ^ 127 ≤ v ∧ v < 2 ^ 127 := by
  unfold magnitude? at h
  split at h <;> exact integer?_range h

theorem magnitude?_least : magnitude? cs = some (-2 ^ 127) ↔ IsLeastNegated ('-' :: cs) := by
  constructor
  · intro h
    unfold magnitude? at h
    split at h <;> obtain ⟨digits, hcs, hn⟩ := integer?_least.mp h
    · exact ⟨(['0', 'x'], 16), by decide, digits, by rw [hcs]; rfl, hn⟩
    · exact ⟨(['0', 'X'], 16), by decide, digits, by rw [hcs]; rfl, hn⟩
    · exact ⟨(['0'], 8), by decide, digits, by rw [hcs]; rfl, hn⟩
    · exact ⟨([], 10), by decide, digits, by rw [hcs]; rfl, hn⟩
  · rintro ⟨x, hx, digits, hcs, hn⟩
    obtain rfl := (cons.inj hcs).2
    simp only [marks, mem_cons, not_mem_nil, or_false] at hx
    rcases hx with rfl | rfl | rfl | rfl <;> exact integer?_least.mpr ⟨digits, rfl, hn⟩

theorem computed_range_iff (cs : List Char) :
    (∀ v ∈ computed cs, -2 ^ 127 ≤ v ∧ v < 2 ^ 127) ↔ ¬IsLeastNegated cs := by
  unfold computed
  split
  · next cs =>
    rw [← magnitude?_least]
    cases hread : magnitude? cs with
    | none => simp
    | some v =>
      have hrange := magnitude?_range hread
      simp
      omega
  · next cs hsign =>
    refine ⟨fun _ h => ?_, fun _ v hv => magnitude?_range (Option.mem_toList.mp hv)⟩
    obtain ⟨x, -, digits, hcs, -⟩ := h
    exact hsign _ hcs

theorem integer?_cases (cs : List Char) : (IsLeastNegated cs ∧ integer? cs = .error .negation) ∨
    ¬IsLeastNegated cs ∧ ∃ v?, integer? cs = .ok v? := by
  unfold integer?
  split
  · next cs =>
    rw [← magnitude?_least]
    cases hread : magnitude? cs with
    | none => exact .inr ⟨by simp, none, rfl⟩
    | some v =>
      rw [Option.mapM_some, negate_eq, Option.some_inj]
      by_cases hv : v = -2 ^ 127
      · exact .inl ⟨hv, by rw [if_pos hv]; rfl⟩
      · exact .inr ⟨hv, some (-v), by rw [if_neg hv]; rfl⟩
  · next cs hsign =>
    refine .inr ⟨fun h => ?_, _, rfl⟩
    obtain ⟨x, -, digits, hcs, -⟩ := h
    exact hsign _ hcs

/-- A text with a mark is none of the words for what is no finite number. -/
theorem not_nonFinite (h : hasRadix (unsigned cs) = true) :
    nonFinite.contains (String.ofList (cs.map Char.toLower)) = false := by
  have hzero (cs : List Char) (h : hasRadix cs = true) : ∃ rest, cs = '0' :: rest := by
    unfold hasRadix at h
    split at h
    · exact ⟨_, rfl⟩
    · exact ⟨_, rfl⟩
    · exact ⟨_, rfl⟩
    · cases h
  obtain ⟨rest, hrest⟩ := hzero _ h
  have hcs : cs = '0' :: rest ∨ cs = '-' :: '0' :: rest := by
    unfold unsigned at hrest
    split at hrest
    · exact .inr (congrArg _ hrest)
    · exact .inl hrest
  rw [contains_eq_mem, decide_eq_false_iff_not]
  intro hmem
  simp only [nonFinite, mem_cons, not_mem_nil, or_false, ← String.toList_inj,
    String.toList_ofList] at hmem
  rcases hcs with rfl | rfl <;> rcases hmem with h | h | h | h <;> cases h

theorem normalize_cases (type : FieldType) (text : String) :
    ((readsInteger type text = true ∧ IsLeastNegated text.toList) ∧
      normalize type text = .error .negation) ∨
    ¬(readsInteger type text = true ∧ IsLeastNegated text.toList) ∧
    ∃ s, normalize type text = .ok s := by
  by_cases hinteger : type.isInteger = true
  · rw [normalize_of_isInteger hinteger, integer, readsInteger, hinteger, Bool.true_or]
    rcases integer?_cases text.toList with ⟨hleast, hread⟩ | ⟨hleast, v?, hread⟩ <;> rw [hread]
    · exact .inl ⟨⟨rfl, hleast⟩, rfl⟩
    · exact .inr ⟨fun h => hleast h.2, _, rfl⟩
  -- Both types of fractions read an integer in the same way, and differ in how they write it.
  have hfraction (render : Double → String) :
      ((hasRadix (unsigned text.toList) = true ∧ IsLeastNegated text.toList) ∧
        fraction text render = .error .negation) ∨
      ¬(hasRadix (unsigned text.toList) = true ∧ IsLeastNegated text.toList) ∧
        ∃ s, fraction text render = .ok s := by
    have hread : (∃ s, double? text = .ok s) → ∃ s, fraction text render = .ok s := by
      rintro ⟨s, hs⟩
      rw [fraction, hs]
      split <;> exact ⟨_, rfl⟩
    dsimp only [double?] at hread
    by_cases hradix : hasRadix (unsigned text.toList) = true
    · rw [if_pos hradix] at hread
      rcases integer?_cases text.toList with ⟨hleast, hover⟩ | ⟨hleast, v?, hv⟩
      · refine .inl ⟨⟨hradix, hleast⟩, ?_⟩
        dsimp only [fraction, double?]
        rw [not_nonFinite hradix, if_pos hradix, hover]
        rfl
      · exact .inr ⟨fun h => hleast h.2, hread ⟨_, by rw [hv]; rfl⟩⟩
    · rw [if_neg hradix] at hread
      exact .inr ⟨fun h => hradix h.1, hread ⟨_, rfl⟩⟩
  have hreads : readsInteger type text = true ↔
      (type = .double ∨ type = .float) ∧ hasRadix (unsigned text.toList) = true := by
    simp [readsInteger, hinteger]
  rw [hreads]
  cases type with
  | double => simpa only [normalize, true_or, true_and] using hfraction ofDouble
  | float => simpa only [normalize, or_true, true_and] using hfraction fun x => ofSingle x.toSingle
  | bool | string | bytes | enum | message | group => exact .inr ⟨by simp, text, rfl⟩
  | _ => exact absurd rfl hinteger

end DefaultText

/-! ### Files with a default value that overflows -/

/-- A field whose default value is read as the opposite of the least integer. -/
def FieldDescriptor.NegatesLeast (x : FieldDescriptor) : Prop :=
  ∃ type text, x.type? = some type ∧ x.defaultValue? = some text ∧
    DefaultText.readsInteger type text = true ∧ DefaultText.IsLeastNegated text.toList

theorem FieldDescriptor.overflows_cases (x : FieldDescriptor) :
    (x.NegatesLeast ∧ x.overflows = [.negation]) ∨ ¬x.NegatesLeast ∧ x.overflows = [] := by
  unfold overflows normalizeDefault
  cases hdefault : x.defaultValue? with
  | none => exact .inr ⟨fun ⟨_, _, _, h, _⟩ => (by cases hdefault.symm.trans h), rfl⟩
  | some text =>
    cases htype : x.type? with
    | none => exact .inr ⟨fun ⟨_, _, h, _⟩ => (by cases htype.symm.trans h), rfl⟩
    | some type =>
      have hnegates : x.NegatesLeast ↔ DefaultText.readsInteger type text = true ∧
          DefaultText.IsLeastNegated text.toList := by
        simp [NegatesLeast, htype, hdefault]
      rw [hnegates, Option.mapM_some, Option.elim_some]
      rcases DefaultText.normalize_cases type text with ⟨hover, hrun⟩ |
        ⟨hfits, s, hrun⟩ <;> rw [hrun]
      · exact .inl ⟨hover, rfl⟩
      · exact .inr ⟨hfits, rfl⟩

open DefaultText in
/-- The integers that come up in rendering a default value have 128 bits, unless one is read from a
text with a minus sign on both sides of the mark and the digits of the least integer. Just there the
program stops instead of rendering it. So does bringing a file into canonical form, if a field has
such a default value then, and else it answers as it does where default values are left alone. -/
theorem default_overflow_iff (type : FieldType) (text : String) :
    ((readsInteger type text = true → ∀ v ∈ computed text.toList, -2 ^ 127 ≤ v ∧ v < 2 ^ 127) ↔
      ¬(readsInteger type text = true ∧ IsLeastNegated text.toList)) ∧
    ((∃ s, normalize type text = .ok s) ↔
      ¬(readsInteger type text = true ∧ IsLeastNegated text.toList)) ∧
    ∀ (c : Canonicalizer) (p q : FileDescriptor) (log log' : Log),
      c.options.normalizeDefaults = false → c.canonicalize p log = .ok q log' →
      ((∃ x ∈ q.allFields, x.2.NegatesLeast) ∧
        c.normalizing.canonicalize p log = .error (.overflow .negation) log') ∨
      (∀ x ∈ q.allFields, ¬x.2.NegatesLeast) ∧
      ∃ r, c.normalizing.canonicalize p log = .ok r log' := by
  refine ⟨?_, ?_, fun c p q log log' hdefaults h => ?_⟩
  · rw [computed_range_iff, not_and]
  · rcases normalize_cases type text with ⟨hover, hrun⟩ | ⟨hfits, hrun⟩
    · exact ⟨fun ⟨s, hs⟩ => (by cases hrun.symm.trans hs), fun hfits => absurd hover hfits⟩
    · exact ⟨fun _ => hfits, fun _ => hrun⟩
  · rw [Canonicalizer.canonicalize_normalizing hdefaults h, Canonicalizer.normalizeDefaults_eq]
    by_cases hall : ∀ x ∈ q.allFields, ¬x.2.NegatesLeast
    · have hnil : q.allFields.flatMap (fun x => x.2.overflows) = [] := by
        refine flatMap_eq_nil_iff.mpr fun x hx => ?_
        exact (x.2.overflows_cases.resolve_left fun h => hall x hx h.1).2
      rw [hnil]
      exact .inr ⟨hall, _, rfl⟩
    · obtain ⟨x, hx, hnegates⟩ : ∃ x ∈ q.allFields, x.2.NegatesLeast := by simpa using hall
      refine .inl ⟨⟨x, hx, hnegates⟩, ?_⟩
      have hmem : Overflow.negation ∈ q.allFields.flatMap fun x => x.2.overflows := by
        refine mem_flatMap.mpr ⟨x, hx, ?_⟩
        rw [(x.2.overflows_cases.resolve_right fun h => h.1 hnegates).2]
        exact .head _
      have hsame : ∀ e ∈ q.allFields.flatMap (fun x => x.2.overflows), e = .negation := by
        intro e he
        obtain ⟨y, -, he⟩ := mem_flatMap.mp he
        rcases y.2.overflows_cases with ⟨-, hy⟩ | ⟨-, hy⟩ <;> rw [hy] at he
        · exact mem_singleton.mp he
        · cases he
      cases hes : q.allFields.flatMap fun x => x.2.overflows with
      | nil => rw [hes] at hmem; cases hmem
      | cons e es =>
        rw [hes] at hsame
        rw [hsame e (.head _)]
        rfl

theorem leastNegated_stops :
    DefaultText.readsInteger .int32 "--170141183460469231731687303715884105728" = true ∧
    (¬∀ v ∈ DefaultText.computed "--170141183460469231731687303715884105728".toList,
      -2 ^ 127 ≤ v ∧ v < 2 ^ 127) ∧
    normalize .int32 "--170141183460469231731687303715884105728" = .error .negation := by
  decide +kernel

end ProtobufSchema

import ProtobufSchema.Proofs.WrittenTrees

/-! Every tree that was read is a tree as it can stand in a text. -/

namespace ProtobufSchema

open Name (dotted)

variable {f : FieldMember} {place : FieldPlace} {w : String}
variable {found : Bool}

namespace Parse

variable {α : Type}

theorem token_written : Yields (·.token.IsSpelled) token :=
  .of_estate fun _ _ _ h => token_isSpelled h

theorem expectName_written : Yields IsWord expectName := by
  refine token_written.bind fun t ht => ?_
  split
  · rename_i word hword
    rw [hword] at ht
    exact .pure ht
  · exact unexpected_yields _ _

theorem moreSegments_written (fuel : Nat) :
    Yields (fun more : String => ∃ ss, (∀ s ∈ ss, IsWord s) ∧
      ∀ first, first ++ more = dotted (first :: ss))
      (moreSegments fuel) := by
  induction fuel with
  | zero => exact exhausted_yields
  | succ fuel ih =>
    refine .skip fun found => .ite ?_ (.pure ⟨[], by simp, fun first => ?_⟩)
    · refine expectName_written.bind fun segment hsegment => ih.bind fun more hmore => ?_
      obtain ⟨ss, hss, hdotted⟩ := hmore
      refine .pure ⟨segment :: ss, List.forall_mem_cons.mpr ⟨hsegment, hss⟩, fun first => ?_⟩
      rw [dotted, String.intercalate_cons_cons, ← dotted, ← hdotted, String.append_assoc,
        String.append_assoc]
    · rw [Name.dotted_singleton, String.append_empty]

theorem bracedText_written : Yields Scan.IsEnclosed bracedText :=
  scan_yields (.of_estate fun _ _ _ h => Scan.isEnclosed_of_bracedText h)

end Parse

def Cursor.Next (c : Cursor) (t : Token) : Prop := ∃ l c', Parse.token c = .ok l c' ∧ l.token = t

namespace Parse

variable {α : Type} {c c' : Cursor} {t : Token} {a : α} {name : String}

theorem next_unique {t' : Token} (h : c.Next t) (h' : c.Next t') : t = t' := by
  obtain ⟨l, c₁, hl, rfl⟩ := h
  obtain ⟨l', c₂, hl', rfl⟩ := h'
  cases hl.symm.trans hl'
  rfl

theorem ahead_ok {p : Parse α} (h : ahead p c = .ok a c') : c' = c ∧ ∃ c₁, p c = .ok a c₁ := by
  unfold ahead at h
  split at h <;> cases h
  exact ⟨rfl, _, ‹_›⟩

theorem peek_ok {t : LocatedToken} (h : peek c = .ok t c') : c' = c ∧ c.Next t.token := by
  obtain ⟨hc, c₁, ht⟩ := ahead_ok h
  exact ⟨hc, t, c₁, ht, rfl⟩

theorem ok_of_bind {β : Type} {p : Parse β} {f : β → Parse α} (h : (p >>= f) c = .ok a c') :
    ∃ b c₁ p', p c = .ok b c₁ ∧ f b = p' ∧ p' c₁ = .ok a c' := by
  obtain ⟨b, c₁, hb, ha⟩ := bind_ok h
  exact ⟨b, c₁, f b, hb, rfl, ha⟩

theorem ok_of_peek {f : LocatedToken → Parse α} (h : (peek >>= f) c = .ok a c') :
    ∃ t p, c.Next t.token ∧ f t = p ∧ p c = .ok a c' := by
  obtain ⟨t, c₁, p, hpeek, hp, ha⟩ := ok_of_bind h
  obtain ⟨rfl, hnext⟩ := peek_ok hpeek
  exact ⟨t, p, hnext, hp, ha⟩

theorem eat_ok (h : eat t c = .ok found c') :
    (found = true ∧ c.Next t) ∨ (found = false ∧ c' = c ∧ ¬ c.Next t) := by
  obtain ⟨l, p, hnext, hp, h⟩ := ok_of_peek h
  split at hp <;> subst hp
  · rename_i hl
    obtain ⟨_, _, -, h⟩ := bind_ok h
    cases h
    exact .inl ⟨rfl, hl ▸ hnext⟩
  · rename_i hl
    cases h
    exact .inr ⟨rfl, rfl, fun h => hl (next_unique hnext h)⟩

theorem expectName_ok (h : expectName c = .ok w c') :
    ∃ l, token c = .ok l c' ∧ l.token = .name w := by
  obtain ⟨l, c₁, hl, hw⟩ := bind_ok h
  cases htoken : l.token with
  | name word =>
    rw [htoken] at hw
    cases hw
    exact ⟨l, hl, htoken⟩
  | _ =>
    rw [htoken] at hw
    cases hw

theorem dottedName_ok (h : dottedName c = .ok name c') :
    ∃ s ss, (∀ x ∈ s :: ss, IsWord x) ∧ name = dotted (s :: ss) ∧ c.Next (.name s) := by
  obtain ⟨first, c₁, hfirst, h⟩ := bind_ok h
  obtain ⟨more, c₂, hmore, h⟩ := bind_ok h
  cases h
  obtain ⟨l, hl, hlt⟩ := expectName_ok hfirst
  obtain ⟨ss, hss, hdotted⟩ := (fueled_yields moreSegments_written).estate hmore
  exact ⟨first, ss, List.forall_mem_cons.mpr ⟨expectName_written.estate hfirst, hss⟩,
    hdotted first, l, c₁, hl, hlt⟩

theorem dottedName_written : Yields IsDotted dottedName := by
  refine .of_estate fun c name c' h => ?_
  obtain ⟨s, ss, hwords, hname, -⟩ := dottedName_ok h
  exact ⟨s, ss, hwords, hname⟩

theorem reference_ok (h : reference c = .ok name c') :
    IsReference name ∧ ∀ w ∈ Tree.firstWord? name, w = "." ∨ c.Next (.name w) := by
  obtain ⟨qualified, c₁, heat, h⟩ := bind_ok h
  obtain ⟨n, c₂, hn, h⟩ := bind_ok h
  cases h
  obtain ⟨s, ss, hwords, rfl, hnext⟩ := dottedName_ok hn
  have hsegments : ∀ x ∈ s :: ss, Name.IsSegment x := fun x hx => (hwords x hx).segment
  rcases eat_ok heat with ⟨rfl, -⟩ | ⟨rfl, rfl, -⟩
  · refine ⟨.inr ⟨_, ⟨s, ss, hwords, rfl⟩, rfl⟩, fun w hw => .inl ?_⟩
    rw [if_pos rfl, Tree.firstWord?, Name.words_qualified hsegments] at hw
    exact (Option.some.inj hw).symm
  · refine ⟨.inl ⟨s, ss, hwords, rfl⟩, fun w hw => .inr ?_⟩
    rw [if_neg Bool.false_ne_true, Tree.firstWord?, Name.words_dotted hsegments] at hw
    rwa [← Option.some.inj hw]

theorem reference_written : Yields IsReference reference :=
  .of_estate fun _ _ _ h => (reference_ok h).1

theorem reference_single {c₁ : Cursor} {l : LocatedToken} (hl : token c = .ok l c₁)
    (hw : l.token = .name w) (hnext : c₁.Next t) (ht : t ≠ .symbol '.')
    (h : reference c = .ok name c') : name = w := by
  obtain ⟨qualified, c₂, heat, h⟩ := bind_ok h
  obtain ⟨n, c₃, hn, h⟩ := bind_ok h
  cases h
  rcases eat_ok heat with ⟨-, hdot⟩ | ⟨rfl, rfl, -⟩
  · cases next_unique hdot ⟨l, c₁, hl, hw⟩
  obtain ⟨first, c₄, hfirst, hn⟩ := bind_ok hn
  obtain ⟨more, c₅, hmore, hn⟩ := bind_ok hn
  cases hn
  obtain ⟨l', hl', hword⟩ := expectName_ok hfirst
  cases hl.symm.trans hl'
  cases hw.symm.trans hword
  obtain ⟨found, c₆, heat, hmore⟩ := bind_ok hmore
  rcases eat_ok heat with ⟨-, hdot⟩ | ⟨rfl, rfl, -⟩
  · exact absurd (next_unique hnext hdot) ht
  cases hmore
  rw [if_neg Bool.false_ne_true, String.append_empty]

end Parse

namespace Tree

namespace Grammar

open Parse

variable {c c' : Cursor} {label? : Option Label}
variable {start : LocatedToken} {file : File} (kind : RangeKind) (t : LocatedToken)
  (dialect : Dialect)

theorem separated_written {α : Type} {element : Parse α} {P : α → Prop} (separator : Char)
    (h : Yields P element) :
    Yields (fun xs => xs ≠ [] ∧ ∀ x ∈ xs, P x) (fueled (separated element separator)) := by
  refine fueled_yields fun fuel => ?_
  induction fuel with
  | zero => exact exhausted_yields
  | succ fuel ih =>
    refine h.bind fun x hx => .skip fun found => .ite ?_ (.pure (by simpa using hx))
    exact ih.bind fun xs hxs => .pure ⟨by simp, List.forall_mem_cons.mpr ⟨hx, hxs.2⟩⟩

theorem constant_written : Yields Constant.IsWritten constant := by
  have hsigned (negative : Bool) : Yields Constant.IsWritten (constant.signed negative) := by
    refine token_written.bind fun t hspelled => ?_
    dsimp only
    split
    · rename_i value text htoken
      rw [htoken] at hspelled
      cases negative
      · exact .pure (.integer hspelled)
      · exact .pure (.negative hspelled)
    · rename_i value text htoken
      rw [htoken] at hspelled
      cases negative
      · exact .pure (.decimal hspelled)
      · exact .pure (.negativeDecimal hspelled)
    · cases negative
      · exact .pure (.special (by decide))
      · exact .pure (.negativeSpecial (by decide))
    · cases negative
      · exact .pure (.special (by decide))
      · exact .pure (.negativeSpecial (by decide))
    · exact unexpected_yields _ _
  refine token_written.bind fun t hspelled => ?_
  split
  · exact bracedText_written.bind fun text htext => .pure (.aggregate htext)
  · exact hsigned true
  · exact hsigned false
  · rename_i value text htoken
    rw [htoken] at hspelled
    exact .pure (.integer hspelled)
  · rename_i value text htoken
    rw [htoken] at hspelled
    exact .pure (.decimal hspelled)
  · rename_i word htoken
    rw [htoken] at hspelled
    refine (fueled_yields moreSegments_written).bind fun more hmore => ?_
    obtain ⟨ss, hss, hdotted⟩ := hmore
    exact .pure (.identifier ⟨word, ss, List.forall_mem_cons.mpr ⟨hspelled, hss⟩, hdotted word⟩)
  · exact .skip fun more => .pure (.string _)
  · exact unexpected_yields _ _

theorem namePart_written : Yields IsPart namePart := by
  refine .skip fun found => .ite ?_ ?_
  · exact reference_written.bind fun name hname => .skip fun _ => .pure hname
  · exact expectName_written.bind fun name hname => .pure hname

theorem assignment_written : Yields Assignment.IsWritten assignment := by
  refine .skip fun t => (separated_written '.' namePart_written).bind
    fun name hname => .skip fun _ => ?_
  exact constant_written.bind fun value hvalue => .pure ⟨hname.1, hname.2, hvalue⟩

theorem optionStatement_written : Yields Assignment.IsWritten optionStatement :=
  .skip fun _ => assignment_written.bind fun _ ha => .skip fun _ => .pure ha

theorem bracketOptions_written :
    Yields (fun options => ∀ a ∈ options, a.IsWritten) bracketOptions := by
  refine .skip fun found => .ite ?_ (.pure (by simp))
  exact (separated_written ',' assignment_written).bind
    fun options hoptions => .skip fun _ => .pure hoptions.2

theorem toInt_fieldNumber {value : UInt64} (h : value.toNat ≤ 536870911) :
    value.toUInt32.toInt32.toInt = value.toNat := by
  have hnat : value.toUInt32.toBitVec.toNat = value.toNat := by
    rw [UInt32.toNat_toBitVec, UInt64.toNat_toUInt32]
    omega
  have hint : value.toUInt32.toBitVec.toInt = value.toUInt32.toBitVec.toNat :=
    BitVec.toInt_eq_toNat_of_lt (by omega)
  rw [← hnat, ← hint]
  rfl

theorem fieldNumber_written : Yields IsFieldNumber fieldNumber := by
  refine .skip fun t => .skip fun value => ?_
  split
  · exact (fail_yields (P := fun _ => False) _ _).bind fun _ h => h.elim
  · rename_i hvalue
    rw [Bool.or_eq_true, decide_eq_true_eq, decide_eq_true_eq, ← UInt64.toNat_inj, not_or] at hvalue
    obtain ⟨hzero, hmax⟩ := hvalue
    change ¬ value.toNat = 0 at hzero
    change ¬ 536870911 < value.toNat at hmax
    refine .pure ?_
    rw [IsFieldNumber, toInt_fieldNumber (by omega)]
    omega

theorem int32Of_yields (span : Span) (value : Int) :
    Yields (·.toInt = value) (int32Of span value) := by
  unfold int32Of
  split
  · rename_i hvalue
    rw [Int32.toInt_maxValue] at hvalue
    exact .pure (Int32.toInt_ofInt_of_le hvalue.1 (by omega))
  · exact fail_yields _ _

theorem lowerBound_written : Yields (IsBound kind) (lowerBound kind) := by
  cases kind with
  | enumNumbers => exact (Yields.any _).mono fun _ _ => trivial
  | fieldNumbers =>
    refine .skip fun t => .skip fun value => (int32Of_yields _ _).mono fun n hn => ?_
    rw [IsBound, hn]
    exact Int.natCast_nonneg _

theorem range_written :
    Yields (fun r : Int32 × Int32 => IsBound kind r.1 ∧ IsBound kind r.2) (range kind) := by
  have hmax : IsBound kind kind.max := by
    cases kind with
    | enumNumbers => trivial
    | fieldNumbers => exact (by decide : 0 ≤ maxFieldNumber.toInt)
  refine (lowerBound_written kind).bind fun first hfirst => ?_
  refine .skip fun found => .ite ?_ (.pure ⟨hfirst, hfirst⟩)
  refine .bind (.skip fun isMax => .ite (.pure hmax) (lowerBound_written kind)) ?_
  exact fun last hlast => .pure ⟨hfirst, hlast⟩

theorem ranges_written : Yields (AreRanges kind) (ranges kind) :=
  (separated_written ',' (range_written kind)).mono fun _ hrs => ⟨hrs.1, hrs.2⟩

theorem extensions_written : Yields Extensions.IsWritten extensions := by
  refine .skip fun start => (ranges_written _).bind fun ranges hranges => ?_
  exact bracketOptions_written.bind fun options hoptions => .skip fun _ => .pure ⟨hranges, hoptions⟩

theorem reserved_written : Yields (Reserved.IsWritten kind) (reserved kind) := by
  refine .skip fun start => .skip fun t => ?_
  split
  · refine (separated_written ',' (.any reservedName)).bind fun names hnames => ?_
    exact (Yields.pure (.inl ⟨hnames.1, rfl⟩)).bind fun r hr => .skip fun _ => .pure hr
  · refine (ranges_written kind).bind fun ranges hranges => ?_
    exact (Yields.pure (.inr ⟨rfl, hranges⟩)).bind fun r hr => .skip fun _ => .pure hr

theorem map_written : Yields MapField.IsWritten map := by
  refine .skip
    fun start => .skip fun _ => .skip fun _ => expectName_written.bind fun keyType hkey => ?_
  by_cases hscalar : isMapKey keyType = true
  · rw [hscalar]
    refine .skip fun _ => reference_written.bind fun valueType htype => .skip fun _ => ?_
    refine expectName_written.bind fun name hname => .skip fun _ => ?_
    refine fieldNumber_written.bind fun number hnumber => ?_
    refine bracketOptions_written.bind fun options hoptions => .skip fun _ => .pure ?_
    exact ⟨hkey, hscalar, htype, hname, hnumber, hoptions⟩
  · rw [Bool.not_eq_true _ |>.mp hscalar]
    exact (fail_yields (P := fun _ => False) _ _).bind fun _ h => h.elim

theorem membersWith_written {α : Type} {P : α → Prop} {member : LocatedToken → Parse α}
    (h : ∀ t c m c', c.Next t.token → member t c = .ok m c' → P m) :
    Yields (fun ms => ∀ m ∈ ms, P m) (fueled (membersWith member)) := by
  refine fueled_yields fun fuel => ?_
  induction fuel with
  | zero => exact exhausted_yields
  | succ fuel ih =>
    refine .of_estate fun c ms c' hms => ?_
    obtain ⟨t, rest, hnext, hrest, hms⟩ := ok_of_peek hms
    split at hrest <;> subst hrest
    · obtain ⟨_, _, -, hms⟩ := bind_ok hms
      cases hms
      simp
    · obtain ⟨_, _, -, hms⟩ := bind_ok hms
      exact ih.estate hms
    · obtain ⟨m, c₂, hm, hms⟩ := bind_ok hms
      obtain ⟨ms', c₃, hms', hms⟩ := bind_ok hms
      cases hms
      exact List.forall_mem_cons.mpr ⟨h t c m c₂ hnext hm, ih.estate hms'⟩

theorem enumValue_written : Yields EnumValue.IsWritten enumValue := by
  refine token_written.bind fun start hstart => ?_
  split
  · rename_i name hname
    rw [hname] at hstart
    refine .skip fun _ => .skip fun number => bracketOptions_written.bind fun options hoptions => ?_
    exact .skip fun _ => .pure ⟨hstart, hoptions⟩
  · exact unexpected_yields _ _

theorem enumMember_written : Yields EnumMember.IsWritten (enumMember t) := by
  have hvalue : Yields EnumMember.IsWritten (do return .value (← enumValue) : Parse EnumMember) :=
    enumValue_written.bind fun v hv => .pure (.value hv)
  unfold enumMember
  split
  · exact .skip fun _ => .ite hvalue (optionStatement_written.bind fun a ha => .pure (.option ha))
  · exact .skip fun _ => .ite hvalue ((reserved_written _).bind fun r hr => .pure (.reserved hr))
  · exact hvalue
  · exact unexpected_yields _ _

theorem enum_written : Yields Enum.IsWritten enum := by
  refine .skip fun start => expectName_written.bind fun name hname => .skip fun _ => ?_
  refine (membersWith_written fun t _ _ _ _ => (enumMember_written t).estate).bind
    fun members hmembers => ?_
  exact .pure ⟨hname, hmembers⟩

theorem secondIs_ok {symbol : Char} (h : secondIs symbol c = .ok found c') :
    c' = c ∧ ∃ l c₁ t, token c = .ok l c₁ ∧ c₁.Next t ∧ (found = true → t = .symbol symbol) := by
  obtain ⟨rfl, c₁, h⟩ := ahead_ok h
  obtain ⟨l, c₂, hl, h⟩ := bind_ok h
  obtain ⟨l', c₃, hl', h⟩ := bind_ok h
  cases h
  exact ⟨rfl, l, c₂, l'.token, hl, ⟨l', _, hl', rfl⟩, fun hfound => by simpa using hfound⟩

theorem methodType_written :
    Yields (fun x : Bool × String => Method.IsType x.1 x.2) methodType := by
  refine .of_estate fun c x c' h => ?_
  have rest {streaming : Bool} {c₁ : Cursor} (h : (do
      let type ← reference
      expectSymbol ')'
      return (streaming, type) : Parse (Bool × String)) c₁ = .ok x c') :
      ∃ type c₂, reference c₁ = .ok type c₂ ∧ x = (streaming, type) := by
    obtain ⟨type, c₂, htype, h⟩ := bind_ok h
    obtain ⟨_, _, -, h⟩ := bind_ok h
    cases h
    exact ⟨type, c₂, htype, rfl⟩
  obtain ⟨_, c₁, -, h⟩ := bind_ok h
  obtain ⟨t, p, hnext, hp, h⟩ := ok_of_peek h
  split at hp <;> subst hp
  · rename_i ht
    obtain ⟨alone, c₂, halone, h⟩ := bind_ok h
    obtain ⟨rfl, l, c₃, t', hl, hnext', halone⟩ := secondIs_ok halone
    cases alone with
    | true =>
      obtain ⟨type, c₄, htype, rfl⟩ := rest h
      have hstream : l.token = .name "stream" := next_unique ⟨l, c₃, hl, rfl⟩ (ht ▸ hnext)
      have hword : type = "stream" :=
        reference_single hl hstream hnext' (by rw [halone rfl]; decide) htype
      exact ⟨(reference_ok htype).1, fun _ _ => hword⟩
    | false =>
      obtain ⟨_, c₄, -, h⟩ := bind_ok h
      obtain ⟨type, c₅, htype, rfl⟩ := rest h
      exact ⟨(reference_ok htype).1, nofun⟩
  · rename_i ht
    obtain ⟨type, c₂, htype, rfl⟩ := rest h
    refine ⟨(reference_ok htype).1, fun _ hfirst => ?_⟩
    rcases (reference_ok htype).2 _ hfirst with hdot | hstream
    · exact absurd hdot (by decide)
    · exact absurd (next_unique hnext hstream) ht

theorem methodOption_written : Yields Assignment.IsWritten (methodOption t) := by
  unfold methodOption
  split
  · exact optionStatement_written
  · exact unexpected_yields _ _

theorem method_written : Yields Method.IsWritten method := by
  refine .skip fun start => expectName_written.bind fun name hname => ?_
  refine methodType_written.bind fun input hinput => .skip fun _ => ?_
  refine methodType_written.bind fun output houtput => ?_
  refine .skip fun found => .ite ?_ ?_
  · refine (membersWith_written fun t _ _ _ _ => (methodOption_written t).estate).bind
      fun options hoptions => ?_
    exact .skip fun _ => .pure ⟨hname, hinput, houtput, hoptions⟩
  · exact .skip fun _ => .pure ⟨hname, hinput, houtput, by simp⟩

theorem serviceMember_written : Yields ServiceMember.IsWritten (serviceMember t) := by
  unfold serviceMember
  split
  · exact optionStatement_written.bind fun a ha => .pure (.option ha)
  · exact method_written.bind fun m hm => .pure (.method hm)
  · exact unexpected_yields _ _

theorem service_written : Yields Service.IsWritten service := by
  refine .skip fun start => expectName_written.bind fun name hname => .skip fun _ => ?_
  refine (membersWith_written fun t _ _ _ _ => (serviceMember_written t).estate).bind
    fun members hmembers => ?_
  exact .pure ⟨hname, hmembers⟩

theorem label_ok (h : label c = .ok label? c') (hnone : label? = none) :
    c' = c ∧ ∀ w, c.Next (.name w) → Label.ofKeyword? w = none := by
  obtain ⟨t, p, hnext, hp, h⟩ := ok_of_peek h
  split at hp
  · rename_i word hword
    split at hp <;> subst hp
    · obtain ⟨_, _, -, h⟩ := bind_ok h
      cases h
      cases hnone
    · rename_i hkeyword
      cases h
      refine ⟨rfl, fun w hw => ?_⟩
      cases next_unique (hword ▸ hnext) hw
      exact hkeyword
  · rename_i hname
    subst hp
    cases h
    exact ⟨rfl, fun w hw => absurd (next_unique hnext hw) (hname w)⟩

theorem fieldLabel_ok {dialect : Dialect}
    (hplace : place.isLabelled = true) (h : fieldLabel dialect start c = .ok label? c') :
    place.Allows dialect label? ∧ label c = .ok label? c' := by
  obtain ⟨found?, c₁, p, hfound, hp, h⟩ := ok_of_bind h
  split at hp <;> subst hp
  · obtain ⟨_, _, -, h⟩ := bind_ok h
    cases h
  · cases h
  · rename_i hproto2 hproto3
    cases h
    refine ⟨?_, hfound⟩
    cases place with
    | oneof => cases hplace
    | message | extend =>
      cases dialect with
      | proto2 => exact fun hnone => hproto2 rfl hnone
      | proto3 => exact fun hrequired => hproto3 rfl hrequired

theorem field_ok {f : Field} (h : field label? start c = .ok f c') :
    f.label? = label? ∧ f.IsWritten ∧ ∀ w ∈ firstWord? f.typeName, w = "." ∨ c.Next (.name w) := by
  obtain ⟨type, c₁, htype, h⟩ := bind_ok h
  obtain ⟨hreference, hfirst⟩ := reference_ok htype
  have hrest : Yields (fun f : Field => f.label? = label? ∧ f.IsWritten ∧ f.typeName = type) (do
      let name ← expectName
      expectSymbol '='
      let number ← fieldNumber
      let options ← bracketOptions
      expectSymbol ';'
      return ⟨label?, type, name, number, options, start.span, start.comment?⟩ : Parse Field) := by
    refine expectName_written.bind fun name hname => .skip fun _ => ?_
    refine fieldNumber_written.bind fun number hnumber => ?_
    refine bracketOptions_written.bind fun options hoptions => .skip fun _ => .pure ?_
    exact ⟨rfl, ⟨hreference, hname, hnumber, hoptions⟩, rfl⟩
  obtain ⟨hlabel, hwritten, rfl⟩ := hrest.estate h
  exact ⟨hlabel, hwritten, hfirst⟩

structure IsGroupHead (dialect : Dialect) (head : String × Int32 × List Assignment) : Prop where
  dialect_eq : dialect = .proto2
  name : IsWord head.1
  upper : head.1.toList.head?.any Char.isUpper = true
  number : IsFieldNumber head.2.1
  options : ∀ a ∈ head.2.2, a.IsWritten

theorem groupHead_written (start : LocatedToken) :
    Yields (IsGroupHead dialect) (groupHead dialect start) := by
  have hfail {P : String × Int32 × List Assignment → Prop} {span : Span} {fault : SyntaxFault}
      {p : Unit → Parse (String × Int32 × List Assignment)} : Yields P (fail span fault >>= p) :=
    (fail_yields (P := fun _ => False) _ _).bind fun _ h => h.elim
  unfold groupHead
  split
  · exact hfail
  · rename_i hdialect
    have hdialect : dialect = .proto2 := by
      cases dialect with
      | proto2 => rfl
      | proto3 => exact absurd rfl hdialect
    refine .skip fun _ => .skip fun _ => expectName_written.bind fun name hname => ?_
    split
    · exact hfail
    · rename_i hupper
      refine .skip fun _ => fieldNumber_written.bind fun number hnumber => ?_
      refine bracketOptions_written.bind fun options hoptions => .skip fun _ => .pure ?_
      exact ⟨hdialect, hname, by simpa using hupper, hnumber, hoptions⟩

theorem messageHead_written : Yields (fun head => IsWord head.2) messageHead :=
  .skip fun _ => expectName_written.bind fun _ hname => .skip fun _ => .pure hname

section Body

variable {dialect : Dialect} {body : Parse (List Member)}
  (hbody : Yields (fun ms => ∀ m ∈ ms, Member.IsWritten dialect m) body) {t : LocatedToken}
include hbody

theorem fieldMember_ok (htaken : ∀ w, c.Next (.name w) → w ∉ place.taken)
    (hlabel : place.isLabelled = false → ∀ w, c.Next (.name w) → Label.ofKeyword? w = none)
    (h : fieldMember dialect body place.isLabelled c = .ok f c') : f.IsWritten dialect place := by
  obtain ⟨start, p, -, hp, hf⟩ := ok_of_peek h
  have hlabelled : ∃ label? c₁, place.Allows dialect label? ∧
      (label? = none → c₁ = c ∧ ∀ w, c.Next (.name w) → Label.ofKeyword? w = none) ∧
      afterLabel dialect body start label? c₁ = .ok f c' := by
    split at hp <;> subst hp
    · rename_i hplace
      obtain ⟨label?, c₁, hfound, hf⟩ := bind_ok hf
      obtain ⟨hallows, hfound⟩ := fieldLabel_ok hplace hfound
      exact ⟨label?, c₁, hallows, label_ok hfound, hf⟩
    · rename_i hplace
      cases place with
      | oneof => exact ⟨none, c, rfl, fun _ => ⟨rfl, hlabel rfl⟩, hf⟩
      | message | extend => exact absurd rfl hplace
  obtain ⟨label?, c₁, hallows, hnone, h⟩ := hlabelled
  obtain ⟨t, p, hnext, hp, h⟩ := ok_of_peek h
  split at hp <;> subst hp
  · obtain ⟨⟨name, number, options⟩, c₂, hhead, h⟩ := bind_ok h
    obtain ⟨members, c₃, hmembers, h⟩ := bind_ok h
    cases h
    have hhead := (groupHead_written dialect start).estate hhead
    exact .group hhead.dialect_eq hallows hhead.name hhead.upper hhead.number hhead.options
      (hbody.estate hmembers)
  · rename_i hgroup
    obtain ⟨g, c₂, hg, h⟩ := bind_ok h
    cases h
    obtain ⟨rfl, hwritten, hfirst⟩ := field_ok hg
    refine .field hallows ⟨fun hword => ?_, fun hlabel w hw => ?_, fun hlabel w hw => ?_⟩ hwritten
    · rcases hfirst _ hword with hdot | hword
      · exact absurd hdot (by decide)
      · exact hgroup (next_unique hnext hword)
    · obtain ⟨rfl, hkeyword⟩ := hnone hlabel
      rcases hfirst w hw with rfl | hw
      · decide
      · exact hkeyword w hw
    · obtain ⟨rfl, -⟩ := hnone hlabel
      rcases hfirst w hw with rfl | hw
      · cases place <;> decide
      · exact htaken w hw

theorem oneofMember_ok {m : OneofMember} (hnext : c.Next t.token)
    (h : oneofMember dialect body t c = .ok m c') :
    (∀ f, m = .field f → f.IsWritten dialect .oneof) ∧ ∀ a, m = .option a → a.IsWritten := by
  have hfield (hword : ∀ w, c.Next (.name w) → w ∉ FieldPlace.oneof.taken ∧
      Label.ofKeyword? w = none)
      (h : (do return .field (← fieldMember dialect body false) : Parse OneofMember) c = .ok m c') :
      (∀ f, m = .field f → f.IsWritten dialect .oneof) ∧ ∀ a, m = .option a → a.IsWritten := by
    obtain ⟨f, c₁, hf, h⟩ := bind_ok h
    cases h
    refine ⟨?_, nofun⟩
    rintro _ ⟨⟩
    exact fieldMember_ok hbody (fun w hw => (hword w hw).1) (fun _ w hw => (hword w hw).2) hf
  generalize hp : oneofMember dialect body t = p at h
  unfold oneofMember at hp
  split at hp
  · subst hp
    obtain ⟨a, c₁, ha, h⟩ := bind_ok h
    cases h
    refine ⟨nofun, ?_⟩
    rintro _ ⟨⟩
    exact optionStatement_written.estate ha
  · rename_i word hoption hword
    split at hp <;> subst hp
    · cases h
    · rename_i hkeyword
      refine hfield (fun w hw => ?_) h
      cases next_unique (hword ▸ hnext) hw
      exact ⟨by simpa [FieldPlace.taken] using hoption, by simpa using hkeyword⟩
  · rename_i hdot
    subst hp
    rw [hdot] at hnext
    exact hfield (fun w hw => nomatch next_unique hnext hw) h
  · subst hp
    cases h

theorem oneof_written :
    Yields (fun o => Member.IsWritten dialect (.oneof o)) (oneof dialect body) := by
  refine messageHead_written.bind fun head hname => ?_
  refine (membersWith_written fun t c m c' hnext h => oneofMember_ok hbody hnext h).bind
    fun members hmembers => .pure (.oneof hname ?_ ?_)
  · exact fun f hf => (hmembers _ hf).1 f rfl
  · exact fun a ha => (hmembers _ ha).2 a rfl

theorem extendMember_ok (h : extendMember dialect body t c = .ok f c') :
    f.IsWritten dialect .extend := by
  generalize hp : extendMember dialect body t = p at h
  unfold extendMember at hp
  split at hp <;> subst hp
  · exact fieldMember_ok hbody (fun w _ => List.not_mem_nil) nofun h
  · exact fieldMember_ok hbody (fun w _ => List.not_mem_nil) nofun h
  · cases h

theorem extend_written :
    Yields (fun x => IsReference x.extendee ∧ ∀ f ∈ x.fields, f.IsWritten dialect .extend)
      (extend dialect body) := by
  refine .skip fun start => reference_written.bind fun extendee hextendee => .skip fun _ => ?_
  refine (membersWith_written fun t c f c' _ h => extendMember_ok hbody h).bind
    fun fields hfields => ?_
  exact .pure ⟨hextendee, hfields⟩

theorem message_written :
    Yields (fun m => IsWord m.name ∧ ∀ x ∈ m.members, Member.IsWritten dialect x) (message body) :=
  messageHead_written.bind fun _ hname => hbody.bind fun _ hmembers => .pure ⟨hname, hmembers⟩

omit hbody in
theorem memberKind_stays {kind : MemberKind} (h : memberKind t c = .ok kind c') : c' = c := by
  have hdeclared {kind' : MemberKind} (h : memberKind.declared kind' c = .ok kind c') : c' = c := by
    obtain ⟨found, c₁, hfound, h⟩ := bind_ok h
    cases h
    exact (ahead_ok hfound).1
  generalize hp : memberKind t = p at h
  unfold memberKind at hp
  split at hp <;> subst hp
  iterate 4 · exact hdeclared h
  iterate 3 · cases h; rfl
  · obtain ⟨found, c₁, hfound, h⟩ := bind_ok h
    cases h
    exact (ahead_ok hfound).1
  iterate 2 · cases h; rfl
  iterate 2 · cases h

omit hbody in
theorem not_taken_of_field (h : memberKind t c = .ok .field c') (hw : t.token = .name w) :
    w ∉ FieldPlace.message.taken := by
  intro hmem
  simp only [FieldPlace.taken, List.mem_cons, List.not_mem_nil, or_false] at hmem
  rw [memberKind, hw] at h
  rcases hmem with rfl | rfl | rfl <;> cases h

theorem member_ok {m : Member} (hnext : c.Next t.token) (h : member dialect body t c = .ok m c') :
    m.IsWritten dialect := by
  obtain ⟨kind, c₁, hkind, h⟩ := bind_ok h
  obtain rfl := memberKind_stays hkind
  cases kind with
  | message => exact ((message_written hbody).bind fun m hm => .pure (.message hm.1 hm.2)).estate h
  | enum => exact (enum_written.bind fun e he => .pure (.enum he)).estate h
  | extend => exact ((extend_written hbody).bind fun x hx => .pure (.extend hx.1 hx.2)).estate h
  | oneof => exact ((oneof_written hbody).bind fun o ho => .pure ho).estate h
  | option => exact (optionStatement_written.bind fun a ha => .pure (.option ha)).estate h
  | extensions => exact (extensions_written.bind fun x hx => .pure (.extensions hx)).estate h
  | reserved =>
    exact ((reserved_written .fieldNumbers).bind fun r hr => .pure (.reserved hr)).estate h
  | map => exact (map_written.bind fun m hm => .pure (.map hm)).estate h
  | field =>
    obtain ⟨f, c₂, hf, h⟩ := bind_ok h
    cases h
    refine .field (fieldMember_ok hbody (fun w hw => ?_) nofun hf)
    exact not_taken_of_field hkind (next_unique hnext hw)

end Body

theorem messageBody_written (depth : Nat) :
    Yields (fun ms => ∀ m ∈ ms, Member.IsWritten dialect m) (messageBody dialect depth) := by
  induction depth with
  | zero => exact exhausted_yields
  | succ depth ih => exact membersWith_written fun t c m c' hnext h => member_ok ih hnext h

theorem statement_written (hfile : file.IsWritten) (t : LocatedToken) :
    Yields File.IsWritten (statement file t) := by
  have hbody := fueled_yields (messageBody_written file.dialect)
  have add {item : Item} (hitem : item.IsWritten file.dialect) :
      File.IsWritten { file with items := file.items ++ [item] } :=
    { hfile with items := List.forall_mem_append.mpr ⟨hfile.items, by simpa using hitem⟩ }
  unfold statement
  split
  · exact .skip fun _ => .pure hfile
  · have rest : Yields File.IsWritten (do
        let name ← dottedName
        expectSymbol ';'
        return { file with package? := some ⟨name, t.span⟩ }) := by
      refine dottedName_written.bind fun name hname => .skip fun _ => .pure ?_
      exact { hfile with package := by simpa using hname }
    exact .skip fun _ => .ite (.skip fun _ => rest) rest
  · exact .skip fun _ => .skip fun _ => .skip fun _ => .skip fun _ => .pure { hfile with }
  · refine optionStatement_written.bind fun a ha => .pure ?_
    exact { hfile with options := List.forall_mem_append.mpr ⟨hfile.options, by simpa using ha⟩ }
  · exact (message_written hbody).bind fun m hm => .pure (add (.message hm.1 hm.2))
  · exact enum_written.bind fun e he => .pure (add (.enum he))
  · exact service_written.bind fun s hs => .pure (add (.service hs))
  · exact (extend_written hbody).bind fun x hx => .pure (add (.extend hx.1 hx.2))
  · exact fail_yields _ _
  · exact unexpected_yields _ _

theorem statements_written (hfile : file.IsWritten) (fuel : Nat) :
    Yields File.IsWritten (statements file fuel) := by
  induction fuel generalizing file with
  | zero => exact exhausted_yields
  | succ fuel ih =>
    refine .skip fun t => .ite (.pure hfile) ?_
    exact (statement_written hfile t).bind fun file' hfile' => ih hfile'

end Grammar

theorem File.parse_isWritten {text : String} {tree : File} (h : parse text = .ok tree) :
    tree.IsWritten := by
  have hfile : Yields IsWritten Grammar.file := by
    refine .skip fun dialect? => Parse.fueled_yields (Grammar.statements_written ?_)
    refine ⟨?_, by simp, by simp, by simp⟩
    cases dialect? with
    | none => exact fun _ => rfl
    | some dialect => exact nofun
  unfold parse at h
  split at h <;> cases h
  rename_i hparse
  exact hfile.estate hparse

theorem File.IsWritten.exists_package {tree : File} (h : tree.IsWritten) :
    ∃ ss, (∀ s ∈ ss, Name.IsSegment s) ∧ (tree.package?.map (·.name)).getD "" = dotted ss := by
  cases hpackage : tree.package? with
  | none => exact ⟨[], by simp, rfl⟩
  | some p =>
    obtain ⟨s, ss, hss, hname⟩ := h.package p hpackage
    exact ⟨s :: ss, fun x hx => (hss x hx).segment, hname⟩

end Tree

end ProtobufSchema

import Mathlib.Data.List.Nodup
import ProtobufSchema.Canonical
import ProtobufSchema.Proofs.DecodeFixpoint
import ProtobufSchema.Proofs.ScopeOptions

/-! Interpreted options are well typed, but for what may be stored under the number of the waiting
assignments. -/

namespace ProtobufSchema

open DecodeContext

variable {f : FieldDescriptor} {ctx : DecodeContext} {kind : OptionsKind}

namespace MessageDescriptor

variable {m : MessageDescriptor} {g : FieldDescriptor}

theorem of_fieldNumbered? {n : Int32} (h : m.fieldNumbered? n = some g) :
    g ∈ m.fields ∧ g.number = n := by
  have hg : g.number? = some n := by simpa using List.find?_some h
  exact ⟨List.mem_of_find?_eq_some h, by simp [FieldDescriptor.number, hg]⟩

theorem fieldNumbered?_of_unique (hf : f ∈ m.fields)
    (hne : f.number ≠ 0) (hunique : ∀ g ∈ m.fields, g.number = f.number → g = f) :
    m.fieldNumbered? f.number = some f := by
  have hnumber : f.number? = some f.number := by
    unfold FieldDescriptor.number at hne ⊢
    cases hn : f.number? with
    | none => simp [hn] at hne
    | some n => rfl
  cases hfound : m.fieldNumbered? f.number with
  | none =>
    have hnone := List.find?_eq_none.mp hfound f hf
    simp [hnumber] at hnone
  | some g =>
    obtain ⟨hg, hsame⟩ := of_fieldNumbered? hfound
    rw [hunique g hg hsame]

/-- An options type like those of the schema of schemas: fields of different numbers, none of which
holds a message but the one of the waiting assignments. -/
structure IsPlainOptions (type : MessageDescriptor) : Prop where
  numbers_ne_zero : ∀ f ∈ type.fields, f.number ≠ 0
  numbers_nodup : (type.fields.map FieldDescriptor.number).Nodup
  number_of_message : ∀ f ∈ type.fields, f.isMessage = true → f.number = Tag.uninterpreted.step
  assignments : ∃ f ∈ type.fields, f.number = Tag.uninterpreted.step ∧ f.type? = some .message ∧
    f.isRepeated = true

instance (type : MessageDescriptor) : Decidable type.IsPlainOptions :=
  decidable_of_iff ((∀ f ∈ type.fields, f.number ≠ 0) ∧
      (type.fields.map FieldDescriptor.number).Nodup ∧
      (∀ f ∈ type.fields, f.isMessage = true → f.number = Tag.uninterpreted.step) ∧
      ∃ f ∈ type.fields, f.number = Tag.uninterpreted.step ∧ f.type? = some .message ∧
        f.isRepeated = true)
    ⟨fun ⟨hzero, hnodup, hmessage, hassignments⟩ => ⟨hzero, hnodup, hmessage, hassignments⟩,
      fun h => ⟨h.numbers_ne_zero, h.numbers_nodup, h.number_of_message, h.assignments⟩⟩

namespace IsPlainOptions

variable {type : MessageDescriptor} (h : type.IsPlainOptions) {f : FieldDescriptor}
  (hf : f ∈ type.fields)
include h hf

theorem eq_of_number (hg : g ∈ type.fields) (hnumber : g.number = f.number) : g = f :=
  List.inj_on_of_nodup_map h.numbers_nodup hg hf hnumber

theorem fieldNumbered? : type.fieldNumbered? f.number = some f :=
  fieldNumbered?_of_unique hf (h.numbers_ne_zero f hf) fun _ hg => h.eq_of_number hf hg

theorem isRepeated_of_message (hmessage : f.isMessage = true) :
    f.isRepeated = true ∧ f.type? = some .message := by
  obtain ⟨g, hg, hnumber, htype, hrepeated⟩ := h.assignments
  have hsame := h.eq_of_number hf hg (hnumber.trans (h.number_of_message f hf hmessage).symm)
  exact hsame ▸ ⟨hrepeated, htype⟩

theorem isMessage_of_number (hnumber : f.number.toUInt32 = Tag.uninterpreted.number) :
    f.isMessage = true := by
  obtain ⟨g, hg, hassignments, htype, _⟩ := h.assignments
  have hsame : g.number = f.number := by
    rw [hassignments, ← f.number.toInt32_toUInt32, hnumber]
    rfl
  rw [← h.eq_of_number hf hg hsame, FieldDescriptor.isMessage, htype]
  rfl

end IsPlainOptions

end MessageDescriptor

namespace DecodeContext

/-- Every options type is found and is like that of the schema of schemas, which also has the mark
of a map's entries. -/
def OptionsArePlain (ctx : DecodeContext) : Prop :=
  ∀ kind : OptionsKind, ∃ type, ctx.types.message? kind.typeName = some type ∧
    type.IsPlainOptions ∧ (kind = .message →
      ∃ f ∈ type.fields, f.number = 7 ∧ f.type? = some .bool ∧ f.isRepeated = false)

theorem OptionsArePlain.declaresAssignments (h : ctx.OptionsArePlain) :
    ctx.DeclaresAssignments := by
  intro kind
  obtain ⟨type, htype, hplain, _⟩ := h kind
  obtain ⟨f, hf, hnumber, hmessage, hrepeated⟩ := hplain.assignments
  have hfound := hplain.fieldNumbered? hf
  rw [hnumber] at hfound
  exact ⟨type, f, htype, hfound, hrepeated, hmessage⟩

theorem DeclaresAssignments.isWaiting (h : ctx.DeclaresAssignments)
    (kind : OptionsKind) {w : WireField} (hw : ctx.consumes kind.typeName w = false) :
    w.isWaiting = false := by
  obtain ⟨type, f, htype, hf, _, hmessage⟩ := h kind
  by_contra hwaiting
  obtain ⟨hnumber, hkind⟩ : w.number = Tag.uninterpreted.number ∧
      w.payload.wireType = .lengthDelimited := by
    simpa [WireField.isWaiting] using hwaiting
  simp [DecodeContext.consumes, field?, htype, hnumber, hf, FieldDescriptor.takes, hmessage,
    FieldType.wireType, hkind] at hw

end DecodeContext

theorem Literal.coerce_isScalarOf {l : Literal} {types : TypeLookup}
    {v : Value} (h : l.coerce f types = .ok v) :
    ∃ type, f.type? = some type ∧ v.isScalarOf type = true := by
  unfold coerce at h
  split at h
  · cases h
  · rename_i type htype
    refine ⟨type, htype, ?_⟩
    cases type <;> first
      | cases h
      | (obtain ⟨x, _, h⟩ := bind_eq_ok.mp h; cases h; rfl)

namespace FieldDescriptor

def holding (f : FieldDescriptor) (type : FieldType) : Holding :=
  ⟨f.isRepeated, f.number.toUInt32, type, f.isPacked type⟩

variable {f : FieldDescriptor} {type : FieldType}

theorem store_eq (ht : f.type? = some type) (m : Message) (v : Value) :
    f.store m v = m.put (f.holding type) v := by
  simp only [store, ht, Message.put_eq]
  rfl

theorem holding_isOf {ctx : DecodeContext} {typeName : String} (ht : f.type? = some type)
    (h : f.number.toUInt32 ≠ 0 ∧ ctx.field? typeName f.number.toUInt32 = some f) :
    (f.holding type).IsOf ctx typeName f :=
  ⟨h.1, h.2, ht, rfl, fun hp => (Bool.and_eq_true_iff.mp hp).2⟩

end FieldDescriptor

/-- A message that is well typed, but for what is stored under the number of the waiting
assignments. -/
structure Message.IsNearlyTyped (ctx : DecodeContext) (typeName : String) (m : Message) : Prop where
  typeName_eq : m.typeName = typeName
  sorted : m.entries.Pairwise fun a b => a.number < b.number
  entries : ∀ e ∈ m.entries, e.number ≠ Tag.uninterpreted.number → e.WellTyped ctx typeName
  unknown_eq : m.unknown = []

namespace Message.IsNearlyTyped

variable {ctx : DecodeContext} {typeName : String} {m : Message}

theorem wellTyped (h : m.IsNearlyTyped ctx typeName)
    (hne : ∀ e ∈ m.entries, e.number ≠ Tag.uninterpreted.number) : m.WellTyped ctx := by
  refine wellTyped_iff.mpr ⟨h.sorted, ?_, ?_⟩
  · intro e he
    rw [h.typeName_eq]
    exact h.entries e he (hne e he)
  · rw [h.unknown_eq]
    exact .nil

variable {type : MessageDescriptor} {f : FieldDescriptor}

theorem field? (htype : ctx.types.message? typeName = some type) (hplain : type.IsPlainOptions)
    (hf : f ∈ type.fields) :
    f.number.toUInt32 ≠ 0 ∧ ctx.field? typeName f.number.toUInt32 = some f := by
  constructor
  · intro hzero
    refine hplain.numbers_ne_zero f hf ?_
    rw [← f.number.toInt32_toUInt32, hzero]
    rfl
  · simp [DecodeContext.field?, htype, hplain.fieldNumbered? hf]

variable (h : m.IsNearlyTyped ctx typeName) (hplain : type.IsPlainOptions) (hf : f ∈ type.fields)
  {v : Value}
include h hplain hf

theorem store_message (hmessage : f.isMessage = true) :
    (f.store m v).IsNearlyTyped ctx typeName := by
  obtain ⟨-, ht⟩ := hplain.isRepeated_of_message hf hmessage
  have hassignments : f.number.toUInt32 = Tag.uninterpreted.number := by
    rw [hplain.number_of_message f hf hmessage]
    rfl
  have hfills := (f.holding .message).storing_fills v
  rw [FieldDescriptor.store_eq ht]
  refine ⟨h.typeName_eq, hfills.alter_pairwise h.sorted, ?_, h.unknown_eq⟩
  intro e he hne
  rcases hfills.mem_alter he with he | he
  · exact h.entries e he hne
  · exact absurd (he.trans hassignments) hne

theorem store_scalar (htype : ctx.types.message? typeName = some type) {t : FieldType}
    (hmessage : f.isMessage = false) (ht : f.type? = some t) (hscalar : v.isScalarOf t = true) :
    (f.store m v).IsNearlyTyped ctx typeName := by
  have hs := FieldDescriptor.holding_isOf ht (field? htype hplain hf)
  obtain ⟨rfl, hsorted, hentries, hunknown⟩ := h
  have hother : f.number.toUInt32 ≠ Tag.uninterpreted.number := by
    intro hassignments
    rw [hplain.isMessage_of_number hf hassignments] at hmessage
    cases hmessage
  have hold : ∀ x ∈ m.entries, x.number = f.number.toUInt32 → x.WellTyped ctx m.typeName :=
    fun x hx hn => hentries x hx (hn ▸ hother)
  rw [FieldDescriptor.store_eq ht]
  refine ⟨rfl, ((f.holding t).storing_fills v).alter_pairwise hsorted, ?_, hunknown⟩
  intro e he hne
  rcases mem_put hs (Value.fits_of_isScalarOf hscalar) hold he with he | he
  · exact hentries e he hne
  · exact he

theorem store (htype : ctx.types.message? typeName = some type)
    (hv : f.isMessage = true ∨ ∃ type, f.type? = some type ∧ v.isScalarOf type = true) :
    (f.store m v).IsNearlyTyped ctx typeName := by
  cases hmessage : f.isMessage with
  | true => exact h.store_message hplain hf hmessage
  | false =>
    rcases hv with hv | ⟨t, ht, hscalar⟩
    · rw [hmessage] at hv
      cases hv
    · exact h.store_scalar hplain hf htype hmessage ht hscalar

end Message.IsNearlyTyped

theorem Options.IsFresh.isNearlyTyped (hctx : ctx.OptionsArePlain) {o : Options}
    (h : o.IsFresh kind) : o.message.IsNearlyTyped ctx kind.typeName := by
  obtain ⟨type, htype, hplain, hmark⟩ := hctx kind
  rcases h.2 with hempty | ⟨rfl, hentry⟩
  · rw [hempty]
    exact ⟨rfl, .nil, by simp [Message.empty], rfl⟩
  · obtain ⟨f, hf, hnumber, hbool, hsingle⟩ := hmark rfl
    obtain ⟨_, hfield⟩ := Message.IsNearlyTyped.field? htype hplain hf
    rw [hnumber] at hfield
    rw [hentry]
    refine ⟨rfl, List.pairwise_singleton _ _, ?_, rfl⟩
    intro e he _
    cases List.mem_singleton.mp he
    exact Entry.wellTyped_single (by decide) hfield hbool hsingle (Value.fits_of_isScalarOf rfl)

namespace OptionResolver

variable {r : OptionResolver} {scope : String} {type : MessageDescriptor} {typeName option : String}
  {path : List OptionSegment} {raw : RawOption} {v : Value} {s : OptionState} {o : Options}
variable {s' : OptionState} {parts : List NamePart} {raws : List RawOption} {stored : Bool}
  {o' : Options} {log : Log}

theorem segment_own {part : NamePart} (hpart : part.isExtension = false)
    (h : r.segment scope type typeName part = .ok f) : f ∈ type.fields := by
  simp only [segment, hpart, Bool.false_eq_true, if_false] at h
  split at h
  · cases h
  · rename_i g hg
    cases h
    exact List.mem_of_find?_eq_some hg

theorem segments_cases (h : r.segments option scope type typeName parts = .ok path) :
    path = [] ∨ ∃ part f more, parts.head? = some part ∧ path = ⟨f, part.isExtension⟩ :: more ∧
      r.segment scope type typeName part = .ok f ∧
      (more = [] ∨ f.isMessage = true ∧ f.isRepeated = false) := by
  unfold segments at h
  split at h
  · cases h
    exact .inl rfl
  · rename_i part
    obtain ⟨f, hf, h⟩ := bind_eq_ok.mp h
    cases h
    exact .inr ⟨part, f, [], rfl, rfl, hf, .inl rfl⟩
  · rename_i part more _
    obtain ⟨f, hf, h⟩ := bind_eq_ok.mp h
    cases hatomic : !f.isMessage || f.isRepeated with
    | true =>
      simp only [hatomic] at h
      cases h
    | false =>
      simp only [hatomic, Bool.false_eq_true, if_false] at h
      obtain ⟨hmessage, hsingle⟩ := Bool.or_eq_false_iff.mp hatomic
      split at h
      · cases h
      · obtain ⟨rest, _, h⟩ := bind_eq_ok.mp h
        cases h
        exact .inr ⟨part, f, rest, rfl, rfl, hf, .inr ⟨by simpa using hmessage, hsingle⟩⟩

theorem segments_plain (hplain : type.IsPlainOptions)
    (h : r.segments option scope type typeName parts = .ok path)
    (hpath : path.any (·.isExtension) = false) :
    path = [] ∨ ∃ f ∈ type.fields, path = [⟨f, false⟩] := by
  rcases segments_cases h with rfl | ⟨part, f, more, _, rfl, hf, hmore⟩
  · exact .inl rfl
  · obtain ⟨hpart, _⟩ : part.isExtension = false ∧ more.any (·.isExtension) = false := by
      simpa using hpath
    have hown := segment_own hpart hf
    rcases hmore with rfl | ⟨hmessage, hsingle⟩
    · exact .inr ⟨f, hown, by rw [hpart]⟩
    · have hrepeated := (hplain.isRepeated_of_message hown hmessage).1
      rw [hsingle] at hrepeated
      cases hrepeated

theorem value_cases {last? : Option FieldDescriptor} (h : r.value raw last? = .ok v) :
    ∃ f, last? = some f ∧
      (f.isMessage = true ∨ ∃ type, f.type? = some type ∧ v.isScalarOf type = true) := by
  unfold value at h
  split at h
  · cases h
  · rename_i f text _
    split at h
    · rename_i hmessage
      exact ⟨f, rfl, .inl hmessage⟩
    · cases h
  · rename_i f _
    split at h
    · cases h
    · split at h
      · rename_i hv
        cases h
        exact ⟨f, rfl, .inr (Literal.coerce_isScalarOf hv)⟩
      · cases h

theorem interpretOne_cases {path? : Option (List OptionSegment)}
    (h : r.interpretOne type scope raw s = .ok path? s') :
    path? = (r.segments raw.nameText scope type s.options.kind.typeName raw.name).toOption ∧
    ((path? = none ∧ s'.options = s.options) ∨
    ∃ path v, path? = some path ∧
      r.segments raw.nameText scope type s.options.kind.typeName raw.name = .ok path ∧
      r.value raw (path.getLast?.map (·.field)) = .ok v ∧
      s'.options = { s.options with message := .storeAt v path s.options.message }) := by
  have h := get_ok h
  cases hpath : r.segments raw.nameText scope type s.options.kind.typeName raw.name with
  | error e =>
    simp only [hpath] at h
    cases h
    exact ⟨rfl, .inl ⟨rfl, rfl⟩⟩
  | ok path =>
    cases hv : r.value raw (path.getLast?.map (·.field)) with
    | error e =>
      simp only [hpath, hv] at h
      cases h
    | ok v =>
      simp only [hpath, hv] at h
      cases h
      exact ⟨rfl, .inr ⟨path, v, rfl, rfl, hv, rfl⟩⟩

theorem interpretEach_cons {outcome : Bool × Bool}
    (h : r.interpretEach type scope (raw :: raws) s = .ok outcome s') :
    ∃ path? t rest, r.interpretOne type scope raw s = .ok path? t ∧
      r.interpretEach type scope raws t = .ok rest s' ∧
      outcome = (path?.isSome || rest.1, path?.any (·.any (·.isExtension)) || rest.2) := by
  obtain ⟨path?, t, hone, h⟩ := bind_ok h
  obtain ⟨rest, _, hmore, h⟩ := bind_ok h
  cases h
  exact ⟨path?, t, rest, hone, hmore, rfl⟩

/-- What storing the value of each assignment keeps, interpreting them all keeps. An assignment
through an extension is told by the outcome. -/
theorem interpretEach_keeps {P : Message → Prop}
    {extended : Bool} (h : r.interpretEach type scope raws s = .ok (stored, extended) s')
    (hstore : ∀ raw ∈ raws, ∀ path v m,
      r.segments raw.nameText scope type s.options.kind.typeName raw.name = .ok path →
      (path.any (·.isExtension) = true → extended = true) →
      r.value raw (path.getLast?.map (·.field)) = .ok v → P m → P (.storeAt v path m)) :
    s'.options.kind = s.options.kind ∧ s'.options.uninterpreted = s.options.uninterpreted ∧
      (P s.options.message → P s'.options.message) := by
  induction raws generalizing s stored extended with
  | nil =>
    cases h
    exact ⟨rfl, rfl, id⟩
  | cons raw more ih =>
    obtain ⟨path?, t, ⟨_, later⟩, hone, hmore, houtcome⟩ := interpretEach_cons h
    cases houtcome
    obtain ⟨hown, hlater⟩ := List.forall_mem_cons.mp hstore
    have hrest (ht : t.options.kind = s.options.kind) :=
        ih hmore fun raw hraw path v m hpath hext =>
      hlater raw hraw path v m (ht ▸ hpath) fun hany => by simp [hext hany]
    obtain ⟨_, ⟨rfl, ht⟩ | ⟨path, v, rfl, hpath, hv, ht⟩⟩ := interpretOne_cases hone
    · simpa only [ht] using hrest (by rw [ht])
    · obtain ⟨hkind, hraws, hkept⟩ := hrest (by rw [ht])
      rw [ht] at hkind hraws hkept
      refine ⟨hkind, hraws, fun hP => hkept (hown path v _ hpath (fun hany => ?_) hv hP)⟩
      rw [Option.any_some, hany, Bool.true_or]

theorem reread_cases (h : r.reread extended s = .ok u s') :
    extended = false ∧ s' = s ∨ extended = true ∧ r.reserialize s.options = .ok s'.options := by
  cases extended with
  | false =>
    cases h
    exact .inl ⟨rfl, rfl⟩
  | true =>
    cases hread : r.reserialize s.options with
    | error e =>
      simp only [reread, if_true, bind, EStateM.bind, estate_get, hread] at h
      cases h
    | ok o =>
      simp only [reread, if_true, bind, EStateM.bind, estate_get, hread] at h
      cases h
      exact .inr ⟨rfl, rfl⟩

/-- Assignments are interpreted one after the other, and what they come to is read again. -/
theorem interpretAll_eq (hraws : o.uninterpreted.isEmpty = false)
    (htype : r.pool.types.message? o.kind.typeName = some type) :
    r.interpretAll scope ⟨o, log⟩ =
      (r.interpretEach type scope o.uninterpreted >>= fun flags => do
        r.reread flags.2
        return flags.1) ⟨{ o with uninterpreted := [] }, log⟩ := by
  simp only [interpretAll, bind, EStateM.bind, estate_get, hraws, Bool.false_eq_true, if_false,
    htype, estate_modify]

theorem interpretAll_cases (h : r.interpretAll scope ⟨o, log⟩ = .ok stored s) :
    s.options = o ∧ o.uninterpreted = [] ∨
    ∃ type extended s', r.pool.types.message? o.kind.typeName = some type ∧
      r.interpretEach type scope o.uninterpreted ⟨{ o with uninterpreted := [] }, log⟩ =
        .ok (stored, extended) s' ∧
      (extended = false ∧ s.options = s'.options ∨
        extended = true ∧ r.reserialize s'.options = .ok s.options) := by
  cases hraws : o.uninterpreted.isEmpty with
  | true =>
    simp only [interpretAll, bind, EStateM.bind, estate_get, hraws] at h
    cases h
    exact .inl ⟨rfl, List.isEmpty_iff.mp hraws⟩
  | false =>
    cases htype : r.pool.types.message? o.kind.typeName with
    | none =>
      simp only [interpretAll, bind, EStateM.bind, estate_get, hraws, htype] at h
      cases h
    | some type =>
      rw [interpretAll_eq hraws htype] at h
      obtain ⟨⟨stored', extended⟩, t, heach, h⟩ := bind_ok h
      obtain ⟨_, t', hread, h⟩ := bind_ok h
      cases h
      refine .inr ⟨type, extended, t, rfl, heach, ?_⟩
      rcases reread_cases hread with ⟨hnone, rfl⟩ | hread
      · exact .inl ⟨hnone, rfl⟩
      · exact .inr hread

theorem storeAt_isNearlyTyped (htype : ctx.types.message? typeName = some type)
    (hplain : type.IsPlainOptions) {m : Message}
    (hpath : r.segments option scope type typeName raw.name = .ok path)
    (hown : path.any (·.isExtension) = false)
    (hv : r.value raw (path.getLast?.map (·.field)) = .ok v) (hm : m.IsNearlyTyped ctx typeName) :
    (Message.storeAt v path m).IsNearlyTyped ctx typeName := by
  obtain ⟨f, hlast, hvalue⟩ := value_cases hv
  rcases segments_plain hplain hpath hown with rfl | ⟨g, hg, rfl⟩
  · cases hlast
  · cases hlast
    exact hm.store hplain hg htype hvalue

theorem reserialize_fits (hextensions : r.asExtensions = true) (h : r.reserialize o = .ok o') :
    o'.kind = o.kind ∧ o'.uninterpreted = o.uninterpreted ∧ o'.message.typeName = o.kind.typeName ∧
      o'.message.WellTyped ⟨r.pool.types, some r.registry⟩ := by
  unfold reserialize at h
  split at h
  · cases h
  · simp only [hextensions] at h
    split at h
    · cases h
    · rename_i m hm
      cases h
      obtain ⟨hname, htyped⟩ := Message.decode_wellTyped hm
      exact ⟨rfl, rfl, hname, htyped⟩

theorem interpretOptions_single (hraw : o.uninterpreted = [raw])
    (hname : raw.name = [⟨option, false⟩])
    (htype : r.pool.types.message? o.kind.typeName = some type)
    (hfield : type.fieldNamed? option = some f) (hvalue : r.value raw (some f) = .ok v)
    (log : Log) :
    r.interpretOptions scope o log =
      .ok { o with message := f.store o.message v, uninterpreted := [] } log := by
  have hsegments : r.segments raw.nameText scope type o.kind.typeName raw.name =
      .ok [⟨f, false⟩] := by
    rw [hname]
    simp only [segments, segment, hfield]
    rfl
  have hone : r.interpretOne type scope raw ⟨{ o with uninterpreted := [] }, log⟩ =
      .ok (some [⟨f, false⟩]) ⟨{ o with message := f.store o.message v, uninterpreted := [] },
          log⟩ := by
    simp only [interpretOne, bind, EStateM.bind, estate_get,
      hsegments, List.getLast?_singleton, Option.map_some, hvalue]
    rfl
  have hall : r.interpretAll scope ⟨o, log⟩ =
      .ok true ⟨{ o with message := f.store o.message v, uninterpreted := [] }, log⟩ := by
    rw [interpretAll_eq (by rw [hraw]; rfl) htype, hraw]
    simp only [bind, EStateM.bind, interpretEach, hone]
    rfl
  rw [interpretOptions, hall]

theorem interpretOptions_wellTyped (hextensions : r.asExtensions = true)
    (hplain : OptionsArePlain ⟨r.pool.types, some r.registry⟩)
    {log' : Log} (ho : o.IsFresh kind) (h : r.interpretOptions scope o log = .ok o' log')
    (hne : o'.StoresNoAssignment) : o'.WellTyped ⟨r.pool.types, some r.registry⟩ kind := by
  have hmessage := ho.isNearlyTyped hplain
  obtain ⟨rfl, _⟩ := ho
  unfold interpretOptions at h
  split at h
  · rename_i stored s hall
    cases h
    rcases interpretAll_cases hall with ⟨hsame, hraws⟩ | ⟨type, extended, t, htype, heach, hcases⟩
    · rw [hsame] at hne ⊢
      refine ⟨⟨rfl, hmessage.typeName_eq, hmessage.wellTyped hne, ?_, by simp [hraws]⟩, hne⟩
      rw [hmessage.unknown_eq]
      exact .nil
    · obtain ⟨type', htype', hplainType, _⟩ := hplain o.kind
      cases htype.symm.trans htype'
      obtain ⟨hkind, hraws, hkept⟩ := interpretEach_keeps heach (P := fun m => extended = false →
          m.IsNearlyTyped ⟨r.pool.types, some r.registry⟩ o.kind.typeName)
        fun raw _ path v m hpath hext hv hm hnone =>
          have hown : path.any (·.isExtension) = false :=
            Bool.eq_false_iff.mpr fun hany => Bool.false_ne_true (hnone.symm.trans (hext hany))
          storeAt_isNearlyTyped htype hplainType hpath hown hv (hm hnone)
      rcases hcases with ⟨rfl, hsame⟩ | ⟨_, hread⟩
      · have hnearly := hkept (fun _ => hmessage) rfl
        rw [← hsame] at hkind hraws hnearly
        refine ⟨⟨hkind, hnearly.typeName_eq, hnearly.wellTyped hne, ?_, by simp [hraws]⟩, hne⟩
        rw [hnearly.unknown_eq]
        exact .nil
      · obtain ⟨hkind', hraws', hname, htyped⟩ := reserialize_fits hextensions hread
        refine ⟨⟨hkind'.trans hkind, hname.trans (by rw [hkind]), htyped, ?_, ?_⟩, hne⟩
        · obtain ⟨_, _, ws, hws, hunknown⟩ := Message.wellTyped_iff.mp htyped
          rw [hname] at hunknown
          exact ⟨ws, hws, fun w hw => ⟨(hunknown w hw).1,
            hplain.declaresAssignments.isWaiting _ (hunknown w hw).2⟩⟩
        · simp [hraws', hraws]
  · cases h

end OptionResolver

end ProtobufSchema

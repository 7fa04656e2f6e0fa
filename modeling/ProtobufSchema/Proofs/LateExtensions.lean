import ProtobufSchema.Proofs.InterpretedOptions

/-! Extensions that are recognized late: a field only touches the entry of its number, so unknown
fields may be moved behind the entries and read there. -/

namespace ProtobufSchema

open List DecodeContext

variable {us : List WireField}
variable {f : Option Entry → Option Entry}

namespace Entry

variable {n k : UInt32} {f g : Option Entry → Option Entry}

theorem alter_comm (hf : Fills n f) (hg : Fills k g) (hne : n ≠ k) (es : List Entry) :
    alter n f (alter k g es) = alter k g (alter n f es) := by
  obtain ⟨x, hx, rfl⟩ := hf.of_none
  obtain ⟨y, hy, rfl⟩ := hg.of_none
  induction es with
  | nil => grind [alter]
  | cons e es ih =>
    have hnew : x.number = e.number → ∃ z, f (some e) = some z ∧ z.number = x.number :=
      fun h => hf.of_some h.symm
    have hnew' : y.number = e.number → ∃ z, g (some e) = some z ∧ z.number = y.number :=
      fun h => hg.of_some h.symm
    grind [alter]

end Entry

namespace Message

variable {s t : Holding} {vs xs : List Value} {m : Message}

theorem put_putAll (hne : s.number ≠ t.number) (v : Value) :
    (m.putAll t xs).put s v = (m.put s v).putAll t xs := by
  induction xs generalizing m with
  | nil => rfl
  | cons x xs ih =>
    have hswap : (m.put t x).put s v = (m.put s v).put t x := by
      simp [put, alter, Entry.alter_comm (s.storing_fills v) (t.storing_fills x) hne]
    have hrest := ih (m := m.put t x)
    rw [hswap] at hrest
    exact hrest

theorem putAll_comm (hne : s.number ≠ t.number) :
    (m.putAll t xs).putAll s vs = (m.putAll s vs).putAll t xs := by
  induction vs generalizing m with
  | nil => rfl
  | cons v vs ih =>
    have hrest := ih (m := m.put s v)
    rw [← put_putAll hne] at hrest
    exact hrest

theorem putAll_appendUnknown (bytes : Bytes) :
    (m.appendUnknown bytes).putAll s vs = (m.putAll s vs).appendUnknown bytes := by
  induction vs generalizing m with
  | nil => rfl
  | cons v vs ih => exact ih (m := m.put s v)

/-! ### Moving a field -/

section Swap

variable {ctx : DecodeContext} {decode : String → Bytes → Except DecodeError Message}
  {m₁ m₂ : Message} {u w : WireField}

theorem decodeStep_stores (h : decodeStep ctx decode m w = .ok m₁)
    (hconsumed : ctx.consumes m.typeName w = true) :
    ∃ d s vs, ctx.field? m.typeName w.number = some d ∧ d.Gives decode w s vs ∧
      ∀ x : Message, x.typeName = m.typeName → decodeStep ctx decode x w = .ok (x.putAll s vs) := by
  rcases decodeStep_cases h with ⟨hleft, _⟩ | ⟨f, s, vs, hf, hgives, -⟩
  · rw [hconsumed] at hleft
    cases hleft
  · exact ⟨f, s, vs, hf, hgives, fun x hx => decodeStep_gives (hx ▸ hf) hgives⟩

/-- A field that is consumed may be read before a field that is left alone, or that has another
number. -/
theorem decodeStep_swap (hu : decodeStep ctx decode m u = .ok m₁)
    (hw : decodeStep ctx decode m₁ w = .ok m₂) (hconsumed : ctx.consumes m.typeName w = true)
    (hother : ctx.consumes m.typeName u = false ∨ u.number ≠ w.number) :
    ∃ m', decodeStep ctx decode m w = .ok m' ∧ decodeStep ctx decode m' u = .ok m₂ := by
  obtain ⟨hname, _⟩ := decodeStep_effect hu
  obtain ⟨_, s, vs, _, hgives, hstore⟩ := decodeStep_stores hw (hname ▸ hconsumed)
  refine ⟨m.putAll s vs, hstore m hname.symm, ?_⟩
  cases hstore m₁ rfl ▸ hw
  cases hleft : ctx.consumes m.typeName u with
  | false =>
    rw [decodeStep_unknown hleft] at hu
    cases hu
    rw [decodeStep_unknown (by rwa [putAll_parts.1]), putAll_appendUnknown]
  | true =>
    have hne : w.number ≠ u.number := by
      rcases hother with hnot | hne
      · rw [hnot] at hleft
        cases hleft
      · exact hne.symm
    obtain ⟨_, t, xs, _, hgives', hstore'⟩ := decodeStep_stores hu hleft
    rw [← hgives.number_eq, ← hgives'.number_eq] at hne
    cases hstore' m rfl ▸ hu
    rw [hstore' _ putAll_parts.1, putAll_comm hne]

theorem foldlM_swap (hus : us.foldlM (decodeStep ctx decode) m = .ok m₁)
    (hw : decodeStep ctx decode m₁ w = .ok m₂) (hconsumed : ctx.consumes m.typeName w = true)
    (hother : ∀ u ∈ us, ctx.consumes m.typeName u = false ∨ u.number ≠ w.number) :
    ∃ m', decodeStep ctx decode m w = .ok m' ∧ us.foldlM (decodeStep ctx decode) m' = .ok m₂ := by
  induction us generalizing m with
  | nil =>
    cases hus
    exact ⟨m₂, hw, rfl⟩
  | cons u us ih =>
    obtain ⟨hu, hrest⟩ := forall_mem_cons.mp hother
    obtain ⟨x, hx, hus⟩ := bind_eq_ok.mp hus
    obtain ⟨hname, _⟩ := decodeStep_effect hx
    rw [← hname] at hconsumed hrest
    obtain ⟨x', hstep, hfold⟩ := ih hus hconsumed hrest
    rw [hname] at hconsumed
    obtain ⟨m', hfirst, hsecond⟩ := decodeStep_swap hx hstep hconsumed hu
    refine ⟨m', hfirst, ?_⟩
    rw [foldlM_cons, hsecond]
    exact hfold

end Swap

end Message

/-! ### Reading with fewer and with more extensions -/

/-- What a context declares a wider one declares too. -/
def DecodeContext.Widens (ctx ctx' : DecodeContext) : Prop :=
  ∀ typeName number f, ctx.field? typeName number = some f → ctx'.field? typeName number = some f

theorem DecodeContext.widens_registry (types : TypeLookup) (registry : Registry) :
    Widens ⟨types, none⟩ ⟨types, some registry⟩ := by
  intro typeName number f h
  simp only [field?, Option.bind_none, Option.map_none, Option.or_none] at h
  simp [field?, h]

namespace DecodeContext.Widens

variable {ctx ctx' : DecodeContext} {typeName : String} {u w : WireField}

theorem consumes (h : ctx.Widens ctx') (hw : ctx.consumes typeName w = true) :
    ctx'.consumes typeName w = true := by
  obtain ⟨f, hf, htakes⟩ := (Option.any_eq_true _ _).mp hw
  rw [DecodeContext.consumes, h _ _ _ hf]
  exact htakes

theorem left_or_ne (h : ctx.Widens ctx') (hu : ctx.consumes typeName u = false)
    (hw : ctx.consumes typeName w = true) :
    ctx'.consumes typeName u = false ∨ u.number ≠ w.number := by
  cases hf : ctx.field? typeName u.number with
  | none =>
    right
    intro hnumber
    rw [DecodeContext.consumes, ← hnumber, hf] at hw
    cases hw
  | some f =>
    left
    rw [DecodeContext.consumes, hf] at hu
    rw [DecodeContext.consumes, h _ _ _ hf]
    exact hu

end DecodeContext.Widens

theorem FieldSequence.foldlM_related {σ τ : Type} {P : σ → τ → Prop}
    {step : σ → WireField → Except DecodeError σ} {step' : τ → WireField → Except DecodeError τ}
    {ws : List WireField} {s s' : σ} {t t' : τ} (h : P s t)
    (hstep : ∀ s t w s' t', w ∈ ws → P s t → step s w = .ok s' → step' t w = .ok t' → P s' t')
    (hs : ws.foldlM step s = .ok s') (ht : ws.foldlM step' t = .ok t') : P s' t' := by
  induction ws generalizing s t with
  | nil =>
    cases hs
    cases ht
    exact h
  | cons w ws ih =>
    obtain ⟨x, hx, hs⟩ := bind_eq_ok.mp hs
    obtain ⟨y, hy, ht⟩ := bind_eq_ok.mp ht
    exact ih (hstep s t w x y (by simp) h hx hy)
      (fun s t v s' t' hv => hstep s t v s' t' (by simp [hv])) hs ht

theorem Entry.forall₂_alter {R : Entry → Entry → Prop} {n : UInt32}
    {g : Option Entry → Option Entry} {es es' : List Entry}
    (hR : ∀ e e', R e e' → e'.number = e.number) (hnone : Forall₂ R (f none).toList (g none).toList)
    (hsome : ∀ e e', R e e' → e.number = n → Forall₂ R (f (some e)).toList (g (some e')).toList)
    (h : Forall₂ R es es') : Forall₂ R (alter n f es) (alter n g es') := by
  induction h with
  | nil => exact hnone
  | @cons e e' es es' he hes ih =>
    have hnumber := hR e e' he
    unfold alter
    rw [hnumber]
    split
    · exact rel_append hnone (.cons he hes)
    · split
      · rename_i hn
        exact rel_append (hsome e e' he hn.symm) hes
      · exact .cons he ih

theorem Value.ofPayload_run {decode : String → Bytes → Except DecodeError Message}
    {f : FieldDescriptor} {type : FieldType} (hp : type.isPackable = true) {number : UInt32}
    {run : Bytes} {v : Value} :
    ofPayload decode f type number (.lengthDelimited run) ≠ .ok (some v) := by
  cases type with
  | string | bytes | message | group => cases hp
  | _ => exact nofun

namespace Message

variable {bytes : Bytes}

section Recognition

variable {ctx ctx' : DecodeContext} {m k m' k' : Message} {w : WireField} {f : FieldDescriptor}
  {s : Holding} {type : FieldType} {v v' : Value} {number : UInt32} {typeName : String}

/-- Whatever type a content is read as, what one reading gives becomes what the other gives. -/
def Agree (ctx ctx' : DecodeContext) (content : Bytes) : Prop :=
  ∀ ⦃t x x'⦄, decode ctx t content = .ok x → decode ctx' t content = .ok x' → x.Becomes ctx' x'

theorem ofPayload_becomes {p : Payload} (hin : Agree ctx ctx' p.content)
    (hv : Value.ofPayload (decode ctx) f type number p = .ok (some v))
    (hv' : Value.ofPayload (decode ctx') f type number p = .ok (some v')) :
    v.Becomes ctx' f type v' := by
  have number (hn : Value.ofNumber? type p = some v) (hn' : Value.ofNumber? type p = some v') :
      v.Becomes ctx' f type v' := by
    cases hn.symm.trans hn'
    exact .scalar (Value.isScalarOf_of_ofNumber? hn)
  cases type <;> cases p <;> try exact number (Except.ok.inj hv) (Except.ok.inj hv')
  case message.lengthDelimited | group.group =>
    obtain ⟨x, hx, hv⟩ := bind_eq_ok.mp hv
    obtain ⟨x', hx', hv'⟩ := bind_eq_ok.mp hv'
    cases hv
    cases hv'
    exact .message rfl (decode_wellTyped hx).1 (hin hx hx')
  case string.lengthDelimited =>
    obtain ⟨s, hs, hv⟩ := bind_eq_ok.mp hv
    obtain ⟨s', hs', hv'⟩ := bind_eq_ok.mp hv'
    cases hs.symm.trans hs'
    cases hv
    cases hv'
    exact .scalar rfl
  case bytes.lengthDelimited =>
    cases hv
    cases hv'
    exact .scalar rfl

theorem put_becomes (hs : s.IsOf ctx' m.typeName f) (hv : v.Becomes ctx' f s.type v')
    (h : Forall₂ (Entry.Becomes ctx' m.typeName) m.entries k.entries) :
    Forall₂ (Entry.Becomes ctx' m.typeName) (m.put s v).entries (k.put s v').entries := by
  obtain ⟨repeated, number, type, packed⟩ := s
  obtain ⟨hnumber, hf, ht, hr, hp⟩ := hs
  cases repeated with
  | false =>
    have hnew : Entry.Becomes ctx' m.typeName ⟨number, type, false, v⟩ ⟨number, type, false, v'⟩ :=
      .single hnumber hf ht hr hv
    exact Entry.forall₂_alter (fun _ _ he => he.number_eq) (.cons hnew .nil)
      (fun _ _ _ _ => .cons hnew .nil) h
  | true =>
    refine Entry.forall₂_alter (fun _ _ he => he.number_eq) (.cons ?_ .nil) ?_ h
    · exact .list hnumber hf ht hr (by simp) hp (.cons hv .nil)
    · intro e e' he hn
      cases he with
      | @list n t p items items' g hnumber' hg ht' hr' hne hp' hitems =>
        cases hn
        cases hf.symm.trans hg
        cases ht.symm.trans ht'
        exact .cons (.list hnumber hf ht hr (by simp) hp' (rel_append hitems (.cons hv .nil))) .nil
      | single hnumber' hg _ hr' _ =>
        -- The field would be repeated and not repeated.
        cases hn
        cases hf.symm.trans hg
        cases hr.symm.trans hr'

theorem putAll_becomes (hs : s.IsOf ctx' m.typeName f) {vs vs' : List Value}
    (hvs : Forall₂ (Value.Becomes ctx' f s.type) vs vs')
    (h : Forall₂ (Entry.Becomes ctx' m.typeName) m.entries k.entries) :
    Forall₂ (Entry.Becomes ctx' m.typeName) (m.putAll s vs).entries (k.putAll s vs').entries := by
  induction hvs generalizing m k with
  | nil => exact h
  | @cons v v' vs vs' hv _ ih => exact ih (m := m.put s v) hs (put_becomes hs hv h)

/-- Whether the payload is a value or a run is a matter of its kind, which is the same for both. -/
theorem gives_becomes {s' : Holding} {vs vs' : List Value} (hin : Agree ctx ctx' w.payload.content)
    (h : f.Gives (decode ctx) w s vs) (h' : f.Gives (decode ctx') w s' vs') :
    s' = s ∧ Forall₂ (Value.Becomes ctx' f s.type) vs vs' := by
  cases h with
  | one ht hv =>
    cases h' with
    | one ht' hv' =>
      cases ht.symm.trans ht'
      exact ⟨rfl, .cons (ofPayload_becomes hin hv hv') .nil⟩
    | run ht' _ hp hpayload _ =>
      cases ht.symm.trans ht'
      exact absurd hv (hpayload ▸ Value.ofPayload_run hp)
  | run ht hr hp hpayload hvs =>
    cases h' with
    | one ht' hv' =>
      cases ht.symm.trans ht'
      exact absurd hv' (hpayload ▸ Value.ofPayload_run hp)
    | run ht' _ _ hpayload' hvs' =>
      cases ht.symm.trans ht'
      cases hpayload.symm.trans hpayload'
      cases hvs.symm.trans hvs'
      exact ⟨rfl, forall₂_same.mpr fun v hv => .scalar (Value.isScalarOf_of_ofRun hvs v hv)⟩

theorem decodeStep_becomes (hwide : ctx.Widens ctx') (hname : k.typeName = m.typeName)
    (hw : w.IsComplete) (hin : Agree ctx ctx' w.payload.content)
    (hconsumed : ctx.consumes m.typeName w = true)
    (hstep : decodeStep ctx (decode ctx) m w = .ok m')
    (hstep' : decodeStep ctx' (decode ctx') k w = .ok k')
    (h : Forall₂ (Entry.Becomes ctx' m.typeName) m.entries k.entries) :
    Forall₂ (Entry.Becomes ctx' m.typeName) m'.entries k'.entries := by
  rcases decodeStep_cases hstep with ⟨hleft, _⟩ | ⟨f, s, vs, hf, hgives, rfl⟩
  · rw [hconsumed] at hleft
    cases hleft
  have hf' := hwide _ _ _ hf
  rcases decodeStep_cases hstep' with ⟨hleft, _⟩ | ⟨f', s', vs', hf'', hgives', rfl⟩
  · rw [hname, hwide.consumes hconsumed] at hleft
    cases hleft
  rw [hname] at hf''
  cases hf'.symm.trans hf''
  obtain ⟨rfl, hvs⟩ := gives_becomes hin hgives hgives'
  exact putAll_becomes (hgives.isOf hw hf') hvs h

/-- How far two readings of the same fields have come, one without the extensions and one with them:
the unknown fields of the one lead from what its entries become to what the other has read. -/
structure Lags (ctx ctx' : DecodeContext) (typeName : String) (m m' k : Message)
    (us : List WireField) : Prop where
  typeName_eq : m.typeName = typeName
  known_typeName : k.typeName = typeName
  known_unknown : k.unknown = []
  known_wellTyped : k.WellTyped ctx'
  entries : List.Forall₂ (Entry.Becomes ctx' typeName) m.entries k.entries
  unknown : m.unknown = WireField.concat us
  left : ∀ u ∈ us, u.IsComplete ∧ ctx.consumes typeName u = false
  leads : us.foldlM (decodeStep ctx' (decode ctx')) k = .ok m'

theorem Lags.step (hwide : ctx.Widens ctx') {x x' : Message} (h : Lags ctx ctx' typeName m m' k us)
    (hw : w.IsComplete) (hin : Agree ctx ctx' w.payload.content)
    (hstep : decodeStep ctx (decode ctx) m w = .ok x)
    (hstep' : decodeStep ctx' (decode ctx') m' w = .ok x') :
    ∃ k' us', Lags ctx ctx' typeName x x' k' us' := by
  obtain ⟨rfl, hname, hunknown, htyped, hentries, hus, hleft, hleads⟩ := h
  obtain ⟨hxname, ⟨hnot, rfl⟩ | ⟨hconsumed, hxunknown, _⟩⟩ := decodeStep_effect hstep
  · refine ⟨k, us ++ [w], rfl, hname, hunknown, htyped, hentries, ?_, ?_, ?_⟩
    · simp [appendUnknown, hus]
    · intro u hu
      rcases mem_append.mp hu with hu | hu
      · exact hleft u hu
      · cases mem_singleton.mp hu
        exact ⟨hw, hnot⟩
    · rw [foldlM_append, hleads]
      simp [bind, Except.bind, hstep', pure, Except.pure]
  · obtain ⟨k', hk, hleads'⟩ :=
      foldlM_swap hleads hstep' (by rw [hname]; exact hwide.consumes hconsumed)
      (fun u hu => hname ▸ hwide.left_or_ne (hleft u hu).2 hconsumed)
    obtain ⟨hkname, htyped'⟩ := decodeStep_wellTyped hw (fun _ _ => decode_wellTyped) htyped hk
    have hentries' := decodeStep_becomes hwide hname hw hin hconsumed hstep hk hentries
    have hkunknown : k'.unknown = k.unknown := by
      obtain ⟨_, ⟨hnot, _⟩ | ⟨_, hkept, _⟩⟩ := decodeStep_effect hk
      · rw [hname, hwide.consumes hconsumed] at hnot
        cases hnot
      · exact hkept
    exact ⟨k', us, hxname, hkname.trans hname, hkunknown.trans hunknown, htyped', hentries',
      hxunknown.trans hus, hleft, hleads'⟩

/-- What was read without the extensions is written as fields that lead to what is read with
them. -/
theorem Lags.becomes (h : Lags ctx ctx' typeName m m' k us) : m.Becomes ctx' m' := by
  obtain ⟨rfl, hname, hunknown, htyped, hentries, hus, hleft, hleads⟩ := h
  obtain ⟨known, hknown, hcarries⟩ := (Entry.encodeAll_conveys (m := .empty m.typeName) hentries
    (wellTyped_iff.mp htyped).1).mono fun _ _ => trivial
  have hbuilt :
      { empty m.typeName with entries := (empty m.typeName).entries ++ k.entries } = k := by
    obtain ⟨typeName, entries, unknown⟩ := k
    cases hname
    cases hunknown
    rfl
  rw [hbuilt] at hcarries
  refine ⟨known ++ m.unknown, ?_, ?_⟩
  · obtain ⟨typeName, entries, unknown⟩ := m
    simp only [encode, hknown]
    rfl
  · intro hsize
    have htail : Wire.Carries (fun _ => True) (decodeStep ctx' (decode ctx')) m.unknown k m' :=
      ⟨us, hus, fun u hu => ⟨(hleft u hu).1, trivial⟩, hleads⟩
    exact (hcarries hsize.left).append htail

theorem becomes_of_decode (hwide : ctx.Widens ctx') (h : decode ctx typeName bytes = .ok m)
    (h' : decode ctx' typeName bytes = .ok m') : m.Becomes ctx' m' := by
  -- The induction is on the length of the bytes: messages inside are shorter.
  induction hn : bytes.length using Nat.strong_induction_on generalizing typeName bytes m m' with
  | _ n ih =>
    subst hn
    rw [decode_eq] at h h'
    obtain ⟨_, hfold⟩ := FieldSequence.interpret_ok h
    obtain ⟨_, hfold'⟩ := FieldSequence.interpret_ok h'
    have hempty : ∃ k us, Lags ctx ctx' typeName (.empty typeName) (.empty typeName) k us :=
      ⟨.empty typeName, [], rfl, rfl, rfl, wellTyped_empty ctx' typeName, .nil, rfl, by simp, rfl⟩
    have hlags : ∃ k us, Lags ctx ctx' typeName m m' k us := by
      refine FieldSequence.foldlM_related (P := fun m m' => ∃ k us,
        Lags ctx ctx' typeName m m' k us) hempty ?_ hfold hfold'
      rintro s t w s' t' hw ⟨k, us, hlags⟩ hs ht
      have hlt := FieldSequence.ofReader_content _ w hw
      exact hlags.step hwide (FieldSequence.ofReader_complete _ w hw)
        (fun _ _ _ hx hx' => ih _ hlt hx hx' rfl) hs ht
    obtain ⟨k, us, hlags⟩ := hlags
    exact hlags.becomes

end Recognition

theorem decode_late {types : TypeLookup} {registry : Registry} {typeName : String}
    {m m' : Message} (h : decode ⟨types, none⟩ typeName bytes = .ok m)
    (h' : decode ⟨types, some registry⟩ typeName bytes = .ok m') :
    ∃ written, m.encode = .ok written ∧ (Wire.Addressable written →
      decode ⟨types, some registry⟩ typeName written = .ok m') := by
  obtain ⟨written, hwritten, hcarries⟩ := becomes_of_decode (widens_registry types registry) h h'
  refine ⟨written, hwritten, ?_⟩
  intro hsize
  obtain ⟨rfl, _⟩ := decode_wellTyped h
  exact Becomes.decode (hcarries hsize) hsize

end Message

/-! ### Custom options -/

namespace OptionResolver

variable {r : OptionResolver} {scope : String} {s s' : OptionState}
variable {stored : Bool} {o : Options} (b : Bool) (type : MessageDescriptor)

def storing (r : OptionResolver) (asExtensions : Bool) : OptionResolver :=
  { r with asExtensions := asExtensions }

/-- Whether the name of an assignment leads through an extension. -/
def usesExtension (r : OptionResolver) (scope : String) (type : MessageDescriptor)
    (typeName : String) (raw : RawOption) : Bool :=
  (r.segments raw.nameText scope type typeName raw.name).toOption.any (·.any (·.isExtension))

theorem segments_storing (option : String) (type : MessageDescriptor) (typeName : String)
    (parts : List NamePart) : (r.storing b).segments option scope type typeName parts =
      r.segments option scope type typeName parts := by
  induction parts generalizing type typeName with
  | nil => rfl
  | cons part more ih =>
    cases more with
    | nil => rfl
    | cons next more =>
      unfold segments
      simp only [ih]
      rfl

theorem interpretOne_storing (raw : RawOption) :
    (r.storing b).interpretOne type scope raw = r.interpretOne type scope raw := by
  unfold interpretOne
  simp only [segments_storing]
  rfl

theorem interpretEach_storing (raws : List RawOption) :
    (r.storing b).interpretEach type scope raws = r.interpretEach type scope raws := by
  induction raws with
  | nil => rfl
  | cons raw more ih => simp [interpretEach, interpretOne_storing, ih]

theorem interpretEach_extended {type : MessageDescriptor} {raws : List RawOption} {extended : Bool}
    (h : r.interpretEach type scope raws s = .ok (stored, extended) s') :
    extended = raws.any (r.usesExtension scope type s.options.kind.typeName) := by
  induction raws generalizing s stored extended with
  | nil =>
    cases h
    rfl
  | cons raw more ih =>
    obtain ⟨path?, t, rest, hone, hmore, houtcome⟩ := interpretEach_cons h
    cases houtcome
    obtain ⟨hpath, hcases⟩ := interpretOne_cases hone
    have hkind : t.options.kind = s.options.kind := by
      rcases hcases with ⟨_, ht⟩ | ⟨_, _, _, _, _, ht⟩ <;> rw [ht]
    rw [any_cons, usesExtension, ← hpath, ← hkind]
    exact congrArg _ (ih hmore)

theorem reserialize_ok {o' : Options} (h : r.reserialize o = .ok o') :
    ∃ bytes m, o.message.encode = .ok bytes ∧ o' = { o with message := m } ∧
      Message.decode ⟨r.pool.types, if r.asExtensions then some r.registry else none⟩
        o.kind.typeName bytes =
        .ok m := by
  unfold reserialize at h
  split at h
  · cases h
  · rename_i bytes hbytes
    dsimp only at h
    split at h
    · cases h
    · rename_i m hm
      cases h
      exact ⟨bytes, m, hbytes, rfl, hm⟩

theorem interpretAll_storing {log : Log} {stored' : Bool}
    (huses : ∃ type, r.pool.types.message? o.kind.typeName = some type ∧
      o.uninterpreted.any (r.usesExtension scope type o.kind.typeName) = true)
    (h : (r.storing false).interpretAll scope ⟨o, log⟩ = .ok stored s)
    (h' : (r.storing true).interpretAll scope ⟨o, log⟩ = .ok stored' s') :
    s'.options = { s.options with message := s'.options.message } ∧ ∃ bytes,
      Message.decode ⟨r.pool.types, none⟩ o.kind.typeName bytes = .ok s.options.message ∧
      Message.decode ⟨r.pool.types, some r.registry⟩ o.kind.typeName bytes =
        .ok s'.options.message := by
  obtain ⟨type, htype, huses⟩ := huses
  have hsome : o.uninterpreted ≠ [] := by
    intro hnone
    rw [hnone] at huses
    cases huses
  rcases interpretAll_cases h with ⟨_, hnone⟩ | ⟨type₁, extended, t, htype₁, heach, hend⟩
  · exact absurd hnone hsome
  rcases interpretAll_cases h' with ⟨_, hnone⟩ | ⟨type₂, extended', t', htype₂, heach', hend'⟩
  · exact absurd hnone hsome
  cases htype.symm.trans htype₁
  cases htype.symm.trans htype₂
  rw [interpretEach_storing] at heach heach'
  cases heach.symm.trans heach'
  have hextended : extended = true := (interpretEach_extended heach).trans huses
  subst hextended
  obtain ⟨hkind, _, _⟩ := interpretEach_keeps (P := fun _ => True) heach (by simp)
  rcases hend with ⟨hnot, _⟩ | ⟨_, hread⟩
  · cases hnot
  rcases hend' with ⟨hnot, _⟩ | ⟨_, hread'⟩
  · cases hnot
  obtain ⟨bytes, m, hbytes, hm, hdecode⟩ := reserialize_ok hread
  obtain ⟨bytes', m', hbytes', hm', hdecode'⟩ := reserialize_ok hread'
  cases hbytes.symm.trans hbytes'
  rw [hkind] at hdecode hdecode'
  rw [hm, hm']
  exact ⟨rfl, bytes, hdecode, hdecode'⟩

end OptionResolver

/-- Extensions may be recognized late or early. Bytes that can be read without a registry and with
it: what was read without is written, and then read with the registry as what was read with it at
once. So where assignments use an extension, options that keep it as bytes hold what options that
store it typed hold. -/
theorem late_recognition :
    (∀ (types : TypeLookup) (registry : Registry) (typeName : String) (bytes : Bytes)
      (m m' : Message),
      Message.decode ⟨types, none⟩ typeName bytes = .ok m →
      Message.decode ⟨types, some registry⟩ typeName bytes = .ok m' →
      ∃ written, m.encode = .ok written ∧ (Wire.Addressable written →
        Message.decode ⟨types, some registry⟩ typeName written = .ok m')) ∧
    ∀ (r : OptionResolver) (scope : String) (o : Options) (log : Log) (stored stored' : Bool)
      (s s' : OptionState) (type : MessageDescriptor),
      r.pool.types.message? o.kind.typeName = some type →
      o.uninterpreted.any (r.usesExtension scope type o.kind.typeName) = true →
      (r.storing false).interpretAll scope ⟨o, log⟩ = .ok stored s →
      (r.storing true).interpretAll scope ⟨o, log⟩ = .ok stored' s' →
      s'.options = { s.options with message := s'.options.message } ∧
      ∃ written, s.options.message.encode = .ok written ∧ (Wire.Addressable written →
        Message.decode ⟨r.pool.types, some r.registry⟩ o.kind.typeName written =
          .ok s'.options.message) := by
  constructor
  · intro types registry typeName bytes m m' h h'
    exact Message.decode_late h h'
  · intro r scope o log stored stored' s s' type htype huses h h'
    obtain ⟨hsame, bytes, hdecode, hdecode'⟩ :=
      OptionResolver.interpretAll_storing ⟨type, htype, huses⟩ h h'
    exact ⟨hsame, Message.decode_late hdecode hdecode'⟩

namespace Custom

/-- An extension in front of a group that holds another one, and a number behind them. -/
def bytes : Bytes := [162, 6, 2, 97, 98, 11, 162, 6, 1, 99, 12, 16, 2]

def registry : Registry :=
  ⟨[(("T", 100), .ofField "x" { number? := some 100, type? := some .string } "f")], []⟩

def isEarly (m : Message) : Bool :=
  m.has 100 && match m.get? 1 with
    | some (.message g) => g.has 100
    | _ => false

def file : FileDescriptor where
  name? := some "a.proto"
  extensions := [{ name? := some "x", extendee? := some ".google.protobuf.FileOptions",
                   number? := some 50000, label? := some .optional, type? := some .string }]

def resolver : OptionResolver where
  pool := .full (.link file [])
  registry := (LinkedFile.registryOf file []).1
  asExtensions := true
  file := "a.proto"

def options : Options where
  kind := .file
  message := .empty OptionsKind.file.typeName
  uninterpreted := [{ name := [⟨"x", true⟩], string := some [97, 98] }]

def outcome? (asExtensions : Bool) : Option OptionState :=
  match (resolver.storing asExtensions).interpretAll "" ⟨options, .empty⟩ with
  | .ok _ s => some s
  | .error _ _ => none

theorem interpretAll_of_outcome? {asExtensions : Bool} {s : OptionState}
    (h : outcome? asExtensions = some s) :
    ∃ stored, (resolver.storing asExtensions).interpretAll "" ⟨options, .empty⟩ = .ok stored s := by
  unfold outcome? at h
  split at h
  · rename_i stored t hrun
    cases h
    exact ⟨stored, hrun⟩
  · cases h

set_option maxRecDepth 100000 in
theorem late_recognition_custom :
    (∃ m m', Message.decode ⟨Message.sampleContext.types, none⟩ "T" bytes = .ok m ∧
      Message.decode ⟨Message.sampleContext.types, some registry⟩ "T" bytes = .ok m' ∧
      m.has 100 = false ∧ isEarly m' = true ∧
      ∃ written, m.encode = .ok written ∧
        Message.decode ⟨Message.sampleContext.types, some registry⟩ "T" written = .ok m') ∧
    ∃ stored stored' s s', (resolver.storing false).interpretAll "" ⟨options, .empty⟩ =
      .ok stored s ∧
      (resolver.storing true).interpretAll "" ⟨options, .empty⟩ = .ok stored' s' ∧
      s.options.message.has 50000 = false ∧ s'.options.message.has 50000 = true ∧
      ∃ written, s.options.message.encode = .ok written ∧
        Message.decode ⟨resolver.pool.types, some resolver.registry⟩ OptionsKind.file.typeName
          written =
          .ok s'.options.message := by
  constructor
  · have hcheck :
            ((Message.decode ⟨Message.sampleContext.types, none⟩ "T" bytes).toOption.any (fun m =>
          !m.has 100 && m.encode.toOption.any fun bs => decide (bs.length < 256)) &&
        (Message.decode ⟨Message.sampleContext.types, some registry⟩ "T" bytes).toOption.any
            isEarly) = true := by
      decide +kernel
    obtain ⟨hlate, hearly⟩ := Bool.and_eq_true_iff.mp hcheck
    obtain ⟨m, hm, hlate⟩ := (Option.any_eq_true _ _).mp hlate
    obtain ⟨m', hm', hearly⟩ := (Option.any_eq_true _ _).mp hearly
    obtain ⟨hbare, hshort⟩ := Bool.and_eq_true_iff.mp hlate
    obtain ⟨written, hwritten, hdecode⟩ :=
      late_recognition.1 _ _ _ _ _ _ (ok_of_toOption hm) (ok_of_toOption hm')
    refine ⟨m, m', ok_of_toOption hm, ok_of_toOption hm', by simpa using hbare, hearly, written,
      hwritten, hdecode ?_⟩
    exact addressable_of_short hwritten hshort
  · have hcheck : ((outcome? false).any (fun s => !s.options.message.has 50000 &&
          s.options.message.encode.toOption.any fun bs => decide (bs.length < 256)) &&
        (outcome? true).any (fun s => s.options.message.has 50000) &&
        (resolver.pool.types.message? options.kind.typeName).any fun type =>
          options.uninterpreted.any (resolver.usesExtension "" type options.kind.typeName)) =
              true := by
      decide +kernel
    obtain ⟨hcheck, huses⟩ := Bool.and_eq_true_iff.mp hcheck
    obtain ⟨hoff, hon⟩ := Bool.and_eq_true_iff.mp hcheck
    obtain ⟨s, hs, hoff⟩ := (Option.any_eq_true _ _).mp hoff
    obtain ⟨s', hs', hon⟩ := (Option.any_eq_true _ _).mp hon
    obtain ⟨type, htype, huses⟩ := (Option.any_eq_true _ _).mp huses
    obtain ⟨hbare, hshort⟩ := Bool.and_eq_true_iff.mp hoff
    obtain ⟨stored, hrun⟩ := interpretAll_of_outcome? hs
    obtain ⟨stored', hrun'⟩ := interpretAll_of_outcome? hs'
    obtain ⟨_, written, hwritten, hdecode⟩ :=
      late_recognition.2 resolver "" options .empty stored stored' s s' type htype huses hrun hrun'
    refine ⟨stored, stored', s, s', hrun, hrun', by simpa using hbare, hon, written, hwritten,
      hdecode ?_⟩
    exact addressable_of_short hwritten hshort

end Custom

end ProtobufSchema

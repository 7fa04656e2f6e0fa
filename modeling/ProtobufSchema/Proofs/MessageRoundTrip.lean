import Mathlib.Data.List.Forall2
import Mathlib.Data.List.Induction
import ProtobufSchema.Message.Encode
import ProtobufSchema.Proofs.MessageTyping

/-! A well-typed message is read back as it was: each entry is written as fields that add it at the
end of what was read before. -/

namespace ProtobufSchema

open List Message Wire Value Read

variable {typeName : String}
variable {f : Option Entry → Option Entry} {vs : List Value} {number : UInt32} {es : List Entry}

namespace Wire

variable {σ : Type} {p : WireField → Prop} {step : σ → WireField → Except DecodeError σ}

def Conveys (p : WireField → Prop) (step : σ → WireField → Except DecodeError σ)
    (written : Except EncodeError Bytes) (s s' : σ) : Prop :=
  ∃ bytes, written = .ok bytes ∧ (Addressable bytes → Carries p step bytes s s')

theorem Conveys.mono {q : WireField → Prop} {written : Except EncodeError Bytes} {s s' : σ}
    (h : Conveys p step written s s') (hpq : ∀ w, p w → q w) : Conveys q step written s s' := by
  obtain ⟨bytes, hbytes, hcarries⟩ := h
  exact ⟨bytes, hbytes, fun hsize => (hcarries hsize).mono hpq⟩

theorem Conveys.nil (s : σ) : Conveys p step (.ok []) s s := ⟨[], rfl, fun _ => .nil s⟩

theorem Conveys.append {first second : Except EncodeError Bytes} {s s' s'' : σ}
    (h : Conveys p step first s s') (h' : Conveys p step second s' s'') :
    Conveys p step (do let a ← first; let b ← second; return a ++ b) s s'' := by
  obtain ⟨bytes, rfl, hc⟩ := h
  obtain ⟨more, rfl, hc'⟩ := h'
  refine ⟨bytes ++ more, rfl, ?_⟩
  intro hsize
  exact (hc hsize.left).append (hc' hsize.right)

end Wire

theorem Message.induction {P : Message → Prop}
    (h : ∀ m, (∀ e ∈ m.entries, ∀ x, message x ∈ e.value.items → P x) → P m) (m : Message) :
    P m := by
  induction hn : sizeOf m using Nat.strong_induction_on generalizing m with
  | _ n ih =>
    subst hn
    apply h
    intro e he x hx
    have hentry := sizeOf_lt_of_mem he
    have hvalue : sizeOf x < sizeOf e.value := by
      cases hv : e.value with
      | list items =>
        rw [hv] at hx
        have hitem := sizeOf_lt_of_mem (show message x ∈ items from hx)
        simp only [message.sizeOf_spec] at hitem
        simp only [list.sizeOf_spec]
        omega
      | message y =>
        rw [hv] at hx
        cases mem_singleton.mp hx
        simp
      | _ =>
        rw [hv] at hx
        cases mem_singleton.mp hx
    refine ih (sizeOf x) ?_ x rfl
    obtain ⟨number, type, packed, value⟩ := e
    obtain ⟨typeName, entries, unknown⟩ := m
    simp only [Entry.mk.sizeOf_spec, mk.sizeOf_spec] at hentry hvalue ⊢
    omega

namespace Value

variable {type : FieldType} {v : Value}

theorem scalarBytes_number (h : v.isScalarOf type = true) (hp : type.isPackable = true)
    (number : UInt32) :
    ∃ body p, v.scalarBytes? type = some body ∧ ofNumber? type p = some v ∧
      IsPlain number type.wireType body p := by
  cases type with
  | string | bytes | message | group => cases hp
  | fixed32 | sfixed32 | float =>
    cases v <;> first | exact ⟨_, _, rfl, by simp [ofNumber?], isPlain_fixed32 number _⟩ | cases h
  | fixed64 | sfixed64 | double =>
    cases v <;> first | exact ⟨_, _, rfl, by simp [ofNumber?], isPlain_fixed64 number _⟩ | cases h
  | bool => cases v with
    | bool v => exact ⟨_, _, rfl, by cases v <;> rfl, isPlain_varint number _⟩
    | _ => cases h
  | _ =>
    cases v <;>
      first | exact ⟨_, _, rfl, by simp [ofNumber?], isPlain_varint number _⟩ | cases h

theorem ofPayload_number {decode : String → Bytes → Except DecodeError Message}
    {f : FieldDescriptor} (h : type.isPackable = true) (number : UInt32) (p : Payload) :
    ofPayload decode f type number p = .ok (ofNumber? type p) := by
  cases type <;> first | rfl | cases h

theorem ofRun_encodeRun (hp : type.isPackable = true) (number : UInt32)
    (h : ∀ v ∈ vs, v.isScalarOf type = true) :
    ∃ run, encodeRun number type vs = .ok run ∧
      ∀ q, q + run.length < UInt64.size → ofRun number type ⟨q, run⟩ = .ok vs := by
  induction vs with
  | nil =>
    refine ⟨[], rfl, ?_⟩
    intro q _
    rw [ofRun]
    rfl
  | cons v vs ih =>
    obtain ⟨body, p, hbody, hv, hplain⟩ := scalarBytes_number (h v (by simp)) hp number
    obtain ⟨run, hrun, hread⟩ := ih fun x hx => h x (by simp [hx])
    refine ⟨body ++ run, ?_, ?_⟩
    · simp only [encodeRun, encodeScalar, hbody, hrun]
      rfl
    · intro q hq
      rw [length_append] at hq
      have htake := hplain q run (by omega)
      have hne : body ++ run ≠ [] := by
        intro hnil
        have hlt := plainPayload_rest htake
        simp [hnil] at hlt
      rw [ofRun, if_neg hne]
      split
      · simp_all
      · rename_i p' r' htake'
        rw [htake] at htake'
        cases htake'
        rw [hread (q + body.length) (by omega)]
        simp [bind, Except.bind, pure, Except.pure, hv]

theorem scalarBytes_payload (h : v.isScalarOf type = true)
    (decode : String → Bytes → Except DecodeError Message) (f : FieldDescriptor) (number : UInt32) :
    ∃ body p, v.scalarBytes? type = some body ∧ IsPlain number type.wireType body p ∧
      ofPayload decode f type number p = .ok (some v) := by
  by_cases hp : type.isPackable = true
  · obtain ⟨body, p, hbody, hv, hplain⟩ := scalarBytes_number h hp number
    exact ⟨body, p, hbody, hplain, by rw [ofPayload_number hp, hv]⟩
  · cases type with
    | string => cases v with
      | string s =>
        refine ⟨_, _, rfl, isPlain_bytes number _, ?_⟩
        simp only [ofPayload, text, Utf8.decode?_encode]
        rfl
      | _ => cases h
    | bytes => cases v with
      | bytes bs => exact ⟨_, _, rfl, isPlain_bytes number _, rfl⟩
      | _ => cases h
    | message | group => cases v <;> cases h
    | _ => exact absurd rfl hp

theorem encodeField_scalar (h : v.isScalarOf type = true) {body : Bytes}
    (hbody : v.scalarBytes? type = some body) :
    v.encodeField number type = .ok (key number type.wireType ++ body) := by
  have htype : type.isMessage = false := by
    cases type with
    | message | group => cases v <;> cases h
    | _ => rfl
  cases v with
  | message m => cases type <;> cases h
  | list items => cases type <;> cases h
  | _ =>
    simp only [encodeField, htype, encodeScalar, hbody]
    rfl

end Value

def Message.Becomes (ctx : DecodeContext) (m m' : Message) : Prop :=
  Wire.Conveys (fun _ => True) (decodeStep ctx (decode ctx)) m.encode (.empty m.typeName) m'

def Message.Returns (ctx : DecodeContext) (m : Message) : Prop :=
  Wire.Conveys (fun _ => True) (decodeStep ctx (decode ctx)) m.encode (.empty m.typeName) m

variable {ctx : DecodeContext} {m : Message} {bytes : Bytes}

theorem Message.Becomes.decode {m' : Message}
    (h : Carries (fun _ => True) (decodeStep ctx (decode ctx)) bytes (.empty m.typeName) m')
    (hsize : Addressable bytes) : decode ctx m.typeName bytes = .ok m' := by
  rw [decode_eq]
  exact h.interpret hsize

theorem Message.Returns.decode
    (h : Carries (fun _ => True) (decodeStep ctx (decode ctx)) bytes (.empty m.typeName) m)
    (hsize : Addressable bytes) : decode ctx m.typeName bytes = .ok m :=
  Becomes.decode h hsize

/-- What is written for a value of a field is read as another one, which differs from it only in the
messages inside. -/
inductive Value.Becomes (ctx : DecodeContext) (f : FieldDescriptor) (type : FieldType) :
    Value → Value → Prop
  | scalar {v : Value} (h : v.isScalarOf type = true) : Becomes ctx f type v v
  | message {m m' : Message} (htype : type.isMessage = true) (hname : m.typeName = f.typeName)
    (h : m.Becomes ctx m') : Becomes ctx f type (.message m) (.message m')

namespace Value

variable {ctx : DecodeContext} {f : FieldDescriptor} {type : FieldType} {v v' : Value}

theorem Fits.becomes (h : v.Fits ctx f type)
    (hin : ∀ x, v = .message x → x.WellTyped ctx → x.Returns ctx) : v.Becomes ctx f type v := by
  cases v with
  | message m =>
    obtain ⟨htype, hname, hm⟩ := h
    exact .message htype hname (hin m rfl hm)
  | _ => exact .scalar (by simpa only [Fits] using h)

theorem Becomes.of_isPackable (h : v.Becomes ctx f type v') (hp : type.isPackable = true) :
    v' = v ∧ v.isScalarOf type = true := by
  cases h with
  | scalar h => exact ⟨rfl, h⟩
  | message htype _ _ =>
    cases type with
    | message | group => cases hp
    | _ => cases htype

theorem Becomes.ne_list (h : v.Becomes ctx f type v') (items : List Value) : v ≠ .list items := by
  rintro rfl
  cases h with
  | scalar h => cases type <;> cases h

theorem encodeField_payload (hnumber : number ≠ 0) (h : v.Becomes ctx f type v') :
    ∃ bytes, v.encodeField number type = .ok bytes ∧ (Addressable bytes →
      ∃ p, (WireField.mk number p bytes).IsComplete ∧
        ofPayload (decode ctx) f type number p = .ok (some v')) := by
  cases h with
  | scalar hv =>
    obtain ⟨body, p, hbody, hplain, hp⟩ := scalarBytes_payload hv (decode ctx) f number
    refine ⟨_, encodeField_scalar hv hbody, ?_⟩
    intro hsize
    exact ⟨p, WireField.isComplete_plain hnumber hplain hsize, hp⟩
  | @message m m' htype hname h =>
    obtain ⟨content, hcontent, hcarries⟩ := h
    cases type with
    | message =>
      refine ⟨block number content, ?_, ?_⟩
      · simp only [encodeField, hcontent]
        rfl
      · intro hsize
        have hinner : Addressable content := .right hsize
        have hdecode := Becomes.decode (hcarries hinner) hinner
        refine ⟨.lengthDelimited content, WireField.isComplete_block hnumber hsize, ?_⟩
        simp only [ofPayload, ← hname, hdecode]
        rfl
    | group =>
      refine ⟨key number .startGroup ++ content ++ key number .endGroup, ?_, ?_⟩
      · simp only [encodeField, hcontent]
        rfl
      · intro hsize
        have hinner : Addressable content := hsize.left.right
        have hdecode := Becomes.decode (hcarries hinner) hinner
        obtain ⟨ws, rfl, hws, _⟩ := hcarries hinner
        have hcomplete : ∀ w ∈ ws, w.IsComplete := fun w hw => (hws w hw).1
        refine ⟨.group _, WireField.isComplete_group hnumber hcomplete hsize, ?_⟩
        simp only [ofPayload, ← hname, hdecode]
        rfl
    | _ => cases htype

end Value

theorem Entry.alter_append {tail : List Entry} (h : ∀ e ∈ es, e.number < number) :
    alter number f (es ++ tail) = es ++ alter number f tail := by
  induction es with
  | nil => rfl
  | cons e es ih =>
    have he : e.number < number := h e (by simp)
    have hge : ¬ number < e.number := UInt32.lt_asymm he
    have hne : number ≠ e.number := (UInt32.ne_of_lt he).symm
    simp only [cons_append, alter, if_neg hge, if_neg hne]
    rw [ih fun x hx => h x (by simp [hx])]

namespace Message

@[simp] theorem mk_parts (m : Message) : mk m.typeName m.entries m.unknown = m := by
  cases m
  rfl

def extend (m : Message) (e : Entry) : Message := { m with entries := m.entries ++ [e] }

def Below (m : Message) (number : UInt32) : Prop := ∀ e ∈ m.entries, e.number < number

section Store

variable {m : Message} {number : UInt32} {type : FieldType} {packed : Bool}

theorem alter_extend (h : m.Below number) {e : Entry} (hf : f none = some e) :
    m.alter number f = m.extend e := by
  have halter : Entry.alter number f (m.entries ++ []) = m.entries ++ Entry.alter number f [] :=
    Entry.alter_append h
  rw [append_nil] at halter
  simp only [alter, halter, Entry.alter, hf]
  rfl

theorem putAll_below (h : m.Below number) (hne : vs ≠ []) :
    m.putAll ⟨true, number, type, packed⟩ vs = m.extend ⟨number, type, packed, .list vs⟩ := by
  induction vs using reverseRecOn with
  | nil => exact absurd rfl hne
  | append_singleton vs v ih =>
    rw [putAll, foldl_append]
    by_cases hvs : vs = []
    · subst hvs
      exact alter_extend h rfl
    · rw [putAll] at ih
      rw [ih hvs]
      simp only [foldl_cons, foldl_nil, extend, put, alter, Entry.alter_append h]
      simp [Entry.alter, Holding.storing, Value.items]

end Store

section Step

variable {ctx : DecodeContext} {decode : String → Bytes → Except DecodeError Message}
  {m : Message} {w : WireField} {f : FieldDescriptor} {type : FieldType}

theorem decodeStep_gives (hf : ctx.field? m.typeName w.number = some f) {s : Holding}
    (h : f.Gives decode w s vs) : decodeStep ctx decode m w = .ok (m.putAll s vs) := by
  cases h with
  | @one type v ht hv =>
    simp only [decodeStep, hf, decodeField, ht, hv, putAll, put_eq]
    rfl
  | @run type bytes vs ht hr hp hw hvs =>
    have hkind : w.payload.wireType ≠ type.wireType := by
      rw [hw]
      cases type with
      | string | bytes | message | group => cases hp
      | _ => exact WireType.noConfusion
    simp only [decodeStep, hf, decodeField, ht, ofPayload_other hkind]
    simp only [hw, hr, hp, hvs, bind, Except.bind, Bool.and_self, if_true, pure, Except.pure,
      putAll, put_eq]

theorem decodeStep_unknown (h : ctx.consumes m.typeName w = false) :
    decodeStep ctx decode m w = .ok (m.appendUnknown w.raw) := by
  cases hf : ctx.field? m.typeName w.number with
  | none =>
    simp only [decodeStep, hf]
    rfl
  | some f =>
    simp only [DecodeContext.consumes, hf, FieldDescriptor.takes] at h
    cases ht : f.type? with
    | none =>
      simp only [decodeStep, hf, decodeField, ht]
      rfl
    | some type =>
      simp only [ht, Option.any_some, Bool.or_eq_false_iff, beq_eq_false_iff_ne] at h
      obtain ⟨hkind, hrun⟩ := h
      simp only [decodeStep, hf, decodeField, ht, ofPayload_other hkind]
      cases hp : w.payload with
      | lengthDelimited run =>
        have hnot : (f.isRepeated && type.isPackable) = false := by
          simpa [hp, Payload.wireType] using hrun
        simp [bind, Except.bind, hnot, pure, Except.pure]
      | _ => rfl

end Step

end Message

/-- What is written for an entry is read as another one, which differs from it only in the messages
inside. -/
inductive Entry.Becomes (ctx : DecodeContext) (typeName : String) : Entry → Entry → Prop
  | list {number : UInt32} {type : FieldType} {packed : Bool} {items items' : List Value}
    {f : FieldDescriptor} (hnumber : number ≠ 0) (hf : ctx.field? typeName number = some f)
    (ht : f.type? = some type) (hr : f.isRepeated = true) (hne : items ≠ [])
    (hp : packed = true → type.isPackable = true)
    (h : List.Forall₂ (Value.Becomes ctx f type) items items') :
    Becomes ctx typeName ⟨number, type, packed, .list items⟩ ⟨number, type, packed, .list items'⟩
  | single {number : UInt32} {type : FieldType} {v v' : Value} {f : FieldDescriptor}
    (hnumber : number ≠ 0) (hf : ctx.field? typeName number = some f) (ht : f.type? = some type)
    (hr : f.isRepeated = false) (h : v.Becomes ctx f type v') :
    Becomes ctx typeName ⟨number, type, false, v⟩ ⟨number, type, false, v'⟩

namespace Entry

variable {ctx : DecodeContext} {m : Message} {f : FieldDescriptor} {number : UInt32}
  {type : FieldType}

variable {e : Entry} {vs : List Value}
variable {vs' : List Value} {e' : Entry}

theorem Becomes.number_eq (h : e.Becomes ctx typeName e') : e'.number = e.number := by
  cases h <;> rfl

theorem WellTyped.becomes (h : e.WellTyped ctx typeName)
    (hin : ∀ x, message x ∈ e.value.items → x.WellTyped ctx → x.Returns ctx) :
    e.Becomes ctx typeName e := by
  obtain ⟨hnumber, f, hf, ht, hcases⟩ := h.cases
  obtain ⟨number, type, packed, value⟩ := e
  rcases hcases with ⟨items, rfl, hr, hne, hpacked, hitems⟩ | ⟨hr, rfl, hlist, hfit⟩
  · refine .list hnumber hf ht hr hne hpacked (forall₂_same.mpr ?_)
    intro v hv
    exact (hitems v hv).becomes fun x hx => hin x (hx ▸ hv)
  · have hin' : ∀ x, value = .message x → x.WellTyped ctx → x.Returns ctx := by
      intro x hx
      exact hin x (by simp [hx, items])
    exact .single hnumber hf ht hr (hfit.becomes hin')

theorem encodeFields_conveys (hnumber : number ≠ 0) (hf : ctx.field? m.typeName number = some f)
    (ht : f.type? = some type) (hvs : Forall₂ (Value.Becomes ctx f type) vs vs') :
    Conveys (·.number = number) (decodeStep ctx (decode ctx)) (encodeFields number type vs) m
      (m.putAll ⟨f.isRepeated, number, type, false⟩ vs') := by
  induction hvs generalizing m with
  | nil => exact .nil m
  | @cons v v' vs vs' hv _ ih =>
    obtain ⟨bytes, hbytes, hread⟩ := encodeField_payload hnumber hv
    have hhead : Conveys (·.number = number) (decodeStep ctx (decode ctx))
        (v.encodeField number type) m (m.put ⟨f.isRepeated, number, type, false⟩ v') := by
      refine ⟨bytes, hbytes, ?_⟩
      intro hsize
      obtain ⟨p, hcomplete, hp⟩ := hread hsize
      exact .single hcomplete rfl (decodeStep_gives hf (.one ht hp))
    exact hhead.append (ih hf)

theorem encodeRun_conveys (hnumber : number ≠ 0) (hf : ctx.field? m.typeName number = some f)
    (ht : f.type? = some type) (hr : f.isRepeated = true) (hp : type.isPackable = true)
    (hvs : ∀ v ∈ vs, v.isScalarOf type = true) :
    Conveys (·.number = number) (decodeStep ctx (decode ctx))
      (do let run ← encodeRun number type vs; return block number run) m
      (m.putAll ⟨f.isRepeated, number, type, true⟩ vs) := by
  obtain ⟨run, hrun, hread⟩ := ofRun_encodeRun hp number hvs
  refine ⟨block number run, by rw [hrun]; rfl, ?_⟩
  intro hsize
  have hinner : Addressable run := .right hsize
  have hvalues : ofRun number type (.ofBytes run) = .ok vs :=
    hread 0 (by simpa [Addressable] using hinner)
  exact .single (WireField.isComplete_block hnumber hsize) rfl
    (decodeStep_gives hf (.run ht hr hp rfl hvalues))

theorem forall₂_of_isPackable (hp : type.isPackable = true)
    (h : Forall₂ (Value.Becomes ctx f type) vs vs') :
    vs' = vs ∧ ∀ v ∈ vs, v.isScalarOf type = true := by
  induction h with
  | nil => simp
  | cons hv _ ih =>
    obtain ⟨rfl, hscalar⟩ := hv.of_isPackable hp
    obtain ⟨rfl, hall⟩ := ih
    exact ⟨rfl, forall_mem_cons.mpr ⟨hscalar, hall⟩⟩

theorem encode_conveys (h : e.Becomes ctx m.typeName e') (hm : m.Below e.number) :
    Conveys (·.number = e.number) (decodeStep ctx (decode ctx)) e.encode m (m.extend e') := by
  cases h with
  | @list number type packed items items' f hnumber hf ht hr hne hpacked hitems =>
    have hne' : items' ≠ [] := by
      rintro rfl
      cases hitems
      exact hne rfl
    cases packed with
    | true =>
      have hp : type.isPackable = true := hpacked rfl
      obtain ⟨rfl, hscalars⟩ := forall₂_of_isPackable hp hitems
      have hrun := encodeRun_conveys hnumber hf ht hr hp hscalars
      rw [hr, putAll_below hm hne] at hrun
      simpa [encode, hp, hne] using hrun
    | false =>
      have hfields := encodeFields_conveys hnumber hf ht hitems
      rw [hr, putAll_below hm hne'] at hfields
      simpa only [encode, Bool.false_and, Bool.false_eq_true, if_false] using hfields
  | @single number type v v' f hnumber hf ht hr hv =>
    obtain ⟨bytes, hbytes, hread⟩ := encodeField_payload hnumber hv
    refine ⟨bytes, ?_, ?_⟩
    · cases v with
      | list items => exact absurd rfl (hv.ne_list items)
      | _ => exact hbytes
    · intro hsize
      obtain ⟨p, hcomplete, hp⟩ := hread hsize
      refine .single hcomplete rfl ?_
      rw [decodeStep_gives hf (.one ht hp), hr]
      exact congrArg Except.ok (alter_extend hm rfl)

theorem encodeAll_conveys {es' : List Entry} (h : Forall₂ (Becomes ctx m.typeName) es es')
    (hsorted : (m.entries ++ es').Pairwise fun a b => a.number < b.number) :
    Conveys (fun w => ∃ e ∈ es, w.number = e.number) (decodeStep ctx (decode ctx)) (encodeAll es) m
      { m with entries := m.entries ++ es' } := by
  induction es generalizing m es' with
  | nil =>
    cases h
    rw [append_nil, mk_parts]
    exact .nil m
  | cons e es ih =>
    obtain ⟨e', es', he, hes, rfl⟩ := forall₂_cons_left_iff.mp h
    have hbelow : m.Below e.number := by
      intro x hx
      rw [← he.number_eq]
      exact (pairwise_append.mp hsorted).2.2 x hx e' (by simp)
    have hhead := encode_conveys he hbelow
    have htail := ih (m := m.extend e') hes (by simpa [extend] using hsorted)
    rw [extend, append_assoc] at htail
    refine (hhead.mono ?_).append (htail.mono ?_)
    · intro w hw
      exact ⟨e, by simp, hw⟩
    · rintro w ⟨x, hx, hw⟩
      exact ⟨x, by simp [hx], hw⟩

end Entry

theorem Message.unknown_carries (h : AreFields (fun w => ctx.consumes m.typeName w = false) bytes) :
    Carries (fun _ => True) (decodeStep ctx (decode ctx)) bytes m (m.appendUnknown bytes) := by
  obtain ⟨ws, rfl, hws⟩ := h
  refine ⟨ws, rfl, fun w hw => ⟨(hws w hw).1, trivial⟩, ?_⟩
  induction ws generalizing m with
  | nil => simp [appendUnknown, pure, Except.pure]
  | cons w ws ih =>
    rw [foldlM_cons, decodeStep_unknown (hws w (by simp)).2]
    have htail := ih (m := m.appendUnknown w.raw) fun x hx => hws x (by simp [hx])
    simpa [appendUnknown, bind, Except.bind] using htail

theorem Message.returns_of_wellTyped (h : m.WellTyped ctx) : m.Returns ctx := by
  induction m using induction with
  | _ m ih =>
    obtain ⟨hsorted, hall, hunknown⟩ := wellTyped_iff.mp h
    have hknown := Entry.encodeAll_conveys (m := .empty m.typeName)
      (forall₂_same.mpr fun e he => (hall e he).becomes (ih e he)) hsorted
    obtain ⟨known, hk, hcarries⟩ := hknown.mono fun _ _ => trivial
    refine ⟨known ++ m.unknown, ?_, ?_⟩
    · obtain ⟨typeName, entries, unknown⟩ := m
      simp only [encode, hk]
      rfl
    · intro hsize
      have htail : Carries (fun _ => True) (decodeStep ctx (decode ctx)) m.unknown
          { m with unknown := [] } m := by
        simpa [appendUnknown] using unknown_carries (m := { m with unknown := [] }) hunknown
      exact (hcarries hsize.left).append htail

theorem Entry.encodeAll_fields (h : ∀ e ∈ es, e.WellTyped ctx typeName)
    (hsorted : es.Pairwise fun a b => a.number < b.number) :
    ∃ bytes, encodeAll es = .ok bytes ∧ (Addressable bytes →
      AreFields (fun w => ∃ e ∈ es, w.number = e.number) bytes) := by
  obtain ⟨bytes, hbytes, hcarries⟩ := encodeAll_conveys (m := .empty typeName)
    (forall₂_same.mpr fun e he => (h e he).becomes fun _ _ => returns_of_wellTyped) hsorted
  exact ⟨bytes, hbytes, fun hsize => (hcarries hsize).areFields⟩

theorem Entry.encodeAll_append (es more : List Entry) : encodeAll (es ++ more) = (do
      let head ← encodeAll es
      let tail ← encodeAll more
      return head ++ tail) := by
  induction es with
  | nil => cases h : encodeAll more <;> simp [encodeAll, h, bind, Except.bind, pure, Except.pure]
  | cons e es ih =>
    rw [cons_append, encodeAll, encodeAll, ih]
    cases e.encode <;> cases encodeAll es <;> cases encodeAll more <;>
      simp [bind, Except.bind, pure, Except.pure]

theorem ok_of_toOption {ε α : Type} {e : Except ε α} {a : α} (h : e.toOption = some a) :
    e = .ok a := by
  cases e with
  | error e => cases h
  | ok b => exact congrArg Except.ok (Option.some.inj h)

theorem addressable_of_short {e : Except EncodeError Bytes} {bs : Bytes} (he : e = .ok bs)
    (h : e.toOption.any (fun bs => decide (bs.length < 256)) = true) : Addressable bs := by
  subst he
  have hlength : bs.length < 256 := of_decide_eq_true h
  exact lt_trans hlength (by decide)

namespace Message

/-- A well-typed message can be written, and reading what was written gives the message. -/
theorem decode_encode {ctx : DecodeContext} {m : Message} (h : m.WellTyped ctx) :
    ∃ bytes, m.encode = .ok bytes ∧
      (Wire.Addressable bytes → decode ctx m.typeName bytes = .ok m) := by
  obtain ⟨bytes, hbytes, hcarries⟩ := returns_of_wellTyped h
  refine ⟨bytes, hbytes, ?_⟩
  intro hsize
  exact Returns.decode (hcarries hsize) hsize

def sampleContext : DecodeContext where
  types :=
    { message? := fun name => if name = "T" then some (.mk (some "T")
        [{ number? := some 1, type? := some .group, typeName? := some ".T" },
         { number? := some 2, type? := some .sint32, label? := some .repeated }]
        [] [] [] [] [] none [] []) else none
      enum? := fun _ => none
      extension? := fun _ => none }
  extensions? := some
    ⟨[(("T", 100), .ofField "x" { number? := some 100, type? := some .string } "f")], []⟩

def sampleMessage : Message :=
  ⟨"T", [⟨1, .group, false, .message ⟨"T", [], [72, 1]⟩⟩,
    ⟨2, .sint32, true, .list [.int32 1, .int32 (-300)]⟩,
    ⟨100, .string, false, .string "ab"⟩], [10, 0]⟩

theorem sampleMessage_wellTyped : sampleMessage.WellTyped sampleContext := by
  have inner : (mk "T" [] [72, 1]).WellTyped sampleContext :=
    ⟨.nil, trivial, [⟨9, .varint 1, [72, 1]⟩], rfl, by
      intro w hw
      cases mem_singleton.mp hw
      exact ⟨rfl, by decide⟩⟩
  have unknown : AreFields (fun w => sampleContext.consumes "T" w = false) [10, 0] :=
    ⟨[⟨1, .lengthDelimited [], [10, 0]⟩], rfl, by
      intro w hw
      cases mem_singleton.mp hw
      exact ⟨rfl, by decide⟩⟩
  have group : (Entry.mk 1 .group false (.message ⟨"T", [], [72, 1]⟩)).WellTyped
      sampleContext "T" := ⟨by decide, _, rfl, rfl, rfl, rfl, rfl, by decide, inner⟩
  have numbers :
      (Entry.mk 2 .sint32 true (.list [.int32 1, .int32 (-300)])).WellTyped sampleContext "T" :=
    ⟨by decide, _, rfl, rfl, rfl, by simp, fun _ => rfl, rfl, rfl, trivial⟩
  have text : (Entry.mk 100 .string false (.string "ab")).WellTyped sampleContext "T" :=
    ⟨by decide, _, rfl, rfl, rfl, rfl, rfl⟩
  exact ⟨by simp, ⟨group, numbers, text, trivial⟩, unknown⟩

theorem decode_encode_sample :
    sampleMessage.WellTyped sampleContext ∧
      ∃ bytes, sampleMessage.encode = .ok bytes ∧
        decode sampleContext "T" bytes = .ok sampleMessage := by
  refine ⟨sampleMessage_wellTyped, ?_⟩
  obtain ⟨bytes, hbytes, hdecode⟩ := decode_encode sampleMessage_wellTyped
  refine ⟨bytes, hbytes, hdecode ?_⟩
  have hwritten : sampleMessage.encode =
      .ok [11, 72, 1, 12, 18, 3, 2, 215, 4, 162, 6, 2, 97, 98, 10, 0] := rfl
  rw [hwritten] at hbytes
  cases hbytes
  decide

end Message

end ProtobufSchema

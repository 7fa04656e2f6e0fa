import ProtobufSchema.Message.Decode
import ProtobufSchema.Proofs.FieldSequences

/-! Well-typed messages, and that every message read from the wire is one in the context it was read
in. -/

namespace ProtobufSchema

open List FieldSequence

variable {vs : List Value} {e : Entry} {bytes : Bytes}
variable {type : FieldType} {f : FieldDescriptor} {ctx : DecodeContext} {w : WireField} {v : Value}
  {number : UInt32} {m : Message}

def Payload.wireType : Payload → WireType
  | varint _ => .varint
  | fixed64 _ => .fixed64
  | lengthDelimited _ => .lengthDelimited
  | group _ => .startGroup
  | fixed32 _ => .fixed32

def FieldDescriptor.takes (f : FieldDescriptor) (kind : WireType) : Bool :=
  f.type?.any fun type =>
    kind == type.wireType || (f.isRepeated && type.isPackable && kind == .lengthDelimited)

/-- Whether a field of the wire becomes an entry of a message, and not unknown bytes. -/
def DecodeContext.consumes (ctx : DecodeContext) (typeName : String) (w : WireField) : Bool :=
  (ctx.field? typeName w.number).any (·.takes w.payload.wireType)

/-- Whether a value is of the variant of a type that holds no message. -/
def Value.isScalarOf : FieldType → Value → Bool
  | .int32, .int32 _ | .sint32, .int32 _ | .sfixed32, .int32 _ => true
  | .int64, .int64 _ | .sint64, .int64 _ | .sfixed64, .int64 _ => true
  | .uint32, .uint32 _ | .fixed32, .uint32 _ => true
  | .uint64, .uint64 _ | .fixed64, .uint64 _ => true
  | .float, .float _ | .double, .double _ | .bool, .bool _ | .enum, .enum _ => true
  | .string, .string _ | .bytes, .bytes _ => true
  | _, _ => false

mutual

def Value.Fits (ctx : DecodeContext) (f : FieldDescriptor) (type : FieldType) : Value → Prop
  | .message m => type.isMessage = true ∧ m.typeName = f.typeName ∧ m.WellTyped ctx
  | v => v.isScalarOf type = true

def Value.AllFit (ctx : DecodeContext) (f : FieldDescriptor) (type : FieldType) :
    List Value → Prop
  | [] => True
  | v :: vs => v.Fits ctx f type ∧ Value.AllFit ctx f type vs

/-- An entry of a message of a type. A repeated field holds a list that is not empty, and only a
list of numbers is written as one run. -/
def Entry.WellTyped (ctx : DecodeContext) (typeName : String) : Entry → Prop
  | ⟨number, type, packed, .list items⟩ =>
    number ≠ 0 ∧ ∃ f, ctx.field? typeName number = some f ∧ f.type? = some type ∧
      f.isRepeated = true ∧ items ≠ [] ∧ (packed = true → type.isPackable = true) ∧
      Value.AllFit ctx f type items
  | ⟨number, type, packed, v⟩ =>
    number ≠ 0 ∧ ∃ f, ctx.field? typeName number = some f ∧ f.type? = some type ∧
      f.isRepeated = false ∧ packed = false ∧ v.Fits ctx f type

def Entry.AllWellTyped (ctx : DecodeContext) (typeName : String) : List Entry → Prop
  | [] => True
  | e :: es => e.WellTyped ctx typeName ∧ Entry.AllWellTyped ctx typeName es

/-- The entries are in ascending order of their numbers, as they are in every message that is built
by setting and pushing. -/
def Message.WellTyped (ctx : DecodeContext) : Message → Prop
  | ⟨typeName, entries, unknown⟩ =>
    entries.Pairwise (fun a b => a.number < b.number) ∧ Entry.AllWellTyped ctx typeName entries ∧
      Wire.AreFields (fun w => ctx.consumes typeName w = false) unknown

end

def Value.items : Value → List Value
  | .list items => items
  | v => [v]

theorem bind_eq_ok {ε α β : Type} {x : Except ε α} {f : α → Except ε β} {b : β} :
    (x >>= f) = .ok b ↔ ∃ a, x = .ok a ∧ f a = .ok b := by
  cases x <;> simp [bind, Except.bind]

namespace Wire

variable {p : WireField → Prop}

theorem AreFields.nil : AreFields p [] := ⟨[], rfl, by simp⟩

theorem AreFields.append_raw (h : AreFields p bytes)
    (hw : w.IsComplete) (hp : p w) : AreFields p (bytes ++ w.raw) := by
  obtain ⟨ws, rfl, hws⟩ := h
  refine ⟨ws ++ [w], by simp, ?_⟩
  intro v hv
  rcases mem_append.mp hv with hv | hv
  · exact hws v hv
  · rw [mem_singleton.mp hv]
    exact ⟨hw, hp⟩

theorem AreFields.forall {ws : List WireField} (h : AreFields p (WireField.concat ws))
    (hws : ∀ w ∈ ws, w.IsComplete) : ∀ w ∈ ws, p w := by
  obtain ⟨vs, heq, hvs⟩ := h
  have : ws = vs := WireField.concat_injective hws (fun v hv => (hvs v hv).1) heq
  subst this
  intro w hw
  exact (hvs w hw).2

end Wire

theorem Value.allFit_iff : AllFit ctx f type vs ↔ ∀ v ∈ vs, v.Fits ctx f type := by
  induction vs with
  | nil => simp [AllFit]
  | cons v vs ih => simp [AllFit, ih]

theorem Value.fits_of_isScalarOf (h : v.isScalarOf type = true) : v.Fits ctx f type := by
  cases v with
  | message m => cases type <;> cases h
  | _ => simpa [Fits] using h

namespace Entry

variable {ctx : DecodeContext} {typeName : String} {es : List Entry} {number : UInt32}

theorem allWellTyped_iff : AllWellTyped ctx typeName es ↔ ∀ e ∈ es, e.WellTyped ctx typeName := by
  induction es with
  | nil => simp [AllWellTyped]
  | cons e es ih => simp [AllWellTyped, ih]

theorem WellTyped.cases (h : e.WellTyped ctx typeName) :
    e.number ≠ 0 ∧ ∃ f, ctx.field? typeName e.number = some f ∧ f.type? = some e.type ∧
      ((∃ items, e.value = .list items ∧ f.isRepeated = true ∧ items ≠ [] ∧
          (e.packed = true → e.type.isPackable = true) ∧ ∀ v ∈ items, v.Fits ctx f e.type) ∨
        (f.isRepeated = false ∧ e.packed = false ∧ (∀ items, e.value ≠ .list items) ∧
          e.value.Fits ctx f e.type)) := by
  obtain ⟨number, type, packed, value⟩ := e
  cases value with
  | list items =>
    obtain ⟨hnumber, f, hf, ht, hr, hne, hp, hall⟩ := h
    exact ⟨hnumber, f, hf, ht, .inl ⟨items, rfl, hr, hne, hp, Value.allFit_iff.mp hall⟩⟩
  | _ =>
    obtain ⟨hnumber, f, hf, ht, hr, hp, hfit⟩ := h
    exact ⟨hnumber, f, hf, ht, .inr ⟨hr, hp, by simp, hfit⟩⟩

theorem wellTyped_list {packed : Bool} {items : List Value} (hnumber : number ≠ 0)
    (hf : ctx.field? typeName number = some f) (ht : f.type? = some type) (hr : f.isRepeated = true)
    (hne : items ≠ []) (hp : packed = true → type.isPackable = true)
    (h : ∀ v ∈ items, v.Fits ctx f type) :
    (mk number type packed (.list items)).WellTyped ctx typeName :=
  ⟨hnumber, f, hf, ht, hr, hne, hp, Value.allFit_iff.mpr h⟩

theorem wellTyped_single (hnumber : number ≠ 0) (hf : ctx.field? typeName number = some f)
    (ht : f.type? = some type) (hr : f.isRepeated = false) (h : v.Fits ctx f type) :
    (mk number type false v).WellTyped ctx typeName := by
  cases v with
  | list items => cases type <;> cases h
  | _ => exact ⟨hnumber, f, hf, ht, hr, rfl, h⟩

theorem mem_alter {f : Option Entry → Option Entry} (h : e ∈ alter number f es) :
    e ∈ es ∨ f none = some e ∨ ∃ x ∈ es, x.number = number ∧ f (some x) = some e := by
  induction es with
  | nil =>
    simp only [alter, Option.mem_toList] at h
    exact .inr (.inl h)
  | cons x es ih =>
    simp only [alter] at h
    split at h
    · rcases mem_append.mp h with h | h
      · exact .inr (.inl (Option.mem_toList.mp h))
      · exact .inl h
    · split at h
      · rename_i hx
        rcases mem_append.mp h with h | h
        · exact .inr (.inr ⟨x, by simp, hx.symm, Option.mem_toList.mp h⟩)
        · exact .inl (mem_cons_of_mem x h)
      · rcases mem_cons.mp h with rfl | h
        · exact .inl (by simp)
        · rcases ih h with h | h | ⟨y, hy, hnum, hf⟩
          · exact .inl (mem_cons_of_mem x h)
          · exact .inr (.inl h)
          · exact .inr (.inr ⟨y, mem_cons_of_mem x hy, hnum, hf⟩)

/-- A change of the entry of a number that leaves an entry of that number. -/
structure Fills (number : UInt32) (f : Option Entry → Option Entry) : Prop where
  of_none : ∃ e, f none = some e ∧ e.number = number
  of_some : ∀ {x : Entry}, x.number = number → ∃ e, f (some x) = some e ∧ e.number = number

section Fills

variable {f : Option Entry → Option Entry} (hf : Fills number f)
include hf

theorem Fills.mem_alter (h : e ∈ alter number f es) : e ∈ es ∨ e.number = number := by
  rcases Entry.mem_alter h with h | h | ⟨x, _, hx, h⟩
  · exact .inl h
  · obtain ⟨y, hy, hnumber⟩ := hf.of_none
    cases hy.symm.trans h
    exact .inr hnumber
  · obtain ⟨y, hy, hnumber⟩ := hf.of_some hx
    cases hy.symm.trans h
    exact .inr hnumber

theorem Fills.alter_pairwise (h : es.Pairwise fun a b => a.number < b.number) :
    (alter number f es).Pairwise fun a b => a.number < b.number := by
  obtain ⟨e, he, hnumber⟩ := hf.of_none
  induction es with
  | nil => simp [alter, he]
  | cons x es ih =>
    obtain ⟨hx, hes⟩ := pairwise_cons.mp h
    unfold alter
    split
    · rename_i hlt
      rw [he]
      refine pairwise_cons.mpr ⟨?_, h⟩
      rw [hnumber]
      exact forall_mem_cons.mpr ⟨hlt, fun y hy => UInt32.lt_trans hlt (hx y hy)⟩
    · rename_i hge
      split
      · rename_i heq
        obtain ⟨y, hy, hnumber⟩ := hf.of_some heq.symm
        rw [hy]
        refine pairwise_cons.mpr ⟨?_, hes⟩
        rwa [hnumber, heq]
      · rename_i hne
        refine pairwise_cons.mpr ⟨fun y hy => ?_, ih hes⟩
        rcases hf.mem_alter hy with hy | hy
        · exact hx y hy
        · rw [hy]
          exact UInt32.lt_of_le_of_ne (UInt32.not_lt.mp hge) (symm hne)

end Fills

end Entry

/-- How a message holds the values of a field. -/
structure Holding where
  repeated : Bool
  number : UInt32
  type : FieldType
  packed : Bool

namespace Holding

variable {s : Holding} {typeName : String}

/-- What a value makes of the entry of its field: it stands behind those of a repeated field, and in
place of any other. -/
def storing (s : Holding) (v : Value) (e? : Option Entry) : Option Entry :=
  if s.repeated then
    some (match e? with
      | none => ⟨s.number, s.type, s.packed, .list [v]⟩
      | some e => { e with value := .list (e.value.items ++ [v]) })
  else some ⟨s.number, s.type, false, v⟩

theorem storing_fills (s : Holding) (v : Value) : Entry.Fills s.number (s.storing v) := by
  obtain ⟨repeated, number, type, packed⟩ := s
  cases repeated with
  | true => exact ⟨⟨_, rfl, rfl⟩, fun hx => ⟨_, rfl, hx⟩⟩
  | false => exact ⟨⟨_, rfl, rfl⟩, fun _ => ⟨_, rfl, rfl⟩⟩

/-- The field is declared in a context for messages of a type. -/
structure IsOf (ctx : DecodeContext) (typeName : String) (f : FieldDescriptor) (s : Holding) :
    Prop where
  number_ne_zero : s.number ≠ 0
  field? : ctx.field? typeName s.number = some f
  type? : f.type? = some s.type
  isRepeated : f.isRepeated = s.repeated
  isPackable : s.packed = true → s.type.isPackable = true

theorem IsOf.wellTyped (hs : s.IsOf ctx typeName f) (hv : v.Fits ctx f s.type) {e? : Option Entry}
    (hold : ∀ x ∈ e?, x.number = s.number ∧ x.WellTyped ctx typeName)
    (he : s.storing v e? = some e) : e.WellTyped ctx typeName := by
  obtain ⟨repeated, number, type, packed⟩ := s
  obtain ⟨hnumber, hf, ht, hr, hp⟩ := hs
  cases repeated with
  | false =>
    cases he
    exact Entry.wellTyped_single hnumber hf ht hr hv
  | true =>
    cases he
    cases e? with
    | none => exact Entry.wellTyped_list hnumber hf ht hr (by simp) hp (by simpa using hv)
    | some x =>
      obtain ⟨hn, hx⟩ := hold x rfl
      obtain ⟨_, g, hg, htype, hcases⟩ := hx.cases
      obtain ⟨n, t, p, value⟩ := x
      cases hn
      cases hf.symm.trans hg
      cases ht.symm.trans htype
      rcases hcases with ⟨items, rfl, _, _, hpacked, hitems⟩ | ⟨hsingle, _⟩
      · refine Entry.wellTyped_list hnumber hf ht hr (by simp) hpacked ?_
        exact forall_mem_append.mpr ⟨hitems, forall_mem_singleton.mpr hv⟩
      · cases hr.symm.trans hsingle

end Holding

namespace Message

theorem wellTyped_iff :
    m.WellTyped ctx ↔ m.entries.Pairwise (fun a b => a.number < b.number) ∧
      (∀ e ∈ m.entries, e.WellTyped ctx m.typeName) ∧
      Wire.AreFields (fun w => ctx.consumes m.typeName w = false) m.unknown := by
  obtain ⟨typeName, entries, unknown⟩ := m
  rw [WellTyped, Entry.allWellTyped_iff]

theorem wellTyped_empty (ctx : DecodeContext) (typeName : String) :
    (empty typeName).WellTyped ctx :=
  ⟨.nil, trivial, .nil⟩

section Store

def put (s : Holding) (m : Message) (v : Value) : Message := m.alter s.number (s.storing v)

def putAll (s : Holding) (vs : List Value) (m : Message) : Message :=
  vs.foldl (fun m v => m.put s v) m

variable {s : Holding}

theorem put_eq (s : Holding) (m : Message) (v : Value) : m.put s v =
    if s.repeated then m.push s.number s.type s.packed v else m.set s.number s.type v := by
  obtain ⟨repeated, number, type, packed⟩ := s
  cases repeated with
  | false => rfl
  | true =>
    refine congrArg (m.alter number) (funext fun e? => ?_)
    rcases e? with _ | ⟨n, t, p, value⟩
    · rfl
    · cases value <;> rfl

theorem mem_put (hs : s.IsOf ctx m.typeName f) (hv : v.Fits ctx f s.type)
    (hold : ∀ x ∈ m.entries, x.number = s.number → x.WellTyped ctx m.typeName)
    (he : e ∈ (m.put s v).entries) : e ∈ m.entries ∨ e.WellTyped ctx m.typeName := by
  rcases Entry.mem_alter he with he | he | ⟨x, hx, hn, he⟩
  · exact .inl he
  · exact .inr (hs.wellTyped hv (by simp) he)
  · exact .inr (hs.wellTyped hv (by simpa using ⟨hn, hold x hx hn⟩) he)

theorem WellTyped.put (h : m.WellTyped ctx) (hs : s.IsOf ctx m.typeName f)
    (hv : v.Fits ctx f s.type) : (m.put s v).WellTyped ctx := by
  obtain ⟨hsorted, hall, hunknown⟩ := wellTyped_iff.mp h
  refine wellTyped_iff.mpr ⟨(s.storing_fills v).alter_pairwise hsorted, ?_, hunknown⟩
  intro e he
  exact (mem_put hs hv (fun x hx _ => hall x hx) he).elim (hall e) id

theorem WellTyped.putAll (h : m.WellTyped ctx) (hs : s.IsOf ctx m.typeName f)
    (hvs : ∀ v ∈ vs, v.Fits ctx f s.type) : (m.putAll s vs).WellTyped ctx := by
  induction vs generalizing m with
  | nil => exact h
  | cons v vs ih =>
    obtain ⟨hv, hvs⟩ := forall_mem_cons.mp hvs
    exact ih (h.put hs hv) hs hvs

theorem putAll_parts :
    (m.putAll s vs).typeName = m.typeName ∧ (m.putAll s vs).unknown = m.unknown := by
  induction vs generalizing m with
  | nil => exact ⟨rfl, rfl⟩
  | cons v vs ih => exact ih

theorem mem_putAll (h : e ∈ (m.putAll s vs).entries) : e ∈ m.entries ∨ e.number = s.number := by
  induction vs generalizing m with
  | nil => exact .inl h
  | cons v vs ih =>
    rcases ih h with h | h
    · exact (s.storing_fills v).mem_alter h
    · exact .inr h

theorem WellTyped.appendUnknown (h : m.WellTyped ctx) (hw : w.IsComplete)
    (hc : ctx.consumes m.typeName w = false) : (m.appendUnknown w.raw).WellTyped ctx := by
  obtain ⟨hsorted, hall, hunknown⟩ := wellTyped_iff.mp h
  exact wellTyped_iff.mpr ⟨hsorted, hall, hunknown.append_raw hw hc⟩

end Store

end Message

theorem WireField.IsComplete.number_ne_zero (h : w.IsComplete) : w.number ≠ 0 := by
  obtain ⟨_, _, hk, _⟩ := Read.field_cases h
  obtain ⟨_, _, hne, _⟩ := Read.key_ok_iff.mp hk
  exact hne

namespace Value

theorem isScalarOf_of_ofNumber? {p : Payload} (h : ofNumber? type p = some v) :
    v.isScalarOf type = true := by
  cases type <;> cases p <;> cases h <;> rfl

section Payload

variable {ctx : DecodeContext} {decode : String → Bytes → Except DecodeError Message}
  {f : FieldDescriptor} {type : FieldType} {number : UInt32} {p : Payload}

theorem ofPayload_other (h : p.wireType ≠ type.wireType) :
    ofPayload decode f type number p = .ok none := by
  cases type <;> cases p <;> first | rfl | exact absurd rfl h

theorem wireType_of_ofPayload (h : ofPayload decode f type number p = .ok none) :
    p.wireType ≠ type.wireType := by
  intro heq
  cases type <;> cases p <;> cases heq <;> first
    | cases h
    | (obtain ⟨_, _, h⟩ := bind_eq_ok.mp h; cases h)

theorem ofPayload_fits
    (hd : ∀ m, decode f.typeName p.content = .ok m → m.typeName = f.typeName ∧ m.WellTyped ctx)
    (h : ofPayload decode f type number p = .ok (some v)) : v.Fits ctx f type := by
  have number (h : .ok (ofNumber? type p) = (.ok (some v) : Except DecodeError _)) :
      v.Fits ctx f type := by
    injection h with h
    exact fits_of_isScalarOf (isScalarOf_of_ofNumber? h)
  cases type <;> cases p <;> try exact number h
  case message.lengthDelimited | group.group =>
    obtain ⟨m, hm, h⟩ := bind_eq_ok.mp h
    cases h
    exact ⟨rfl, hd m hm⟩
  case string.lengthDelimited =>
    obtain ⟨s, _, h⟩ := bind_eq_ok.mp h
    cases h
    exact fits_of_isScalarOf rfl
  case bytes.lengthDelimited =>
    cases h
    exact fits_of_isScalarOf rfl

end Payload

theorem isScalarOf_of_ofRun {r : Reader}
    (h : ofRun number type r = .ok vs) : ∀ v ∈ vs, v.isScalarOf type = true := by
  induction r using Reader.induction generalizing vs with
  | _ r ih =>
    rw [ofRun] at h
    split at h
    · cases h
      simp
    · split at h
      · cases h
      · rename_i p s hp
        obtain ⟨more, hmore, h⟩ := bind_eq_ok.mp h
        cases h
        intro v hv
        rcases mem_append.mp hv with hv | hv
        · exact isScalarOf_of_ofNumber? (Option.mem_toList.mp hv)
        · exact ih s (Read.plainPayload_rest hp) hmore v hv

end Value

/-- The values that a field of the wire gives a declared field: a single one, or a run of them. -/
inductive FieldDescriptor.Gives (decode : String → Bytes →
    Except DecodeError Message) (f : FieldDescriptor) (w : WireField) : Holding → List Value → Prop
  | one {type : FieldType} {v : Value} (ht : f.type? = some type)
    (h : Value.ofPayload decode f type w.number w.payload = .ok (some v)) :
    Gives decode f w ⟨f.isRepeated, w.number, type, false⟩ [v]
  | run {type : FieldType} {bytes : Bytes} {vs : List Value} (ht : f.type? = some type)
    (hr : f.isRepeated = true) (hp : type.isPackable = true)
    (hpayload : w.payload = .lengthDelimited bytes)
    (h : Value.ofRun w.number type (.ofBytes bytes) = .ok vs) :
    Gives decode f w ⟨f.isRepeated, w.number, type, true⟩ vs

section Step

variable {ctx : DecodeContext} {decode : String → Bytes → Except DecodeError Message}
  {m m' : Message} {w : WireField} {s : Holding}

namespace FieldDescriptor.Gives

variable (h : f.Gives decode w s vs)
include h

theorem number_eq : s.number = w.number := by
  cases h <;> rfl

theorem isRepeated : f.isRepeated = s.repeated := by
  cases h <;> rfl

theorem isOf {typeName : String} (hw : w.IsComplete)
    (hf : ctx.field? typeName w.number = some f) : s.IsOf ctx typeName f := by
  cases h with
  | one ht => exact ⟨hw.number_ne_zero, hf, ht, rfl, nofun⟩
  | run ht _ hp => exact ⟨hw.number_ne_zero, hf, ht, rfl, fun _ => hp⟩

theorem fits (hd : ∀ t x, decode t w.payload.content = .ok x → x.typeName = t ∧ x.WellTyped ctx) :
    ∀ v ∈ vs, v.Fits ctx f s.type := by
  cases h with
  | one _ hv => exact forall_mem_singleton.mpr (Value.ofPayload_fits (hd f.typeName) hv)
  | run _ _ _ _ hvs =>
    exact fun v hv => Value.fits_of_isScalarOf (Value.isScalarOf_of_ofRun hvs v hv)

end FieldDescriptor.Gives

namespace Message

theorem decodeField_cases {stored : Option Message} (h : decodeField decode f m w = .ok stored) :
    (f.takes w.payload.wireType = false ∧ stored = none) ∨
    ∃ s vs, f.Gives decode w s vs ∧ stored = some (m.putAll s vs) := by
  unfold decodeField at h
  cases ht : f.type? with
  | none =>
    simp only [ht] at h
    cases h
    exact .inl ⟨by simp [FieldDescriptor.takes, ht], rfl⟩
  | some type =>
    simp only [ht] at h
    obtain ⟨v?, hv, h⟩ := bind_eq_ok.mp h
    cases v? with
    | some v =>
      cases h
      exact .inr ⟨_, _, .one ht hv, by simp [putAll, put_eq]⟩
    | none =>
      have left (hrun : (f.isRepeated && type.isPackable &&
          w.payload.wireType == .lengthDelimited) = false) :
              f.takes w.payload.wireType = false := by
        simp only [FieldDescriptor.takes, ht, Option.any_some, hrun]
        simpa using Value.wireType_of_ofPayload hv
      cases hp : w.payload with
      | lengthDelimited run =>
        simp only [hp] at h left
        split at h
        · rename_i hrun
          obtain ⟨hr, hpack⟩ := Bool.and_eq_true_iff.mp hrun
          obtain ⟨vs, hvs, h⟩ := bind_eq_ok.mp h
          cases h
          exact .inr ⟨_, vs, .run ht hr hpack hp hvs, by simp [putAll, put_eq, hr]⟩
        · cases h
          exact .inl ⟨left (by simp_all), rfl⟩
      | _ =>
        simp only [hp] at h left
        cases h
        exact .inl ⟨left (by simp [Payload.wireType]), rfl⟩

theorem decodeStep_cases (h : decodeStep ctx decode m w = .ok m') :
    (ctx.consumes m.typeName w = false ∧ m' = m.appendUnknown w.raw) ∨
    ∃ f s vs, ctx.field? m.typeName w.number = some f ∧ f.Gives decode w s vs ∧
    m' = m.putAll s vs := by
  unfold decodeStep at h
  cases hf : ctx.field? m.typeName w.number with
  | none =>
    rw [hf] at h
    cases h
    exact .inl ⟨by simp [DecodeContext.consumes, hf], rfl⟩
  | some f =>
    simp only [hf] at h
    obtain ⟨stored, hstored, h⟩ := bind_eq_ok.mp h
    rcases decodeField_cases hstored with ⟨htakes, rfl⟩ | ⟨s, vs, hgives, rfl⟩
    · cases h
      exact .inl ⟨by simpa [DecodeContext.consumes, hf] using htakes, rfl⟩
    · cases h
      exact .inr ⟨f, s, vs, rfl, hgives, rfl⟩

theorem decodeStep_wellTyped (hw : w.IsComplete)
    (hd : ∀ t x, decode t w.payload.content = .ok x → x.typeName = t ∧ x.WellTyped ctx)
    (h : m.WellTyped ctx) (hstep : decodeStep ctx decode m w = .ok m') :
    m'.typeName = m.typeName ∧ m'.WellTyped ctx := by
  rcases decodeStep_cases hstep with ⟨hleft, rfl⟩ | ⟨f, s, vs, hf, hgives, rfl⟩
  · exact ⟨rfl, h.appendUnknown hw hleft⟩
  · exact ⟨putAll_parts.1, h.putAll (hgives.isOf hw hf) (hgives.fits hd)⟩

end Message

end Step

namespace Message

theorem decodeStep_congr {decode decode' : String → Bytes → Except DecodeError Message}
    (h : ∀ t, decode t w.payload.content = decode' t w.payload.content) (m : Message) :
    decodeStep ctx decode m w = decodeStep ctx decode' m w := by
  have hvalue : ∀ f type, Value.ofPayload decode f type w.number w.payload =
      Value.ofPayload decode' f type w.number w.payload := by
    intro f type
    cases hp : w.payload <;> rw [hp] at h <;> cases type <;>
      simp only [Value.ofPayload, Payload.content] at h ⊢ <;> rw [h]
  simp [decodeStep, decodeField, hvalue]

theorem decodeWithin_depth (ctx : DecodeContext) {depth depth' : Nat}
    (h : bytes.length < depth) (h' : bytes.length < depth') (typeName : String) :
    decodeWithin ctx depth typeName bytes = decodeWithin ctx depth' typeName bytes := by
  induction depth generalizing depth' bytes typeName with
  | zero => omega
  | succ depth ih =>
    cases depth' with
    | zero => omega
    | succ depth' =>
      apply interpret_congr
      intro w hw m
      have hlt := ofReader_content _ w hw
      simp only [Reader.ofBytes] at hlt
      apply decodeStep_congr
      intro t
      exact ih (by omega) (by omega) t

theorem decode_eq (ctx : DecodeContext) (typeName : String) (bytes : Bytes) :
    decode ctx typeName bytes =
      (ofBytes bytes).interpret (.empty typeName) (decodeStep ctx (decode ctx)) := by
  apply interpret_congr
  intro w hw m
  have hlt := ofReader_content _ w hw
  apply decodeStep_congr
  intro t
  exact decodeWithin_depth ctx hlt (Nat.lt_succ_self _) t

theorem decode_wellTyped {typeName : String}
    (h : decode ctx typeName bytes = .ok m) : m.typeName = typeName ∧ m.WellTyped ctx := by
  induction hn : bytes.length using Nat.strong_induction_on generalizing typeName bytes m with
  | _ n ih =>
    subst hn
    rw [decode_eq] at h
    obtain ⟨_, hfold⟩ := interpret_ok h
    refine foldlM_invariant (P := fun m => m.typeName = typeName ∧ m.WellTyped ctx)
      ⟨rfl, wellTyped_empty ctx typeName⟩ ?_ hfold
    intro s w s' hw hs hstep
    have hlt := ofReader_content _ w hw
    have hcomplete := ofReader_complete _ w hw
    have hinner : ∀ t x, decode ctx t w.payload.content = .ok x →
        x.typeName = t ∧ x.WellTyped ctx := fun t x hx => ih _ hlt hx rfl
    obtain ⟨hname, htyped⟩ := decodeStep_wellTyped hcomplete hinner hs.2 hstep
    exact ⟨hname.trans hs.1, htyped⟩

end Message

end ProtobufSchema

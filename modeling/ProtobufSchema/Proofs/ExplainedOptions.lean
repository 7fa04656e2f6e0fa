import ProtobufSchema.Proofs.CanonicalFixpoint
import ProtobufSchema.Proofs.LateExtensions
import ProtobufSchema.Proofs.TextMessages
import ProtobufSchema.Proofs.WrittenEntries

/-! Options without bytes that nobody explains: assignments bring none, and reading again leaves
none where the reader finds a field for everything stored. -/

namespace ProtobufSchema

open Wire

variable {f : FieldDescriptor} {v : Value}
variable {m : Message} {e : Entry} {type : FieldType}

namespace Value

/-- The messages in a value hold no bytes that nobody explains. -/
def IsExplained (v : Value) : Prop := ∀ x, .message x ∈ v.items → x.IsExplained

theorem isExplained_message (h : m.IsExplained) : (message m).IsExplained := by
  intro x hx
  cases List.mem_singleton.mp hx
  exact h

theorem isExplained_of_isScalarOf (h : v.isScalarOf type = true) : v.IsExplained := by
  intro x hx
  cases v with
  | message m => cases type <;> cases h
  | list items => cases type <;> cases h
  | _ => cases List.mem_singleton.mp hx

end Value

namespace Message

variable {m : Message}
variable {change : Message → Message}

theorem isExplained_iff :
    m.IsExplained ↔ m.unknown = [] ∧ ∀ e ∈ m.entries, e.value.IsExplained := by
  constructor
  · rintro ⟨hunknown, hin⟩
    exact ⟨hunknown, hin⟩
  · rintro ⟨hunknown, hin⟩
    exact .of hunknown hin

theorem mem_store (h : e ∈ (f.store m v).entries) : e ∈ m.entries ∨
    (e.number = f.number.toUInt32 ∧ f.type? = some e.type ∧
      (e.packed = true → f.isRepeated = true) ∧
      (e.value = v ∨ e.value = .list [v])) ∨
    ∃ x ∈ m.entries, e = { x with value := .list (x.value.items ++ [v]) } := by
  unfold FieldDescriptor.store at h
  split at h
  · exact .inl h
  · rename_i type htype
    split at h
    · rename_i hrepeated
      rcases Entry.mem_alter h with h | ⟨⟨⟩⟩ | ⟨⟨n, t, p, value⟩, hx, _, he⟩
      · exact .inl h
      · exact .inr (.inl ⟨rfl, htype, fun _ => hrepeated, .inr rfl⟩)
      · refine .inr (.inr ⟨_, hx, ?_⟩)
        cases value <;> cases he <;> rfl
    · rcases Entry.mem_alter h with h | ⟨⟨⟩⟩ | ⟨_, _, _, ⟨⟩⟩
      · exact .inl h
      · exact .inr (.inl ⟨rfl, htype, by nofun, .inl rfl⟩)
      · exact .inr (.inl ⟨rfl, htype, by nofun, .inl rfl⟩)

theorem mem_modifyMessage {number : UInt32} {typeName : String}
    (h : e ∈ (m.modifyMessage number type typeName change).entries) :
    e ∈ m.entries ∨ e = ⟨number, type, false, .message (change (.empty typeName))⟩ ∨
    ∃ x ∈ m.entries, ∃ y, (y = .empty typeName ∨ x.value = .message y) ∧
      e = { x with value := .message (change y) } := by
  rcases Entry.mem_alter h with h | ⟨⟨⟩⟩ | ⟨⟨n, t, p, value⟩, hx, _, he⟩
  · exact .inl h
  · exact .inr (.inl rfl)
  · refine .inr (.inr ⟨_, hx, ?_⟩)
    cases value with
    | message y =>
      cases he
      exact ⟨y, .inr rfl, rfl⟩
    | _ =>
      cases he
      exact ⟨_, .inl rfl, rfl⟩

namespace IsExplained

theorem store (h : m.IsExplained) (f : FieldDescriptor) (hv : v.IsExplained) :
    (f.store m v).IsExplained := by
  have hvalue (x : Message) (hx : .message x ∈ [v]) : x.IsExplained := by
    cases List.mem_singleton.mp hx
    exact hv x (List.mem_singleton_self _)
  obtain ⟨hunknown, hentries⟩ := isExplained_iff.mp h
  refine isExplained_iff.mpr ⟨?_, ?_⟩
  · unfold FieldDescriptor.store
    split
    · exact hunknown
    · split <;> exact hunknown
  · intro e he
    rcases mem_store he with he | ⟨_, _, _, he | he⟩ | ⟨x, hx, rfl⟩
    · exact hentries e he
    · rwa [he]
    · rw [he]
      exact hvalue
    · intro y hy
      rcases List.mem_append.mp hy with hy | hy
      · exact hentries x hx y hy
      · exact hvalue y hy

theorem modifyMessage (h : m.IsExplained) (number : UInt32) (type : FieldType) (typeName : String)
    (hchange : ∀ x : Message, x.IsExplained → (change x).IsExplained) :
    (m.modifyMessage number type typeName change).IsExplained := by
  obtain ⟨hunknown, hentries⟩ := isExplained_iff.mp h
  have hempty := hchange _ (.empty typeName)
  refine isExplained_iff.mpr ⟨hunknown, ?_⟩
  intro e he
  rcases mem_modifyMessage he with he | rfl | ⟨x, hx, y, rfl | hy, rfl⟩
  · exact hentries e he
  · exact Value.isExplained_message hempty
  · exact Value.isExplained_message hempty
  · refine Value.isExplained_message (hchange y (hentries x hx y ?_))
    rw [hy]
    exact List.mem_singleton_self _

theorem storeAt (h : m.IsExplained) (hv : v.IsExplained) (path : List OptionSegment) :
    (storeAt v path m).IsExplained := by
  induction path generalizing m with
  | nil => exact h
  | cons outer more ih =>
    cases more with
    | nil => exact h.store _ hv
    | cons next more => exact h.modifyMessage _ _ _ fun x hx => ih hx

end IsExplained

end Message

theorem Message.keeps_explained (types : TypeLookup) :
    TextFormat.Keeps types IsExplained (fun _ => Value.IsExplained) where
  empty := .empty
  scalar hv := by
    obtain ⟨type, _, hscalar⟩ := Literal.coerce_isScalarOf hv
    exact Value.isExplained_of_isScalarOf hscalar
  message _ hm _ := Value.isExplained_message hm
  store {f _ _} _ hm hv := hm.store f hv

namespace DecodeContext

def Covers (ctx : DecodeContext) (typeName : String) (e : Entry) : Prop :=
  ∀ w, e.Spells w → ctx.consumes typeName w = true

/-- Under the number of the field stands one that takes whatever the field takes. -/
def Finds (ctx : DecodeContext) (typeName : String) (f : FieldDescriptor) : Prop :=
  ∀ kind, f.takes kind = true → (ctx.field? typeName f.number.toUInt32).any (·.takes kind) = true

variable {ctx : DecodeContext} {typeName : String}

theorem Finds.covers (h : ctx.Finds typeName f)
    (hnumber : e.number = f.number.toUInt32) (htype : f.type? = some e.type)
    (hpacked : e.packed = true → f.isRepeated = true) : ctx.Covers typeName e := by
  rintro w ⟨hw, hkind⟩
  rw [consumes, hw, hnumber]
  apply h
  rcases hkind with hkind | ⟨hrun, hpackable, hkind⟩
  · simp [FieldDescriptor.takes, htype, hkind]
  · simp [FieldDescriptor.takes, htype, hkind, hpackable, hpacked hrun]

theorem Finds.store (h : ctx.Finds typeName f) (v : Value)
    (hm : ∀ e ∈ m.entries, ctx.Covers typeName e) :
    ∀ e ∈ (f.store m v).entries, ctx.Covers typeName e := by
  intro e he
  rcases Message.mem_store he with he | ⟨hnumber, htype, hpacked, _⟩ | ⟨x, hx, rfl⟩
  · exact hm e he
  · exact h.covers hnumber htype hpacked
  · exact hm x hx

theorem Finds.storeAt (h : ctx.Finds typeName f) (v : Value)
    {isExtension : Bool} {more : List OptionSegment} (hmore : more = [] ∨ f.isMessage = true)
    (hm : ∀ e ∈ m.entries, ctx.Covers typeName e) :
    ∀ e ∈ (Message.storeAt v (⟨f, isExtension⟩ :: more) m).entries, ctx.Covers typeName e := by
  cases more with
  | nil => exact h.store v hm
  | cons next more =>
    have hmessage : f.isMessage = true := hmore.resolve_left (List.cons_ne_nil _ _)
    intro e he
    rcases Message.mem_modifyMessage he with he | rfl | ⟨x, hx, y, _, rfl⟩
    · exact hm e he
    · cases htype : f.type? with
      | none => simp [FieldDescriptor.isMessage, htype] at hmessage
      | some type => exact h.covers rfl htype fun hpacked => by cases hpacked
    · exact hm x hx

end DecodeContext

namespace OptionResolver

variable {r : OptionResolver} {scope : String}
variable {o : Options} {log : Log}

theorem value_explained {raw : RawOption} {last? : Option FieldDescriptor}
    (h : r.value raw last? = .ok v) : v.IsExplained := by
  unfold value at h
  split at h
  · cases h
  · split at h
    · split at h
      · rename_i m hm
        cases h
        exact Value.isExplained_message ((Message.keeps_explained _).parseText hm).1
      · cases h
    · cases h
  · split at h
    · cases h
    · split at h
      · rename_i hv
        cases h
        exact (Message.keeps_explained _).scalar hv
      · cases h

def rereading (r : OptionResolver) : DecodeContext :=
  ⟨r.pool.types, if r.asExtensions then some r.registry else none⟩

/-- The message of the options with every assignment stored, which is written and read again if one
of them used an extension. -/
def draft? (r : OptionResolver) (scope : String) (o : Options) : Option Message :=
  (r.pool.types.message? o.kind.typeName).bind fun type =>
    match r.interpretEach type scope o.uninterpreted ⟨{ o with uninterpreted := [] }, .empty⟩ with
    | .ok _ s => some s.options.message
    | .error _ _ => none

theorem draft?_eq {type : MessageDescriptor} {s : OptionState}
    {outcome : Bool × Bool} (htype : r.pool.types.message? o.kind.typeName = some type)
    (h : r.interpretEach type scope o.uninterpreted ⟨{ o with uninterpreted := [] }, log⟩ =
      .ok outcome s) : r.draft? scope o = some s.options.message := by
  have hreports : Reports r.IsNameReport (r.interpretEach type scope o.uninterpreted) :=
    interpretEach_reports type o.uninterpreted
  obtain ⟨result, t, ds, _, hrun⟩ := hreports ⟨{ o with uninterpreted := [] }, .empty⟩
  cases result with
  | error e => cases h.symm.trans (hrun log)
  | ok outcome' =>
    cases h.symm.trans (hrun log)
    have hempty : r.interpretEach type scope o.uninterpreted
        ⟨{ o with uninterpreted := [] }, .empty⟩ = _ := hrun .empty
    simp only [draft?, htype, Option.bind_some, hempty]
    rfl

/-- Nothing is left over when the options are read again. They hold no bytes that nobody explains to
begin with; what they store already, if assignments wait, and the fields that the assignments begin
with are found by the reader; and what is written can be addressed. -/
structure Recovers (r : OptionResolver) (scope : String) (o : Options) : Prop where
  unknown_eq : o.message.unknown = []
  stored : o.uninterpreted ≠ [] → o.message.IsExplained ∧
    ∀ e ∈ o.message.entries, r.rereading.Covers o.kind.typeName e
  assigned : ∀ type, r.pool.types.message? o.kind.typeName = some type →
    ∀ raw ∈ o.uninterpreted, ∀ part ∈ raw.name.head?, ∀ f,
      r.segment scope type o.kind.typeName part = .ok f → r.rereading.Finds o.kind.typeName f
  addressable : ∀ m ∈ r.draft? scope o, ∀ bytes, m.encode = .ok bytes → Addressable bytes

theorem Recovers.unknown {o' : Options} {log' : Log} (h : r.Recovers scope o)
    (hrun : r.interpretOptions scope o log = .ok o' log') : o'.message.unknown = [] := by
  by_cases hwaiting : o.uninterpreted = []
  · rw [interpretOptions_eq_pure hwaiting] at hrun
    cases hrun
    exact h.unknown_eq
  unfold interpretOptions at hrun
  split at hrun
  · rename_i stored s hall
    cases hrun
    rcases interpretAll_cases hall with ⟨_, hnone⟩ | ⟨type, extended, t, htype, heach, hend⟩
    · exact absurd hnone hwaiting
    · obtain ⟨hkind, _, hkept⟩ := interpretEach_keeps heach
        (P := fun m => m.IsExplained ∧ ∀ e ∈ m.entries, r.rereading.Covers o.kind.typeName e) (by
          rintro raw hraw path v m hpath - hv ⟨hm, hentries⟩
          refine ⟨hm.storeAt (value_explained hv) path, ?_⟩
          rcases segments_cases hpath with rfl | ⟨part, f, more, hpart, rfl, hf, hmore⟩
          · exact hentries
          · exact (h.assigned type htype raw hraw part hpart f hf).storeAt v (hmore.imp id And.left)
              hentries)
      obtain ⟨hexplained, hcovered⟩ := hkept (h.stored hwaiting)
      rcases hend with ⟨_, hsame⟩ | ⟨_, hread⟩
      · rw [hsame]
        exact hexplained.unknown_eq
      · obtain ⟨bytes, m, hbytes, hm, hdecode⟩ := reserialize_ok hread
        rw [hkind] at hdecode
        rw [hm]
        exact hexplained.decode_unknown hcovered hbytes
          (h.addressable _ (draft?_eq htype heach) bytes hbytes) hdecode
  · cases hrun

end OptionResolver

end ProtobufSchema

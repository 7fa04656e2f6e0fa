import ProtobufSchema.Proofs.InterpretedOptions
import ProtobufSchema.Proofs.ParsedNames

/-! Every message that is read from a text is built by storing values in fields that its type
has. -/

namespace ProtobufSchema

variable {f : FieldDescriptor}
variable {typeName : String} {v : Value}

/-- A field that a message of a type may have, of its own or as an extension. -/
def TypeLookup.Has (types : TypeLookup) (typeName : String) (f : FieldDescriptor) : Prop :=
  (∃ m, types.message? typeName = some m ∧ f ∈ m.fields) ∨
    ∃ full, types.extension? full = some f ∧ f.extendee = typeName

theorem FieldDescriptor.store_typeName (f : FieldDescriptor) (m : Message) (v : Value) :
    (f.store m v).typeName = m.typeName := by
  cases ht : f.type? with
  | none => rw [store, ht]
  | some type => rw [store_eq ht]; rfl

namespace TextFormat

open Parse

/-- What storing in the fields of its type keeps of a message, given what is known of the values. -/
structure Keeps (types : TypeLookup) (P : Message → Prop) (V : FieldDescriptor → Value → Prop) :
    Prop where
  empty : ∀ typeName, P (.empty typeName)
  scalar : ∀ {l f v}, Literal.coerce l f types = .ok v → V f v
  message : ∀ {f m}, f.isMessage = true → P m → m.typeName = f.typeName → V f (.message m)
  store : ∀ {f m v}, types.Has m.typeName f → P m → V f v → P (f.store m v)

variable {types : TypeLookup} {body : Char → String → Parse Message} {m : Message}

theorem fieldNamed_yields (types : TypeLookup) (typeName : String) (t : LocatedToken) :
    Yields (types.Has typeName) (fieldNamed types typeName t) := by
  unfold fieldNamed
  split
  · refine .skip fun _ => .skip fun name => .skip fun _ => ?_
    split
    · exact fail_yields _ _
    · rename_i f hf
      split
      · exact (fail_yields (P := fun _ => False) _ _).bind fun _ h => h.elim
      · rename_i hextendee
        exact .pure (.inr ⟨_, hf, by simpa using hextendee⟩)
  · refine .skip fun _ => ?_
    split
    · exact fail_yields _ _
    · rename_i type htype
      split
      · exact fail_yields _ _
      · rename_i f hf
        refine .pure (.inl ⟨type, htype, ?_⟩)
        rcases Option.or_eq_some_iff.mp hf with hf | ⟨_, hf⟩ <;> exact List.mem_of_find?_eq_some hf
  · exact unexpected_yields _ _

namespace Keeps

variable {P : Message → Prop} {V : FieldDescriptor → Value → Prop} (h : Keeps types P V)
include h

theorem scalar_yields (f : FieldDescriptor) : Yields (V f) (TextFormat.scalar types f) := by
  refine .skip fun t => .skip fun l => ?_
  dsimp only
  split
  · exact .pure (h.scalar ‹_›)
  · exact fail_yields _ _

theorem stored (hf : types.Has typeName f) (hm : P m ∧ m.typeName = typeName) (hv : V f v) :
    P (f.store m v) ∧ (f.store m v).typeName = typeName :=
  ⟨h.store (hm.2 ▸ hf) hm.1 hv, (f.store_typeName m v).trans hm.2⟩

section Body

variable (hbody : ∀ closing typeName,
  Yields (fun m => P m ∧ m.typeName = typeName) (body closing typeName))
include hbody

theorem value_yields (f : FieldDescriptor) : Yields (V f) (value types body f) := by
  unfold value
  split
  · have hmessage (closing : Char) :
        Yields (V f) (do return .message (← body closing f.typeName)) :=
      (hbody _ _).bind fun x hx => .pure (h.message ‹_› hx.1 hx.2)
    refine .skip fun t => ?_
    split
    · exact hmessage _
    · exact hmessage _
    · exact unexpected_yields _ _
  · exact h.scalar_yields f

variable {typeName : String} (hm : P m ∧ m.typeName = typeName)
include hm

theorem values_yields (hf : types.Has typeName f) (fuel : Nat) :
    Yields (fun m => P m ∧ m.typeName = typeName) (values types body f fuel m) := by
  induction fuel generalizing m with
  | zero => exact exhausted_yields
  | succ fuel ih =>
    refine (h.value_yields hbody f).bind fun v hv => .skip fun more => ?_
    split
    · exact ih (h.stored hf hm hv)
    · exact .skip fun _ => .pure (h.stored hf hm hv)

theorem field_yields : Yields (fun m => P m ∧ m.typeName = typeName) (field types body m) := by
  -- What follows a field is passed over.
  have hend (m : Message) (hm : P m ∧ m.typeName = typeName) :
      Yields (fun m => P m ∧ m.typeName = typeName) (do
        if !(← eatSymbol ';') then
          let _ ← eatSymbol ','
        return m) :=
    .skip fun _ => .ite (.skip fun _ => .pure hm) (.pure hm)
  have hvalues (f : FieldDescriptor) (hf : types.Has typeName f) :
      Yields (fun m => P m ∧ m.typeName = typeName) (do
        let m ← if ← eatSymbol '[' then
            if ← eatSymbol ']' then pure m else fueled fun fuel => values types body f fuel m
          else do pure (f.store m (← value types body f))
        if !(← eatSymbol ';') then
          let _ ← eatSymbol ','
        return m) := by
    refine .skip fun list => ?_
    split
    · refine .skip fun _ => ?_
      split
      · exact hend m hm
      · exact (fueled_yields fun fuel => h.values_yields hbody hm hf fuel).bind hend
    · refine (h.value_yields hbody f).bind fun v hv => ?_
      exact hend _ (h.stored hf hm hv)
  refine .skip fun t => (fieldNamed_yields types m.typeName t).bind fun f hf => ?_
  rw [hm.2] at hf
  dsimp only
  split
  · exact (fail_yields (P := fun _ => False) _ _).bind fun _ h => h.elim
  · split
    · exact .skip fun _ => hvalues f hf
    · exact .skip fun _ => hvalues f hf

theorem fields_yields (closing? : Option Char) (fuel : Nat) :
    Yields (fun m => P m ∧ m.typeName = typeName) (fields types body closing? fuel m) := by
  induction fuel generalizing m with
  | zero => exact exhausted_yields
  | succ fuel ih =>
    refine .skip fun t => ?_
    split
    · exact .pure hm
    · exact unexpected_yields _ _
    · split
      · exact .skip fun _ => .pure hm
      · exact (h.field_yields hbody hm).bind fun _ hm' => ih hm'

end Body

theorem messageBody_yields (depth : Nat) (closing : Char) (typeName : String) :
    Yields (fun m => P m ∧ m.typeName = typeName) (messageBody types depth closing typeName) := by
  induction depth generalizing closing typeName with
  | zero => exact exhausted_yields
  | succ depth ih =>
    exact fueled_yields fun fuel => h.fields_yields ih ⟨h.empty typeName, rfl⟩ _ fuel

theorem parseText {text : String} (hm : Message.parseText types typeName text = .ok m) :
    P m ∧ m.typeName = typeName := by
  unfold Message.parseText Message.mergeText at hm
  dsimp only at hm
  split at hm
  · rename_i hrun
    cases hm
    exact (h.fields_yields (h.messageBody_yields _) ⟨h.empty typeName, rfl⟩ none _).estate hrun
  · cases hm

end Keeps

end TextFormat

/-- The fields of a type and its extensions have positive numbers, no two of them the same. -/
structure TypeLookup.IsNumbered (types : TypeLookup) : Prop where
  positive : ∀ typeName f, types.Has typeName f → 0 < f.number
  distinct : ∀ typeName f g, types.Has typeName f → types.Has typeName g →
    f.number = g.number → f = g

/-- The registry finds every extension that is found by name, under the number that it has. -/
def Registry.Registers (r : Registry) (types : TypeLookup) : Prop :=
  ∀ full f, types.extension? full = some f → ∃ info, r.find? f.extendee f.number = some info ∧
    info.field = f

theorem TypeLookup.IsNumbered.field? {types : TypeLookup} (h : types.IsNumbered) {r : Registry}
    (hr : r.Registers types) (hf : types.Has typeName f) :
    f.number.toUInt32 ≠ 0 ∧ DecodeContext.field? ⟨types, some r⟩ typeName f.number.toUInt32 =
      some f := by
  have hne : f.number ≠ 0 := fun hzero => absurd (hzero ▸ h.positive typeName f hf) (by decide)
  refine ⟨fun hzero => hne ?_, ?_⟩
  · rw [← f.number.toInt32_toUInt32, hzero]
    rfl
  rw [DecodeContext.field?, Int32.toInt32_toUInt32]
  have hown {m : MessageDescriptor} (hm : types.message? typeName = some m) (g : FieldDescriptor)
      (hg : g ∈ m.fields) : g.number = f.number → g = f :=
    h.distinct typeName g f (.inl ⟨m, hm, hg⟩) hf
  rcases hf with ⟨m, hm, hmem⟩ | ⟨full, hfull, rfl⟩
  · rw [hm, Option.bind_some, MessageDescriptor.fieldNumbered?_of_unique hmem hne (hown hm),
      Option.some_or]
  · obtain ⟨info, hinfo, hfield⟩ := hr full f hfull
    -- A field of the message's own with the number of the extension would be found first.
    cases hfound : (types.message? f.extendee).bind (·.fieldNumbered? f.number) with
    | none => rw [Option.none_or, Option.bind_some, hinfo, Option.map_some, hfield]
    | some g =>
      obtain ⟨m, hm, hg⟩ := Option.bind_eq_some_iff.mp hfound
      obtain ⟨hmem, hsame⟩ := MessageDescriptor.of_fieldNumbered? hg
      rw [hown hm g hmem hsame, Option.some_or]

namespace Message

theorem WellTyped.store {ctx : DecodeContext} {m : Message} (h : m.WellTyped ctx)
    (hf : f.number.toUInt32 ≠ 0 ∧ ctx.field? m.typeName f.number.toUInt32 = some f)
    (hv : ∀ type ∈ f.type?, v.Fits ctx f type) : (f.store m v).WellTyped ctx := by
  cases ht : f.type? with
  | none =>
    rw [FieldDescriptor.store, ht]
    exact h
  | some type =>
    rw [FieldDescriptor.store_eq ht]
    exact h.put (FieldDescriptor.holding_isOf ht hf) (hv type ht)

variable {types : TypeLookup} {r : Registry}

theorem keeps_wellTyped (htypes : types.IsNumbered) (hr : r.Registers types) :
    TextFormat.Keeps types (·.WellTyped ⟨types, some r⟩)
      (fun f v => ∀ type ∈ f.type?, v.Fits ⟨types, some r⟩ f type) where
  empty := wellTyped_empty _
  scalar {l f v} hv type htype := by
    obtain ⟨type', htype', hscalar⟩ := Literal.coerce_isScalarOf hv
    cases htype'.symm.trans htype
    exact Value.fits_of_isScalarOf hscalar
  message {f m} hmessage hm hname type htype := by
    rw [FieldDescriptor.isMessage, Option.mem_def.mp htype] at hmessage
    exact ⟨hmessage, hname, hm⟩
  store {f m v} hf hm hv := hm.store (htypes.field? hr hf) hv

/-- A message from a text can be written, and is read back from what was written. -/
theorem decode_parseText (htypes : types.IsNumbered) (hr : r.Registers types)
    {typeName text : String} {m : Message} (h : parseText types typeName text = .ok m) :
    ∃ bytes, m.encode = .ok bytes ∧
      (Wire.Addressable bytes → decode ⟨types, some r⟩ typeName bytes = .ok m) := by
  obtain ⟨htyped, rfl⟩ := (keeps_wellTyped htypes hr).parseText h
  obtain ⟨bytes, hbytes, hcarries⟩ := returns_of_wellTyped htyped
  exact ⟨bytes, hbytes, fun hsize => Returns.decode (hcarries hsize) hsize⟩

end Message

namespace Message.Nested

def numbers : FieldDescriptor where
  name? := some "n"
  number? := some 1
  label? := some .repeated
  type? := some .sint32
  options := some ⟨.field, ⟨OptionsKind.field.typeName, [⟨2, .bool, false, .bool true⟩], []⟩, []⟩

def group : FieldDescriptor where
  name? := some "t"
  number? := some 2
  type? := some .group
  typeName? := some ".T"

def extension : FieldDescriptor where
  name? := some "x"
  extendee? := some ".T"
  number? := some 100
  type? := some .string

def types : TypeLookup where
  message? name := if name = "T" then some { fields := [numbers, group] } else none
  enum? _ := none
  extension? name := if name = "x" then some extension else none

def registry : Registry := (Registry.empty.insertAll [.ofField "x" extension "a.proto"]).1

theorem has_cases (h : types.Has typeName f) : f = numbers ∨ f = group ∨ f = extension := by
  rcases h with ⟨m, hm, hf⟩ | ⟨full, hfull, -⟩
  · obtain ⟨-, ⟨⟩⟩ := Option.ite_none_right_eq_some.mp hm
    rcases List.mem_cons.mp hf with rfl | hf
    · exact .inl rfl
    · exact .inr (.inl (List.mem_singleton.mp hf))
  · obtain ⟨-, ⟨⟩⟩ := Option.ite_none_right_eq_some.mp hfull
    exact .inr (.inr rfl)

theorem isNumbered : types.IsNumbered where
  positive typeName f hf := by rcases has_cases hf with rfl | rfl | rfl <;> decide
  distinct typeName f g hf hg hsame := by
    rcases has_cases hf with rfl | rfl | rfl <;> rcases has_cases hg with rfl | rfl | rfl <;>
      first | rfl | exact absurd hsame (by decide)

theorem registers : registry.Registers types := by
  intro full f hf
  obtain ⟨-, ⟨⟩⟩ := Option.ite_none_right_eq_some.mp hf
  exact ⟨.ofField "x" extension "a.proto", rfl, rfl⟩

def message : Message :=
  ⟨"T", [⟨1, .sint32, true, .list [.int32 1, .int32 (-2), .int32 4]⟩,
    ⟨2, .group, false, .message ⟨"T", [⟨1, .sint32, true, .list [.int32 3]⟩,
      ⟨100, .string, false, .string "ab"⟩], []⟩⟩], []⟩

theorem decode_parseText_nested :
    parseText types "T" "n: [1, -2] T < [x]: 'a' \"b\" n: 3 > n: 4" = .ok message ∧
      ∃ bytes, message.encode = .ok bytes ∧
        decode ⟨types, some registry⟩ "T" bytes = .ok message := by
  have hread : parseText types "T" "n: [1, -2] T < [x]: 'a' \"b\" n: 3 > n: 4" = .ok message := by
    with_unfolding_all rfl
  obtain ⟨bytes, hbytes, hdecode⟩ := decode_parseText isNumbered registers hread
  have hshort := addressable_of_short hbytes (by decide +kernel)
  exact ⟨hread, bytes, hbytes, hdecode hshort⟩

end Message.Nested

end ProtobufSchema

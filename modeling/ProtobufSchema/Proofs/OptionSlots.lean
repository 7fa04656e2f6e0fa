import Mathlib.Data.List.Basic
import ProtobufSchema.Descriptor.Path
import ProtobufSchema.Proofs.MessageTyping

/-! The options in a file, each with the kind of element whose slot it stands in, and what it takes
for options to be read back from the wire: they fit their slot, and nothing in their message stands
where the waiting assignments are written. -/

namespace ProtobufSchema

variable {s : OptionsKind × Options}

def OptionsKind.slot (kind : OptionsKind) (o? : Option Options) : List (OptionsKind × Options) :=
  o?.toList.map (kind, ·)

def FieldDescriptor.slots (f : FieldDescriptor) : List (OptionsKind × Options) :=
  OptionsKind.field.slot f.options

def OneofDescriptor.slots (o : OneofDescriptor) : List (OptionsKind × Options) :=
  OptionsKind.oneof.slot o.options

def ExtensionRange.slots (r : ExtensionRange) : List (OptionsKind × Options) :=
  OptionsKind.extensionRange.slot r.options

def EnumValueDescriptor.slots (v : EnumValueDescriptor) : List (OptionsKind × Options) :=
  OptionsKind.enumValue.slot v.options

def EnumDescriptor.slots (e : EnumDescriptor) : List (OptionsKind × Options) :=
  OptionsKind.enum.slot e.options ++ e.values.flatMap EnumValueDescriptor.slots

def MethodDescriptor.slots (m : MethodDescriptor) : List (OptionsKind × Options) :=
  OptionsKind.method.slot m.options

def ServiceDescriptor.slots (s : ServiceDescriptor) : List (OptionsKind × Options) :=
  OptionsKind.service.slot s.options ++ s.methods.flatMap MethodDescriptor.slots

namespace MessageDescriptor

variable {P : MessageDescriptor → Prop}

theorem induction (h : ∀ m, (∀ x ∈ m.nestedTypes, P x) → P m) (m : MessageDescriptor) : P m := by
  induction hn : sizeOf m using Nat.strong_induction_on generalizing m with
  | _ n ih =>
    subst hn
    apply h
    intro x hx
    have hlt := List.sizeOf_lt_of_mem hx
    refine ih (sizeOf x) ?_ x rfl
    cases m
    simp only [mk.sizeOf_spec] at hlt ⊢
    omega

/-- The same with the parts of the message. -/
theorem nesting
    (h : ∀ name? nested, (∀ x ∈ nested, P x) →
      ∀ fields extensions enums ranges oneofs options reserved names,
      P ⟨name?, fields, extensions, nested, enums, ranges, oneofs, options, reserved, names⟩)
    (m : MessageDescriptor) : P m := by
  induction m using induction with
  | _ m ih =>
    cases m
    exact h _ _ ih _ _ _ _ _ _ _ _

mutual

def slots : MessageDescriptor → List (OptionsKind × Options)
  | ⟨_, fields, extensions, nested, enums, ranges, oneofs, options, _, _⟩ =>
    OptionsKind.message.slot options ++ (fields ++ extensions).flatMap FieldDescriptor.slots ++
      oneofs.flatMap OneofDescriptor.slots ++ ranges.flatMap ExtensionRange.slots ++
      enums.flatMap EnumDescriptor.slots ++ nestedSlots nested

def nestedSlots : List MessageDescriptor → List (OptionsKind × Options)
  | [] => []
  | m :: ms => slots m ++ nestedSlots ms

end

theorem nestedSlots_eq (ms : List MessageDescriptor) : nestedSlots ms = ms.flatMap slots := by
  induction ms with
  | nil => rfl
  | cons m ms ih => rw [nestedSlots, ih, List.flatMap_cons]

theorem mem_slots {m : MessageDescriptor} :
    s ∈ m.slots ↔ s ∈ OptionsKind.message.slot m.options ∨ (∃ f ∈ m.fields, s ∈ f.slots) ∨
      (∃ f ∈ m.extensions, s ∈ f.slots) ∨ (∃ o ∈ m.oneofs, s ∈ o.slots) ∨
      (∃ r ∈ m.extensionRanges, s ∈ r.slots) ∨ (∃ e ∈ m.enumTypes, s ∈ e.slots) ∨
      ∃ x ∈ m.nestedTypes, s ∈ x.slots := by
  cases m
  simp [slots, nestedSlots_eq]

end MessageDescriptor

def FileDescriptor.slots (f : FileDescriptor) : List (OptionsKind × Options) :=
  OptionsKind.file.slot f.options ++ MessageDescriptor.nestedSlots f.messageTypes ++
    f.enumTypes.flatMap EnumDescriptor.slots ++ f.extensions.flatMap FieldDescriptor.slots ++
    f.services.flatMap ServiceDescriptor.slots

theorem FileDescriptor.mem_slots {f : FileDescriptor} :
    s ∈ f.slots ↔ s ∈ OptionsKind.file.slot f.options ∨ (∃ m ∈ f.messageTypes, s ∈ m.slots) ∨
      (∃ e ∈ f.enumTypes, s ∈ e.slots) ∨ (∃ x ∈ f.extensions, s ∈ x.slots) ∨
      ∃ x ∈ f.services, s ∈ x.slots := by
  simp [slots, MessageDescriptor.nestedSlots_eq]

def WireField.isWaiting (w : WireField) : Bool :=
  w.number == Tag.uninterpreted.number && w.payload.wireType == .lengthDelimited

namespace Options

/-- Options that fit a slot: a message of its type and assignments that wait, each on its own. -/
structure FitsSlot (ctx : DecodeContext) (kind : OptionsKind) (o : Options) : Prop where
  kind_eq : o.kind = kind
  typeName_eq : o.message.typeName = kind.typeName
  message_wellTyped : o.message.WellTyped ctx
  unknown_ne : Wire.AreFields (fun w => w.isWaiting = false) o.message.unknown
  span_eq : ∀ raw ∈ o.uninterpreted, raw.span = none

/-- Options that store nothing under the number of the waiting assignments. -/
def StoresNoAssignment (o : Options) : Prop :=
  ∀ e ∈ o.message.entries, e.number ≠ Tag.uninterpreted.number

structure WellTyped (ctx : DecodeContext) (kind : OptionsKind) (o : Options) : Prop
    extends FitsSlot ctx kind o where
  entries_ne : o.StoresNoAssignment

end Options

/-- A file whose options all fit their slots and can be read back from them. -/
def FileDescriptor.OptionsWellTyped (ctx : DecodeContext) (f : FileDescriptor) : Prop :=
  ∀ s ∈ f.slots, s.2.WellTyped ctx s.1

/-- A file none of whose options store anything under the number of the waiting assignments. -/
def FileDescriptor.StoresNoAssignment (f : FileDescriptor) : Prop :=
  ∀ s ∈ f.slots, s.2.StoresNoAssignment

/-! ### Files that differ in their options only -/

open OptionsKind

variable (g : Option Options → Option Options)

def FieldDescriptor.mapOptions (f : FieldDescriptor) : FieldDescriptor :=
  { f with options := g f.options }

def OneofDescriptor.mapOptions (o : OneofDescriptor) : OneofDescriptor :=
  { o with options := g o.options }

def ExtensionRange.mapOptions (r : ExtensionRange) : ExtensionRange :=
  { r with options := g r.options }

def EnumValueDescriptor.mapOptions (v : EnumValueDescriptor) : EnumValueDescriptor :=
  { v with options := g v.options }

def EnumDescriptor.mapOptions (e : EnumDescriptor) : EnumDescriptor :=
  { e with options := g e.options, values := e.values.map (·.mapOptions g) }

def MethodDescriptor.mapOptions (m : MethodDescriptor) : MethodDescriptor :=
  { m with options := g m.options }

def ServiceDescriptor.mapOptions (s : ServiceDescriptor) : ServiceDescriptor :=
  { s with options := g s.options, methods := s.methods.map (·.mapOptions g) }

namespace MessageDescriptor

mutual

def mapOptions : MessageDescriptor → MessageDescriptor
  | ⟨name?, fields, extensions, nested, enums, ranges, oneofs, options, reserved, names⟩ =>
    ⟨name?, fields.map (·.mapOptions g), extensions.map (·.mapOptions g), mapNestedOptions nested,
      enums.map (·.mapOptions g), ranges.map (·.mapOptions g), oneofs.map (·.mapOptions g),
      g options, reserved, names⟩

def mapNestedOptions : List MessageDescriptor → List MessageDescriptor
  | [] => []
  | m :: ms => mapOptions m :: mapNestedOptions ms

end

theorem mapNestedOptions_eq (ms : List MessageDescriptor) :
    mapNestedOptions g ms = ms.map (mapOptions g) := by
  induction ms with
  | nil => rfl
  | cons m ms ih => rw [mapNestedOptions, ih, List.map_cons]

end MessageDescriptor

def FileDescriptor.mapOptions (f : FileDescriptor) : FileDescriptor :=
  { f with
    options := g f.options
    messageTypes := f.messageTypes.map (·.mapOptions g)
    enumTypes := f.enumTypes.map (·.mapOptions g)
    extensions := f.extensions.map (·.mapOptions g)
    services := f.services.map (·.mapOptions g) }

section Slots

variable (h : Options → Options)

theorem OptionsKind.slot_map (kind : OptionsKind) (o? : Option Options) :
    kind.slot (o?.map h) = (kind.slot o?).map (.map id h) := by
  cases o? <;> rfl

theorem flatMap_slots_map {α : Type} {slots : α → List (OptionsKind × Options)} {change : α → α}
    {xs : List α} (hx : ∀ x ∈ xs, slots (change x) = (slots x).map (.map id h)) :
    (xs.map change).flatMap slots = (xs.flatMap slots).map (.map id h) := by
  rw [List.flatMap_map, List.map_flatMap]
  exact List.flatMap_congr hx

theorem EnumDescriptor.slots_mapOptions (e : EnumDescriptor) :
    (e.mapOptions (.map h)).slots = e.slots.map (.map id h) := by
  simp only [slots, mapOptions, List.map_append, slot_map]
  rw [flatMap_slots_map h fun v _ => slot_map h _ v.options]

theorem ServiceDescriptor.slots_mapOptions (s : ServiceDescriptor) :
    (s.mapOptions (.map h)).slots = s.slots.map (.map id h) := by
  simp only [slots, mapOptions, List.map_append, slot_map]
  rw [flatMap_slots_map h fun m _ => slot_map h _ m.options]

theorem MessageDescriptor.slots_mapOptions (m : MessageDescriptor) :
    (m.mapOptions (.map h)).slots = m.slots.map (.map id h) := by
  induction m using nesting with
  | _ _ _ ih =>
    simp only [mapOptions, slots, mapNestedOptions_eq, nestedSlots_eq, List.map_append,
      List.flatMap_append, slot_map]
    rw [flatMap_slots_map h ih, flatMap_slots_map h fun f _ => slot_map h _ f.options,
      flatMap_slots_map h fun f _ => slot_map h _ f.options,
      flatMap_slots_map h fun o _ => slot_map h _ o.options,
      flatMap_slots_map h fun r _ => slot_map h _ r.options,
      flatMap_slots_map h fun e _ => e.slots_mapOptions h]

theorem FileDescriptor.slots_mapOptions (f : FileDescriptor) :
    (f.mapOptions (.map h)).slots = f.slots.map (.map id h) := by
  simp only [slots, mapOptions, MessageDescriptor.nestedSlots_eq, List.map_append, slot_map]
  rw [flatMap_slots_map h fun m _ => m.slots_mapOptions h,
    flatMap_slots_map h fun e _ => e.slots_mapOptions h,
    flatMap_slots_map h fun x _ => slot_map h _ x.options,
    flatMap_slots_map h fun s _ => s.slots_mapOptions h]

end Slots

end ProtobufSchema

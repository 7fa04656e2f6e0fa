import ProtobufSchema.Canonical
import ProtobufSchema.Proofs.BareLookups

/-! Files that differ in their fields and methods only, as traversals and the search for relative
names leave them. -/

namespace ProtobufSchema

open List MessageDescriptor
open Noting (note)

variable {w : Type} {m : Type → Type} [Monad m] [LawfulMonad m] [Noting w m]
variable {visit : String → FieldDescriptor → m FieldDescriptor}
  {r : String → FieldDescriptor → List w}

namespace MessageDescriptor

variable {g : String → FieldDescriptor → FieldDescriptor}
variable (scope : String) (ms : List MessageDescriptor)

mutual

/-- Puts in the place of every field and extension what becomes of it in its scope. -/
def mapFields (g : String → FieldDescriptor → FieldDescriptor) (scope : String) :
    MessageDescriptor → MessageDescriptor
  | ⟨name?, fields, extensions, nested, enums, ranges, oneofs, options, reserved, names⟩ =>
    let inner := Name.join scope (name?.getD "")
    ⟨name?, fields.map (g inner), extensions.map (g inner), mapNestedFields g inner nested, enums,
      ranges, oneofs, options, reserved, names⟩

def mapNestedFields (g : String → FieldDescriptor → FieldDescriptor) (scope : String) :
    List MessageDescriptor → List MessageDescriptor
  | [] => []
  | d :: ds => mapFields g scope d :: mapNestedFields g scope ds

end

theorem mapNestedFields_eq (g : String → FieldDescriptor → FieldDescriptor) (scope : String)
    (ms : List MessageDescriptor) : mapNestedFields g scope ms = ms.map (mapFields g scope) := by
  induction ms with
  | nil => rfl
  | cons d ds ih => rw [mapNestedFields, ih, map_cons]

theorem nestedFieldsWithin_eq : nestedFieldsWithin scope ms = ms.flatMap (fieldsWithin scope) := by
  induction ms with
  | nil => rfl
  | cons d ds ih => rw [nestedFieldsWithin, ih, flatMap_cons]

omit [Noting w m] in
theorem traverseNestedFields_eq :
    traverseNestedFields visit scope ms = ms.mapM (traverseFields visit scope) := by
  induction ms with
  | nil => rfl
  | cons d ds ih => rw [traverseNestedFields, mapM_cons, ih]

theorem traverseFields_note (h : ∀ scope x, visit scope x = note (r scope x) (g scope x))
    (scope : String) (d : MessageDescriptor) : d.traverseFields visit scope =
      note ((d.fieldsWithin scope).flatMap fun x => r x.1 x.2) (d.mapFields g scope) := by
  induction d using nesting generalizing scope with
  | _ _ _ ih =>
    simp only [traverseFields, traverseNestedFields_eq]
    rw [mapM_note fun x _ => h _ x, mapM_note fun x _ => h _ x, mapM_note fun x hx => ih x hx _]
    simp [Noting.pure_eq, Noting.bind_eq, mapFields, mapNestedFields_eq, fieldsWithin,
      nestedFieldsWithin_eq, flatMap_map, flatMap_assoc]

theorem slots_mapFields (hg : ∀ scope x, (g scope x).options = x.options) (scope : String)
    (d : MessageDescriptor) : (d.mapFields g scope).slots = d.slots := by
  induction d using nesting generalizing scope with
  | _ _ _ ih =>
    simp only [mapFields, mapNestedFields_eq, slots, nestedSlots_eq, flatMap_append, flatMap_map,
      FieldDescriptor.slots, hg]
    rw [flatMap_congr fun x hx => ih x hx _]
    rfl

theorem fieldsWithin_snd (scope' : String) (d : MessageDescriptor) :
    (d.fieldsWithin scope).map Prod.snd = (d.fieldsWithin scope').map Prod.snd := by
  induction d using nesting generalizing scope scope' with
  | _ _ _ ih =>
    simp only [fieldsWithin, nestedFieldsWithin_eq, map_append, map_map, map_flatMap]
    congr 1
    exact flatMap_congr fun x hx => ih x hx _ _

theorem mem_stackedFields {stack : List MessageDescriptor} {x : FieldDescriptor} :
    x ∈ stackedFields stack ↔ ∃ d ∈ stack, x ∈ (d.fieldsWithin scope).map Prod.snd := by
  fun_induction stackedFields stack with
  | case1 => simp
  | case2 d stack ih =>
    -- Taking a message off its stack leaves its own fields and those of the messages inside it.
    have hsplit : x ∈ (d.fieldsWithin scope).map Prod.snd ↔ x ∈ d.fields ++ d.extensions ∨
        ∃ y ∈ d.nestedTypes, x ∈ (y.fieldsWithin scope).map Prod.snd := by
      obtain ⟨name?, fields, extensions, nested, enums, ranges, oneofs, options, reserved, names⟩ :=
        d
      simp only [fieldsWithin, nestedFieldsWithin_eq, map_append, map_map, map_flatMap,
        mem_append, mem_flatMap, Function.comp_def, map_id']
      simp only [fieldsWithin_snd (Name.join scope (name?.getD "")) scope]
    rw [unattach_reverse, unattach_attach] at ih
    have hcons : (∃ y ∈ d :: stack, x ∈ (y.fieldsWithin scope).map Prod.snd) ↔
        x ∈ (d.fieldsWithin scope).map Prod.snd ∨
            ∃ y ∈ stack, x ∈ (y.fieldsWithin scope).map Prod.snd := by
      simp only [mem_cons, or_and_right, exists_or, exists_eq_left]
    rw [mem_append, ih, hcons, hsplit]
    simp only [mem_append, mem_reverse, or_and_right, exists_or, or_assoc]

end MessageDescriptor

namespace FileDescriptor

variable {g : String → FieldDescriptor → FieldDescriptor} {f : FileDescriptor}

def mapFields (g : String → FieldDescriptor → FieldDescriptor) (f : FileDescriptor) :
    FileDescriptor :=
  { f with
    extensions := f.extensions.map (g f.package)
    messageTypes := f.messageTypes.map (·.mapFields g f.package) }

def mapMethods (g : String → MethodDescriptor → MethodDescriptor) (f : FileDescriptor) :
    FileDescriptor :=
  { f with
    services := f.services.map fun s =>
      { s with methods := s.methods.map (g (Name.join f.package s.name)) } }

theorem allMethods_mapMethods (g : String → MethodDescriptor → MethodDescriptor)
    (f : FileDescriptor) :
    (f.mapMethods g).allMethods = f.allMethods.map fun x => (x.1, g x.1 x.2) := by
  simp [allMethods, mapMethods, package, ServiceDescriptor.name, flatMap_map, map_flatMap,
    Function.comp_def]

theorem traverseFields_note (h : ∀ scope x, visit scope x = note (r scope x) (g scope x))
    (f : FileDescriptor) : f.traverseFields visit =
      note (f.allFields.flatMap fun x => r x.1 x.2) (f.mapFields g) := by
  simp only [traverseFields, traverseNestedFields_eq]
  rw [mapM_note fun x _ => h _ x, mapM_note fun d _ => d.traverseFields_note h _]
  simp [Noting.pure_eq, Noting.bind_eq, mapFields, allFields, nestedFieldsWithin_eq, flatMap_map,
    flatMap_assoc]

theorem traverseMethods_note {visit : String → MethodDescriptor → m MethodDescriptor}
    {r : String → MethodDescriptor → List w} {g : String → MethodDescriptor → MethodDescriptor}
    (h : ∀ scope x, visit scope x = note (r scope x) (g scope x)) (f : FileDescriptor) :
    f.traverseMethods visit = note (f.allMethods.flatMap fun x => r x.1 x.2) (f.mapMethods g) := by
  have hservice (s : ServiceDescriptor) :
      (do return { s with methods := ← s.methods.mapM (visit (Name.join f.package s.name)) }) =
        note (s.methods.flatMap (r (Name.join f.package s.name)))
          { s with methods := s.methods.map (g (Name.join f.package s.name)) } := by
    rw [mapM_note fun x _ => h _ x]
    simp [Noting.pure_eq, Noting.bind_eq]
  unfold traverseMethods
  rw [mapM_note fun s _ => hservice s]
  simp [Noting.pure_eq, Noting.bind_eq, mapMethods, allMethods, flatMap_map, flatMap_assoc]

theorem slots_mapFields (hg : ∀ scope x, (g scope x).options = x.options) (f : FileDescriptor) :
    (f.mapFields g).slots = f.slots := by
  simp only [mapFields, slots, nestedSlots_eq, flatMap_map,
    MessageDescriptor.slots_mapFields hg, FieldDescriptor.slots, hg]
  rfl

theorem slots_mapMethods {g : String → MethodDescriptor → MethodDescriptor}
    (hg : ∀ scope x, (g scope x).options = x.options) (f : FileDescriptor) :
    (f.mapMethods g).slots = f.slots := by
  simp only [mapMethods, slots, ServiceDescriptor.slots, MethodDescriptor.slots, flatMap_map, hg]
  rfl

theorem isQualified_iff : f.isQualified = true ↔
      (∀ x ∈ f.allFields, x.2.isQualified = true) ∧ ∀ x ∈ f.allMethods, x.2.isQualified = true := by
  have hfields : (∀ x ∈ stackedFields f.messageTypes.reverse,
      x.isQualified = true) ↔ ∀ x ∈ nestedFieldsWithin f.package f.messageTypes,
          x.2.isQualified = true := by
    simp only [mem_stackedFields f.package, mem_reverse, nestedFieldsWithin_eq, mem_flatMap,
      mem_map]
    constructor
    · rintro h x ⟨d, hd, hx⟩
      exact h x.2 ⟨d, hd, x, hx, rfl⟩
    · rintro h _ ⟨d, hd, x, hx, rfl⟩
      exact h x ⟨d, hd, hx⟩
  simp only [isQualified, Bool.and_eq_true, all_eq_true, hfields, allFields,
    allMethods, forall_mem_append, forall_mem_map, forall_mem_flatMap]

end FileDescriptor

/-- What becomes of a field whose default value is written in its usual form. -/
def FieldDescriptor.normalized (x : FieldDescriptor) : FieldDescriptor :=
  x.normalizeDefault.toOption.getD x

def FieldDescriptor.overflows (x : FieldDescriptor) : List Overflow :=
  match x.normalizeDefault with
  | .ok _ => []
  | .error e => [e]

theorem FieldDescriptor.exists_normalized (x : FieldDescriptor) :
    ∃ text?, x.normalized = { x with defaultValue? := text? } := by
  unfold normalized
  cases hx : x.normalizeDefault with
  | error e => exact ⟨_, rfl⟩
  | ok y =>
    obtain ⟨text?, -, rfl⟩ := map_eq_ok hx
    exact ⟨text?, rfl⟩

theorem Canonicalizer.normalizeDefaults_eq (f : FileDescriptor) : normalizeDefaults f =
      (raising (f.allFields.flatMap fun x => x.2.overflows)
        (f.mapFields fun _ x => x.normalized)).mapError .overflow := by
  have hfield (scope : String) (x : FieldDescriptor) :
      x.normalizeDefault = raising x.overflows x.normalized := by
    unfold FieldDescriptor.overflows FieldDescriptor.normalized
    cases x.normalizeDefault <;> rfl
  exact congrArg _ (f.traverseFields_note hfield)

end ProtobufSchema

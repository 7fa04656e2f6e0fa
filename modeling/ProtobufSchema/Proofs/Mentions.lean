import Mathlib.Logic.Function.Basic
import ProtobufSchema.Proofs.PlacedMembers

/-! The names of types that a file mentions, each with its scope and the place that its full name is
for, and the file with some of them answered. -/

namespace ProtobufSchema

open Placed

variable {w : Placed MethodDescriptor}
variable {name? : Option String} {kind : ReferenceKind} {f : FieldDescriptor} {α : Type}

structure Mention where
  path : Path
  kind : ReferenceKind
  scope : String
  name : String
  deriving DecidableEq, Repr

/-- What is known about the names that are mentioned: full names and their kinds. -/
abbrev Answering := Mention → Option (String × SymbolKind)

def Reference.mention (r : Reference) : Mention := ⟨r.path, r.kind, r.scope, r.name⟩

/-- The name of the type, as long as the type is not known. -/
def FieldDescriptor.waiting? (f : FieldDescriptor) : Option String :=
  if f.type?.isNone then f.typeName? else none

/-- A field with full names for its type and for the message that it extends. -/
def FieldDescriptor.answered (type? extendee? : Option (String × SymbolKind))
    (f : FieldDescriptor) : FieldDescriptor :=
  let typed := type?.elim f fun x => f.withType x.1 x.2
  { typed with extendee? := (extendee?.map fun x => Name.qualify x.1).or f.extendee? }

def MethodDescriptor.answered (input? output? : Option (String × SymbolKind))
    (m : MethodDescriptor) : MethodDescriptor :=
  { m with
    inputType? := (input?.map fun x => Name.qualify x.1).or m.inputType?
    outputType? := (output?.map fun x => Name.qualify x.1).or m.outputType? }

namespace Placed

def mention? {α : Type} (w : Placed α) (kind : ReferenceKind) (name? : Option String) :
    Option Mention :=
  name?.map fun name => ⟨w.path, kind, w.written, name⟩

def fieldMentions (w : Placed FieldDescriptor) : List Mention :=
  (w.mention? .fieldType w.value.waiting?).toList ++ (w.mention? .extendee w.value.extendee?).toList

def methodMentions (w : Placed MethodDescriptor) : List Mention :=
  (w.mention? .methodInput w.value.inputType?).toList ++
    (w.mention? .methodOutput w.value.outputType?).toList

def answeredField (A : Answering) (w : Placed FieldDescriptor) : FieldDescriptor :=
  w.value.answered ((w.mention? .fieldType w.value.waiting?).bind A)
    ((w.mention? .extendee w.value.extendee?).bind A)

def answeredMethod (A : Answering) (w : Placed MethodDescriptor) : MethodDescriptor :=
  w.value.answered ((w.mention? .methodInput w.value.inputType?).bind A)
    ((w.mention? .methodOutput w.value.outputType?).bind A)

end Placed

def FileDescriptor.mentions (f : FileDescriptor) : List Mention :=
  f.placedFields.flatMap Placed.fieldMentions ++ f.placedMethods.flatMap Placed.methodMentions

def FileDescriptor.answered (A : Answering) (f : FileDescriptor) : FileDescriptor :=
  (f.mapPlacedFields (Placed.answeredField A)).mapPlacedMethods (Placed.answeredMethod A)

section Element

variable {A B : Answering}

namespace Placed

theorem answeredField_congr {w : Placed FieldDescriptor} (h : ∀ m ∈ w.fieldMentions, A m = B m) :
    w.answeredField A = w.answeredField B := by
  simp only [fieldMentions, List.forall_mem_append, Option.mem_toList] at h
  rw [answeredField, answeredField, Option.bind_congr h.1, Option.bind_congr h.2]

theorem answeredMethod_congr (h : ∀ m ∈ w.methodMentions, A m = B m) :
    w.answeredMethod A = w.answeredMethod B := by
  simp only [methodMentions, List.forall_mem_append, Option.mem_toList] at h
  rw [answeredMethod, answeredMethod, Option.bind_congr h.1, Option.bind_congr h.2]

theorem answeredField_name (w : Placed FieldDescriptor) :
    (w.answeredField A).name = w.value.name := by
  unfold answeredField FieldDescriptor.answered
  cases (w.mention? .fieldType w.value.waiting?).bind A <;> rfl

end Placed

end Element

namespace FileDescriptor

variable {f : FileDescriptor} {A B : Answering}

theorem answered_congr (h : ∀ m ∈ f.mentions, A m = B m) : f.answered A = f.answered B := by
  simp only [mentions, List.forall_mem_append, List.forall_mem_flatMap] at h
  obtain ⟨hfields, hmethods⟩ := h
  rw [answered, mapPlacedFields_congr fun w hw => answeredField_congr (hfields w hw)]
  exact mapPlacedMethods_congr fun w hw => answeredMethod_congr (hmethods w hw)

theorem answered_none : f.answered (fun _ => none) = f := by
  have hfield : answeredField (fun _ => none) = value := by
    funext w
    simp [answeredField, FieldDescriptor.answered]
  have hmethod : answeredMethod (fun _ => none) = value := by
    funext w
    simp [answeredMethod, MethodDescriptor.answered]
  rw [answered, hfield, hmethod, mapPlacedFields_value, mapPlacedMethods_value]

theorem definitions_answered : (f.answered A).definitions = f.definitions := by
  rw [answered, definitions_mapPlacedMethods, definitions_mapPlacedFields answeredField_name]

theorem isAddressable_answered : (f.answered A).isAddressable = f.isAddressable := by
  rw [answered, isAddressable_mapPlacedMethods, isAddressable_mapPlacedFields]

theorem placedFields_answered :
    (f.answered A).placedFields = f.placedFields.map fun w => w.put (w.answeredField A) := by
  rw [answered, placedFields_mapPlacedMethods, placedFields_mapPlacedFields]

theorem placedMethods_answered :
    (f.answered A).placedMethods = f.placedMethods.map fun w => w.put (w.answeredMethod A) :=
  placedMethods_mapPlacedMethods

section Write

variable (hf : f.isAddressable = true)
include hf

theorem modifyFieldAt?_answered {w : Placed FieldDescriptor} (hw : w ∈ f.placedFields)
    {g : FieldDescriptor → FieldDescriptor} (hg : g (w.answeredField A) = w.answeredField B)
    (hfields : ∀ v ∈ f.placedFields, v.path ≠ w.path → v.answeredField A = v.answeredField B)
    (hmethods : ∀ v ∈ f.placedMethods, v.answeredMethod A = v.answeredMethod B) :
    (f.answered A).modifyFieldAt? w.path g = some (f.answered B) := by
  have hmem : w.put (w.answeredField A) ∈ (f.answered A).placedFields := by
    rw [placedFields_answered]
    exact List.mem_map_of_mem hw
  have hchange := (fieldAt?_of_mem (isAddressable_answered.trans hf) hmem).2 g
  refine hchange.trans (congrArg some ?_)
  have hcommute (visit : Placed FieldDescriptor → FieldDescriptor) :
        (f.answered A).mapPlacedFields visit =
        ((f.mapPlacedFields (answeredField A)).mapPlacedFields visit).mapPlacedMethods
          (answeredMethod A) := rfl
  rw [hcommute, mapPlacedFields_mapPlacedFields]
  have hchanged : ∀ v ∈ f.placedFields,
      changeAt (w.put (w.answeredField A)).path g (v.put (v.answeredField A)) =
          v.answeredField B := by
    intro v hv
    by_cases hpath : v.path = w.path
    · cases List.inj_on_of_nodup_map (nodup_placedFields hf) hv hw hpath
      simp [changeAt, put, hg]
    · simp [changeAt, put, hpath, hfields v hv hpath]
  rw [mapPlacedFields_congr hchanged]
  exact mapPlacedMethods_congr hmethods

theorem modifyMethodAt?_answered (hw : w ∈ f.placedMethods)
    {g : MethodDescriptor → MethodDescriptor} (hg : g (w.answeredMethod A) = w.answeredMethod B)
    (hmethods : ∀ v ∈ f.placedMethods, v.path ≠ w.path → v.answeredMethod A = v.answeredMethod B)
    (hfields : ∀ v ∈ f.placedFields, v.answeredField A = v.answeredField B) :
    (f.answered A).modifyMethodAt? w.path g = some (f.answered B) := by
  have hmem : w.put (w.answeredMethod A) ∈ (f.answered A).placedMethods := by
    rw [placedMethods_answered]
    exact List.mem_map_of_mem hw
  have hchange := (methodAt?_of_mem (isAddressable_answered.trans hf) hmem).2 g
  refine hchange.trans (congrArg some ?_)
  rw [answered, mapPlacedMethods_mapPlacedMethods, mapPlacedFields_congr hfields]
  refine mapPlacedMethods_congr fun v hv => ?_
  by_cases hpath : v.path = w.path
  · cases List.inj_on_of_nodup_map (nodup_placedMethods hf) hv hw hpath
    simp [changeAt, put, hg]
  · simp [changeAt, put, hpath, hmethods v hv hpath]

end Write

end FileDescriptor

namespace Placed

variable {A : Answering} {m : Mention} {x : String × SymbolKind}

theorem bind_update_of_ne {w : Placed α} (h : w.path ≠ m.path ∨ kind ≠ m.kind) :
    (w.mention? kind name?).bind (Function.update A m (some x)) =
      (w.mention? kind name?).bind A := by
  refine Option.bind_congr fun m' hm' => Function.update_of_ne ?_ _ _
  obtain ⟨name, _, rfl⟩ := Option.map_eq_some_iff.mp hm'
  rintro rfl
  rcases h with h | h
  · exact h rfl
  · exact h rfl

theorem answeredField_update_of_ne {w : Placed FieldDescriptor}
    (h : w.path ≠ m.path ∨ m.kind ≠ .fieldType ∧ m.kind ≠ .extendee) :
    w.answeredField (Function.update A m (some x)) = w.answeredField A := by
  rw [answeredField, answeredField, bind_update_of_ne (h.imp id fun h => h.1.symm),
    bind_update_of_ne (h.imp id fun h => h.2.symm)]

theorem answeredMethod_update_of_ne
    (h : w.path ≠ m.path ∨ m.kind ≠ .methodInput ∧ m.kind ≠ .methodOutput) :
    w.answeredMethod (Function.update A m (some x)) = w.answeredMethod A := by
  rw [answeredMethod, answeredMethod, bind_update_of_ne (h.imp id fun h => h.1.symm),
    bind_update_of_ne (h.imp id fun h => h.2.symm)]

end Placed

theorem FieldDescriptor.withType_answered (hf : f.type? = none)
    (type? extendee? : Option (String × SymbolKind)) (fullName : String) (kind : SymbolKind) :
    (f.answered type? extendee?).withType fullName kind =
      f.answered (some (fullName, kind)) extendee? := by
  cases type? with
  | none => rfl
  | some x =>
    have hgroup : (if x.2 = .enum then FieldType.enum else .message) ≠ .group := by
      split <;> nofun
    simp [answered, withType, hf, hgroup]

theorem FieldDescriptor.waiting?_eq_some {name : String} (h : f.waiting? = some name) :
    f.type? = none ∧ f.typeName? = some name := by
  unfold waiting? at h
  split at h
  · rename_i htype
    exact ⟨Option.isNone_iff_eq_none.mp htype, h⟩
  · cases h

namespace Reference

variable {r : Reference} {f : FileDescriptor} {A : Answering}

theorem mention_eq {w : Placed α}
    (h : w.mention? kind name? = some r.mention) : r.path = w.path ∧ r.kind = kind := by
  obtain ⟨name, _, hmention⟩ := Option.map_eq_some_iff.mp h
  exact ⟨(congrArg Mention.path hmention).symm, (congrArg Mention.kind hmention).symm⟩

theorem write?_answered (hf : f.isAddressable = true) (hr : r.mention ∈ f.mentions)
    (fullName : String) (kind : SymbolKind) : r.write? (f.answered A) fullName kind =
      some (f.answered (Function.update A r.mention (some (fullName, kind)))) := by
  have hother {v : Placed FieldDescriptor} (hkind : r.kind ≠ .fieldType ∧ r.kind ≠ .extendee) :
      v.answeredField A = v.answeredField (Function.update A r.mention (some (fullName, kind))) :=
    (answeredField_update_of_ne (.inr hkind)).symm
  have hother' {v : Placed MethodDescriptor} (hkind : r.kind ≠ .methodInput ∧
      r.kind ≠ .methodOutput) :
      v.answeredMethod A = v.answeredMethod (Function.update A r.mention (some (fullName, kind))) :=
    (answeredMethod_update_of_ne (.inr hkind)).symm
  simp only [FileDescriptor.mentions, List.mem_append, List.mem_flatMap, fieldMentions,
    methodMentions, Option.mem_toList] at hr
  rcases hr with ⟨w, hw, hm | hm⟩ | ⟨w, hw, hm | hm⟩
  · obtain ⟨hpath, hkind⟩ := mention_eq hm
    have htype : w.value.type? = none := by
      obtain ⟨name, hname, _⟩ := Option.map_eq_some_iff.mp hm
      exact (FieldDescriptor.waiting?_eq_some hname).1
    simp only [write?, hkind, hpath]
    refine FileDescriptor.modifyFieldAt?_answered hf hw ?_ ?_ fun v _ => hother' (by simp [hkind])
    · rw [answeredField, FieldDescriptor.withType_answered htype, answeredField, hm,
        bind_update_of_ne (.inr (by simp [mention, hkind]))]
      simp
    · intro v _ hv
      exact (answeredField_update_of_ne (.inl (by simpa [mention, hpath] using hv))).symm
  · obtain ⟨hpath, hkind⟩ := mention_eq hm
    simp only [write?, hkind, hpath]
    refine FileDescriptor.modifyFieldAt?_answered hf hw ?_ ?_ fun v _ => hother' (by simp [hkind])
    · rw [answeredField, answeredField, hm, bind_update_of_ne (.inr (by simp [mention, hkind]))]
      simp [FieldDescriptor.answered]
    · intro v _ hv
      exact (answeredField_update_of_ne (.inl (by simpa [mention, hpath] using hv))).symm
  all_goals
    obtain ⟨hpath, hkind⟩ := mention_eq hm
    simp only [write?, hkind, hpath]
    refine FileDescriptor.modifyMethodAt?_answered hf hw ?_ ?_ fun v _ => hother (by simp [hkind])
    · rw [answeredMethod, answeredMethod, hm, bind_update_of_ne (.inr (by simp [mention, hkind]))]
      simp [MethodDescriptor.answered]
    · intro v _ hv
      exact (answeredMethod_update_of_ne (.inl (by simpa [mention, hpath] using hv))).symm

end Reference

end ProtobufSchema

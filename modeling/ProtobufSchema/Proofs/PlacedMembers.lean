import Mathlib.Data.List.Nodup
import ProtobufSchema.Proofs.PlacedFields

/-! Where the fields and methods of a file stand: each has a path of its own that leads to it. -/

namespace ProtobufSchema

open List MessageDescriptor Placed Path

namespace FileDescriptor

def isAddressable (f : FileDescriptor) : Bool :=
  f.extensions.length ≤ Path.reach && f.messageTypes.length ≤ Path.reach &&
    MessageDescriptor.areAddressable f.messageTypes && f.services.length ≤ Path.reach &&
    f.services.all fun s => s.methods.length ≤ Path.reach

theorem isAddressable_iff {f : FileDescriptor} : f.isAddressable = true ↔
    f.extensions.length ≤ reach ∧ f.messageTypes.length ≤ reach ∧
      (∀ m ∈ f.messageTypes, m.isAddressable = true) ∧ f.services.length ≤ reach ∧
      ∀ s ∈ f.services, s.methods.length ≤ reach := by
  simp [isAddressable, areAddressable_iff, and_assoc]

def placedFields (f : FileDescriptor) : List (Placed FieldDescriptor) :=
  Placed.listed f.package f.package [] .fileExtension f.extensions ++
    MessageDescriptor.placedFieldsFrom f.package [] .fileMessage 0 f.messageTypes

def mapPlacedFields (visit : Placed FieldDescriptor → FieldDescriptor) (f : FileDescriptor) :
    FileDescriptor :=
  { f with
    extensions := (Placed.listed f.package f.package [] .fileExtension f.extensions).map visit
    messageTypes :=
      MessageDescriptor.mapPlacedFrom visit f.package [] .fileMessage 0 f.messageTypes }

def servicePlaces (package : String) (i : Nat) (s : ServiceDescriptor) :
    List (Placed MethodDescriptor) :=
  Placed.listed (Name.join package s.name) (Name.join package s.name)
    [Tag.fileService.step, .ofNat i] .serviceMethod s.methods

def placedMethods (f : FileDescriptor) : List (Placed MethodDescriptor) :=
  (f.services.mapIdx (servicePlaces f.package)).flatten

def mapPlacedMethods (visit : Placed MethodDescriptor → MethodDescriptor) (f : FileDescriptor) :
    FileDescriptor :=
  { f with
    services := f.services.mapIdx fun i s =>
      { s with methods := (servicePlaces f.package i s).map visit } }

section Fields

variable {f : FileDescriptor} {visit : Placed FieldDescriptor → FieldDescriptor}
variable (g : String → FieldDescriptor → FieldDescriptor)

theorem mem_placedFields {w : Placed FieldDescriptor} : w ∈ f.placedFields ↔
    w ∈ listed f.package f.package [] .fileExtension f.extensions ∨
    ∃ (j : Nat) (m : MessageDescriptor), f.messageTypes[j]? = some m ∧
      w ∈ m.placedFields f.package [Tag.fileMessage.step, .ofNat j] := by
  simp only [placedFields, mem_append, mem_placedFieldsFrom, zero_add, nil_append]

theorem placedFields_mapPlacedFields :
    (f.mapPlacedFields visit).placedFields = f.placedFields.map fun w => w.put (visit w) := by
  simp only [mapPlacedFields, placedFields, package, listed_map_listed, map_append]
  rw [placedFieldsFrom_mapPlacedFrom fun m _ path => m.placedFields_mapPlaced]

theorem mapPlacedFields_congr {visit' : Placed FieldDescriptor → FieldDescriptor}
    (h : ∀ w ∈ f.placedFields, visit w = visit' w) :
    f.mapPlacedFields visit = f.mapPlacedFields visit' := by
  simp only [placedFields, forall_mem_append] at h
  obtain ⟨hextensions, hmessages⟩ := h
  simp only [mapPlacedFields]
  rw [map_congr_left hextensions]
  congr 1
  apply ext_getElem?
  intro j
  rw [getElem?_mapPlacedFrom, getElem?_mapPlacedFrom]
  cases hj : f.messageTypes[j]? with
  | none => rfl
  | some m =>
    refine congrArg some (mapPlaced_congr fun w hw => hmessages w ?_)
    exact mem_placedFieldsFrom.mpr ⟨j, m, hj, hw⟩

theorem mapPlacedFields_value : f.mapPlacedFields value = f := by
  simp only [mapPlacedFields, map_value_listed]
  rw [mapPlacedFrom_eq_map (g := id) fun m _ path => m.mapPlaced_value, map_id]

theorem mapPlacedFields_mapPlacedFields (visit' : Placed FieldDescriptor → FieldDescriptor) :
    (f.mapPlacedFields visit).mapPlacedFields visit' =
      f.mapPlacedFields fun w => visit' (w.put (visit w)) := by
  simp only [mapPlacedFields, package, listed_map_listed, map_map]
  congr 1
  apply ext_getElem?
  intro j
  simp only [getElem?_mapPlacedFrom]
  cases f.messageTypes[j]? with
  | none => rfl
  | some m => exact congrArg some (m.mapPlaced_mapPlaced visit')

theorem map_placedFields : f.placedFields.map (fun w => (w.scope, w.value)) = f.allFields := by
  simp only [placedFields, allFields, map_append, map_listed Prod.mk]
  rw [map_placedFieldsFrom fun m _ path => m.map_placedFields]

theorem mapFields_eq_mapPlacedFields :
    f.mapFields g = f.mapPlacedFields fun w => g w.scope w.value := by
  simp only [mapFields, mapPlacedFields, map_listed]
  rw [mapPlacedFrom_eq_map fun m _ path => (m.mapFields_eq_mapPlaced g).symm]

theorem allFields_mapFields (f : FileDescriptor) :
    (f.mapFields g).allFields = f.allFields.map fun x => (x.1, g x.1 x.2) := by
  rw [mapFields_eq_mapPlacedFields, ← map_placedFields, placedFields_mapPlacedFields,
    ← map_placedFields, map_map, map_map]
  rfl

variable {g} in
theorem mapFields_eq_self (h : ∀ x ∈ f.allFields, g x.1 x.2 = x.2) : f.mapFields g = f := by
  rw [← map_placedFields, forall_mem_map] at h
  rw [mapFields_eq_mapPlacedFields, mapPlacedFields_congr h]
  exact mapPlacedFields_value

theorem definitions_mapPlacedFields (hvisit : ∀ w, (visit w).name = w.value.name) :
    (f.mapPlacedFields visit).definitions = f.definitions := by
  simp only [definitions, mapPlacedFields, package]
  rw [definitionsFrom_mapPlacedFrom fun m _ _ _ =>
    m.definitions_mapPlaced hvisit _ _, Definition.listed_mapPlaced hvisit]

variable {g} in
/-- Names are declared in the same places whatever becomes of the fields that keep theirs. -/
theorem definitions_mapFields (hg : ∀ scope x, (g scope x).name = x.name) (f : FileDescriptor) :
    (f.mapFields g).definitions = f.definitions := by
  rw [mapFields_eq_mapPlacedFields, definitions_mapPlacedFields fun w => hg w.scope w.value]

theorem isAddressable_mapPlacedFields :
    (f.mapPlacedFields visit).isAddressable = f.isAddressable := by
  simp only [isAddressable, mapPlacedFields, length_map, length_listed, length_mapPlacedFrom]
  rw [areAddressable_mapPlacedFrom fun m _ path => m.isAddressable_mapPlaced]
  rfl

theorem isAddressable_mapOptions (g : Option Options → Option Options) :
    (f.mapOptions g).isAddressable = f.isAddressable := by
  rw [Bool.eq_iff_iff]
  simp only [isAddressable_iff, mapOptions, length_map, forall_mem_map,
    MessageDescriptor.isAddressable_mapOptions, ServiceDescriptor.mapOptions]

theorem splitLast?_append (parent : Path) (tag i : Int32) :
    splitLast? (parent ++ [tag, i]) = some (parent, tag, i) := by
  simp [splitLast?]

section Addressable

variable (hf : f.isAddressable = true) {w : Placed FieldDescriptor} (hw : w ∈ f.placedFields)
include hf hw

omit hw in
theorem nodup_placedFields : (f.placedFields.map path).Nodup := by
  obtain ⟨hextensions, hmessages, hinner, _, _⟩ := isAddressable_iff.mp hf
  rw [placedFields, map_append, nodup_append]
  refine ⟨nodup_listed hextensions, nodup_placedFieldsFrom (by omega)
    fun m hm path => MessageDescriptor.nodup_placedFields (hinner m hm), ?_⟩
  simp only [forall_mem_map]
  intro w hw w' hw'
  exact apart (under_of_mem_listed hw) (under_of_mem_placedFieldsFrom hw') (by decide)

theorem fieldAt?_of_mem : f.fieldAt? w.path = some w.value ∧
    ∀ g, f.modifyFieldAt? w.path g = some (f.mapPlacedFields (changeAt w.path g)) := by
  obtain ⟨hextensions, hmessages, hinner, _, _⟩ := isAddressable_iff.mp hf
  rcases mem_placedFields.mp hw with hw | ⟨j, m, hm, hw⟩
  · obtain ⟨i, x, hx, rfl⟩ := mem_listed.mp hw
    simp only [modifyFieldAt?, splitLast?_append, Option.bind_some]
    refine ⟨at?_ofNat hextensions hx, fun g => ?_⟩
    rw [modifyAt?_ofNat hextensions hx, mapPlacedFields, map_changeAt_listed hextensions hx,
      mapPlacedFrom_changeAt_of_ne rfl (by decide)]
    rfl
  · have hmem := mem_of_getElem? hm
    obtain ⟨rest, tag, i, hpath, hown, hmodify⟩ := own?_of_mem (hinner m hmem) hw
    have hstep : w.path = [] ++ Tag.fileMessage.step :: .ofNat j :: (rest ++ [tag, i]) := hpath
    have hne : Tag.fileMessage.step :: .ofNat j :: rest ≠ [] := by simp
    have hparent : w.path = (Tag.fileMessage.step :: .ofNat j :: rest) ++ [tag, i] := hpath
    constructor
    · rw [fieldAt?, hparent, splitLast?_append, Option.bind_some]
      simp only
      rw [messageAt?, at?_ofNat hmessages hm]
      exact hown
    · intro g
      rw [modifyFieldAt?]
      nth_rewrite 1 [hparent]
      rw [splitLast?_append, Option.bind_some]
      simp only
      rw [modifyMessageAt?, modifyAt?_ofNat hmessages hm]
      rw [hmodify, mapPlacedFields, map_changeAt_of_ne (listed_ne hstep (by decide)),
        mapPlacedFrom_changeAt hmessages hm hpath]
      rfl

end Addressable

end Fields

section Methods

variable {f : FileDescriptor} {visit : Placed MethodDescriptor → MethodDescriptor}
variable {services : List ServiceDescriptor} (g : String → MethodDescriptor → MethodDescriptor)

theorem mem_placedMethods {w : Placed MethodDescriptor} : w ∈ f.placedMethods ↔
    ∃ (i : Nat) (s : ServiceDescriptor), f.services[i]? = some s ∧
      w ∈ servicePlaces f.package i s := by
  simp only [placedMethods, mem_flatten, mem_mapIdx, getElem?_eq_some_iff]
  constructor
  · rintro ⟨_, ⟨i, hi, rfl⟩, hw⟩
    exact ⟨i, _, ⟨hi, rfl⟩, hw⟩
  · rintro ⟨i, _, ⟨hi, rfl⟩, hw⟩
    exact ⟨_, ⟨i, hi, rfl⟩, hw⟩

theorem getElem?_mapPlacedMethods (i : Nat) : (f.mapPlacedMethods visit).services[i]? =
    f.services[i]?.map fun s => { s with methods := (servicePlaces f.package i s).map visit } := by
  simp [mapPlacedMethods]

theorem placedFields_mapPlacedMethods : (f.mapPlacedMethods visit).placedFields = f.placedFields :=
  rfl

theorem placedMethods_mapPlacedMethods :
    (f.mapPlacedMethods visit).placedMethods = f.placedMethods.map fun w => w.put (visit w) := by
  rw [placedMethods, placedMethods, map_flatten]
  congr 1
  apply ext_getElem?
  intro i
  rw [getElem?_mapIdx, getElem?_mapPlacedMethods, getElem?_map, getElem?_mapIdx]
  cases f.services[i]? with
  | none => rfl
  | some s => exact congrArg some (listed_map_listed visit)

theorem mapPlacedMethods_ext (h : ∀ i : Nat, services[i]? = f.services[i]?.map fun s =>
      { s with methods := (servicePlaces f.package i s).map visit }) :
    f.mapPlacedMethods visit = { f with services := services } := by
  have hservices : (f.mapPlacedMethods visit).services = services := by
    apply ext_getElem?
    intro i
    rw [getElem?_mapPlacedMethods, h]
  rw [← hservices]
  rfl

theorem mapPlacedMethods_congr {visit' : Placed MethodDescriptor → MethodDescriptor}
    (h : ∀ w ∈ f.placedMethods, visit w = visit' w) :
    f.mapPlacedMethods visit = f.mapPlacedMethods visit' := by
  refine mapPlacedMethods_ext fun i => ?_
  rw [getElem?_mapIdx]
  cases hs : f.services[i]? with
  | none => rfl
  | some s =>
    have hservice : ∀ w ∈ servicePlaces f.package i s, visit w = visit' w :=
      fun w hw => h w (mem_placedMethods.mpr ⟨i, s, hs, hw⟩)
    rw [Option.map_some, Option.map_some, map_congr_left hservice]

theorem mapPlacedMethods_value : f.mapPlacedMethods value = f := by
  refine mapPlacedMethods_ext fun i => ?_
  simp [servicePlaces, map_value_listed]

theorem mapPlacedMethods_mapPlacedMethods (visit' : Placed MethodDescriptor → MethodDescriptor) :
    (f.mapPlacedMethods visit).mapPlacedMethods visit' =
      f.mapPlacedMethods fun w => visit' (w.put (visit w)) := by
  refine mapPlacedMethods_ext fun i => ?_
  rw [getElem?_mapIdx, getElem?_mapPlacedMethods, Option.map_map]
  cases f.services[i]? with
  | none => rfl
  | some s =>
    simp [servicePlaces, mapPlacedMethods, package, ServiceDescriptor.name, listed_map_listed]

theorem map_placedMethods : f.placedMethods.map (fun w => (w.scope, w.value)) = f.allMethods := by
  have hservices :
      (f.services.mapIdx (servicePlaces f.package)).map (.map fun w => (w.scope, w.value)) =
      f.services.map fun s => s.methods.map (Name.join f.package s.name, ·) := by
    apply ext_getElem?
    intro i
    simp [Function.comp_def, servicePlaces, map_listed Prod.mk]
  rw [placedMethods, allMethods, map_flatten, hservices, flatMap_def]

theorem mapMethods_eq_mapPlacedMethods :
    f.mapMethods g = f.mapPlacedMethods fun w => g w.scope w.value := by
  symm
  refine mapPlacedMethods_ext fun i => ?_
  simp [servicePlaces, map_listed]

theorem mapMethods_eq_self {g : String → MethodDescriptor → MethodDescriptor}
    (h : ∀ x ∈ f.allMethods, g x.1 x.2 = x.2) : f.mapMethods g = f := by
  rw [← map_placedMethods, forall_mem_map] at h
  rw [mapMethods_eq_mapPlacedMethods, mapPlacedMethods_congr h]
  exact mapPlacedMethods_value

theorem definitions_mapPlacedMethods : (f.mapPlacedMethods visit).definitions = f.definitions := by
  have hservices : Definition.listed f.package [] .fileService .service ServiceDescriptor.name
      (f.mapPlacedMethods visit).services =
      Definition.listed f.package [] .fileService .service ServiceDescriptor.name f.services := by
    apply ext_getElem?
    simp [Definition.listed, getElem?_mapPlacedMethods, ServiceDescriptor.name, Function.comp_def]
  exact congrArg (fun x => _ ++ _ ++ _ ++ x ++ _) hservices

theorem definitions_mapMethods (f : FileDescriptor) :
    (f.mapMethods g).definitions = f.definitions := by
  rw [mapMethods_eq_mapPlacedMethods, definitions_mapPlacedMethods]

theorem isAddressable_withServices
    (h : services.map (·.methods.length) = f.services.map (·.methods.length)) :
    { f with services := services }.isAddressable = f.isAddressable := by
  have hlength := congrArg length h
  have hall := congrArg (all · (· ≤ reach)) h
  simp only [length_map, all_map] at hlength hall
  simp only [isAddressable, hlength]
  exact congrArg _ hall

theorem isAddressable_mapPlacedMethods :
    (f.mapPlacedMethods visit).isAddressable = f.isAddressable := by
  refine isAddressable_withServices (ext_getElem? fun i => ?_)
  simp [servicePlaces, length_listed, Function.comp_def]

section Addressable

variable (hf : f.isAddressable = true) {w : Placed MethodDescriptor} (hw : w ∈ f.placedMethods)
include hf hw

omit hw in
theorem nodup_placedMethods : (f.placedMethods.map path).Nodup := by
  obtain ⟨_, _, _, hservices, hmethods⟩ := isAddressable_iff.mp hf
  rw [placedMethods, map_flatten, nodup_flatten]
  constructor
  · simp only [forall_mem_map, mem_mapIdx]
    rintro _ ⟨i, hi, rfl⟩
    exact nodup_listed (hmethods _ (getElem_mem hi))
  · rw [pairwise_map, pairwise_iff_getElem]
    intro i j hi hj hij path hpath hpath'
    rw [length_mapIdx] at hi hj
    rw [getElem_mapIdx] at hpath hpath'
    obtain ⟨w, hw, rfl⟩ := mem_map.mp hpath
    obtain ⟨w', hw', hpath⟩ := mem_map.mp hpath'
    obtain ⟨_, hw⟩ := under_of_mem_listed hw
    obtain ⟨_, hw'⟩ := under_of_mem_listed hw'
    rw [← hpath, hw'] at hw
    have hsame := ofNat_injective (by omega) (by omega) (cons.inj (cons.inj hw).2).1
    omega

theorem methodAt?_of_mem : f.methodAt? w.path = some w.value ∧
    ∀ g, f.modifyMethodAt? w.path g = some (f.mapPlacedMethods (changeAt w.path g)) := by
  obtain ⟨_, _, _, hservices, hmethods⟩ := isAddressable_iff.mp hf
  obtain ⟨i, s, hs, hw⟩ := mem_placedMethods.mp hw
  have hlength := hmethods s (mem_of_getElem? hs)
  obtain ⟨j, x, hx, rfl⟩ := mem_listed.mp hw
  constructor
  · simp only [methodAt?, cons_append, nil_append, and_self, if_true]
    rw [at?_ofNat hservices hs, Option.bind_some, at?_ofNat hlength hx]
  · intro g
    simp only [modifyMethodAt?, cons_append, nil_append]
    rw [modifyAt?_ofNat hservices hs, modifyAt?_ofNat hlength hx]
    refine congrArg some (mapPlacedMethods_ext fun k => ?_).symm
    rw [getElem?_set]
    by_cases hik : i = k
    · subst hik
      rw [if_pos rfl, if_pos (List.getElem?_eq_some_iff.mp hs).1, hs]
      let name := Name.join f.package s.name
      let path : Path := [Tag.fileService.step, .ofNat i]
      have hmethods : (listed name name path .serviceMethod s.methods).map _ = _ :=
        map_changeAt_listed hlength hx g
      exact congrArg (fun methods => some { s with methods := methods }) hmethods.symm
    · rw [if_neg hik]
      cases hk : f.services[k]? with
      | none => rfl
      | some s' =>
        have hne : ∀ v ∈ servicePlaces f.package k s', v.path ≠
            [Tag.fileService.step, .ofNat i] ++ [Tag.serviceMethod.step, .ofNat j] := by
          intro v hv heq
          obtain ⟨_, hpath⟩ := under_of_mem_listed hv
          rw [heq] at hpath
          have hstep := (cons.inj (cons.inj hpath).2).1
          exact hik (ofNat_injective (lt_reach hservices hs) (lt_reach hservices hk) hstep)
        exact congrArg (fun methods => some { s' with methods := methods })
          (map_changeAt_of_ne hne).symm

end Addressable

end Methods

end FileDescriptor

end ProtobufSchema

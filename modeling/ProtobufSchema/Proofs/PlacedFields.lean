import ProtobufSchema.Proofs.FieldChanges

/-! Where the fields of a message stand: each has a path of its own, and changing what stands there
leaves the others alone. -/

namespace ProtobufSchema

open List MessageDescriptor Path

variable {tag' : Tag} {written scope' : String} {path' : Path} {β : Type} {j : Nat} (i : Nat)

namespace Path

def reach : Nat := 2 ^ 31

theorem ofNat_injective {i : Nat} (hi : i < reach) (hj : j < reach) (h : Int32.ofNat i = .ofNat j) :
    i = j := by
  have hint := congrArg Int32.toInt h
  rw [Int32.toInt_ofNat_of_lt hi, Int32.toInt_ofNat_of_lt hj] at hint
  exact Int.ofNat_inj.mp hint

variable {α : Type}

theorem at?_ofNat_of_lt (xs : List α) {i : Nat} (hi : i < reach) : at? xs (.ofNat i) = xs[i]? := by
  have hint := Int32.toInt_ofNat_of_lt hi
  have hpos : 0 ≤ Int32.ofNat i := by
    rw [Int32.le_iff_toInt_le, hint]
    simp
  rw [at?, if_pos hpos, hint, Int.toNat_natCast]

section List

variable {α : Type} {xs : List α} {i : Nat} {x : α} (hxs : xs.length ≤ reach) (hx : xs[i]? = some x)
include hxs hx

theorem lt_reach : i < reach := by
  have hlt := (List.getElem?_eq_some_iff.mp hx).1
  omega

theorem at?_ofNat : at? xs (.ofNat i) = some x := by
  rw [at?_ofNat_of_lt xs (lt_reach hxs hx), hx]

theorem modifyAt?_ofNat (f : α → Option α) :
    modifyAt? xs (.ofNat i) f = (f x).map fun y => xs.set i y := by
  rw [modifyAt?, at?_ofNat hxs hx, Option.bind_some, Int32.toInt_ofNat_of_lt (lt_reach hxs hx),
    Int.toNat_natCast]

end List

theorem getElem?_of_at? {xs : List α} {i : Int32} {x : α} (h : at? xs i = some x) :
    ∃ j, xs[j]? = some x ∧ i = .ofNat j := by
  unfold at? at h
  split at h
  · next hi =>
    have hpos : 0 ≤ i.toInt := Int32.le_iff_toInt_le.mp hi
    have hlt := i.toInt_lt
    refine ⟨_, h, Int32.toInt_inj.mp ?_⟩
    rw [Int32.toInt_ofNat_of_lt (by omega)]
    omega
  · cases h

theorem map_modifyAt? {xs ys : List α} {i : Int32} {f : α → Option α} {g : α → β}
    (hf : ∀ x y, f x = some y → g y = g x) (h : modifyAt? xs i f = some ys) :
    ys.map g = xs.map g := by
  obtain ⟨x, hx, hset⟩ := Option.bind_eq_some_iff.mp h
  obtain ⟨y, hy, rfl⟩ := Option.map_eq_some_iff.mp hset
  unfold at? at hx
  split at hx
  · obtain ⟨hlt, rfl⟩ := List.getElem?_eq_some_iff.mp hx
    rw [map_set, hf _ y hy, ← map_set, set_getElem_self]
  · cases hx

end Path

/-- A field or method: its path, the full name of the scope around it, and the full name of the
scope that its names were written in. The two scopes differ in the entries of maps. -/
structure Placed (α : Type) where
  path : Path
  scope : String
  written : String
  value : α

namespace Placed

variable {α : Type}

def listed (scope written : String) (path : Path) (tag : Tag) (xs : List α) : List (Placed α) :=
  xs.mapIdx fun i x => ⟨path ++ [tag.step, .ofNat i], scope, written, x⟩

def put (w : Placed α) (x : α) : Placed α := { w with value := x }

def changeAt (p : Path) (g : α → α) (w : Placed α) : α := if w.path = p then g w.value else w.value

variable {scope written : String} {path : Path} {tag : Tag} {xs : List α} {w : Placed α}

theorem mem_listed : w ∈ listed scope written path tag xs ↔
    ∃ i x, xs[i]? = some x ∧ w = ⟨path ++ [tag.step, .ofNat i], scope, written, x⟩ := by
  simp only [listed, mem_mapIdx, getElem?_eq_some_iff]
  constructor
  · rintro ⟨i, hi, rfl⟩
    exact ⟨i, _, ⟨hi, rfl⟩, rfl⟩
  · rintro ⟨i, _, ⟨hi, rfl⟩, rfl⟩
    exact ⟨i, hi, rfl⟩

def Under (path : Path) (tag : Tag) (w : Placed α) : Prop :=
  ∃ rest, w.path = path ++ tag.step :: rest

theorem under_of_mem_listed (h : w ∈ listed scope written path tag xs) : w.Under path tag := by
  obtain ⟨i, x, _, rfl⟩ := mem_listed.mp h
  exact ⟨_, rfl⟩

theorem apart {w' : Placed α} (h : w.Under path tag) (h' : w'.Under path tag')
    (hne : tag.step ≠ tag'.step) : w.path ≠ w'.path := by
  obtain ⟨_, h⟩ := h
  obtain ⟨_, h'⟩ := h'
  rw [h, h']
  intro heq
  exact hne (cons.inj (append_cancel_left heq)).1

theorem length_listed : (listed scope written path tag xs).length = xs.length := length_mapIdx

theorem getElem?_listed : (listed scope written path tag xs)[i]? =
    xs[i]?.map fun x => ⟨path ++ [tag.step, .ofNat i], scope, written, x⟩ := by
  simp [listed]

theorem nodup_listed (hxs : xs.length ≤ reach) :
    ((listed scope written path tag xs).map Placed.path).Nodup := by
  have hpaths : (listed scope written path tag xs).map Placed.path =
      (range xs.length).map fun i => path ++ [tag.step, .ofNat i] := by
    apply ext_getElem?
    intro i
    by_cases hi : i < xs.length <;> simp [getElem?_listed, hi]
  rw [hpaths, Nodup, pairwise_map]
  refine nodup_range.imp_of_mem fun {i j} hi hj hne h => hne ?_
  have hstep := (cons.inj (cons.inj (append_cancel_left h)).2).1
  exact ofNat_injective ((mem_range.mp hi).trans_le hxs) ((mem_range.mp hj).trans_le hxs) hstep

theorem map_value_listed : (listed scope written path tag xs).map value = xs := by
  apply ext_getElem?
  simp [getElem?_listed, Function.comp_def]

theorem map_listed (g : String → α → β) :
    (listed scope written path tag xs).map (fun w => g w.scope w.value) = xs.map (g scope) := by
  apply ext_getElem?
  simp [getElem?_listed, Function.comp_def]

theorem listed_map_listed (visit : Placed α → α) :
    listed scope written path tag ((listed scope written path tag xs).map visit) =
      (listed scope written path tag xs).map fun w => w.put (visit w) := by
  apply ext_getElem?
  simp [getElem?_listed, Function.comp_def, put]

theorem map_changeAt_listed (hxs : xs.length ≤ reach) {i : Nat} {x : α} (hx : xs[i]? = some x)
    (g : α → α) :
    (listed scope written path tag xs).map (changeAt (path ++ [tag.step, .ofNat i]) g) =
      xs.set i (g x) := by
  apply ext_getElem?
  intro j
  rw [getElem?_map, getElem?_listed, getElem?_set]
  by_cases hij : i = j
  · subst hij
    rw [if_pos (List.getElem?_eq_some_iff.mp hx).1, hx]
    simp [changeAt]
  · rw [if_neg hij]
    cases hy : xs[j]? with
    | none => rfl
    | some y =>
      have hne : Int32.ofNat j ≠ .ofNat i := fun h =>
        hij (ofNat_injective (lt_reach hxs hy) (lt_reach hxs hx) h).symm
      simp [changeAt, hne]

theorem map_changeAt_of_ne {p : Path} {g : α → α}
    (h : ∀ w ∈ listed scope written path tag xs, w.path ≠ p) :
    (listed scope written path tag xs).map (changeAt p g) = xs := by
  have hvalue : ∀ w ∈ listed scope written path tag xs, changeAt p g w = w.value := by
    intro w hw
    rw [changeAt, if_neg (h w hw)]
  rw [map_congr_left hvalue, map_value_listed]

end Placed

theorem Definition.listed_mapPlaced {visit : Placed FieldDescriptor → FieldDescriptor}
    (hvisit : ∀ w, (visit w).name = w.value.name) {scope : String} {path : Path}
    {tag : Tag} {define : Path → Definition} (xs : List FieldDescriptor) :
    listed scope path tag define FieldDescriptor.name
      ((Placed.listed scope' written path' tag' xs).map visit) =
      listed scope path tag define FieldDescriptor.name xs := by
  apply ext_getElem?
  simp [listed, Placed.getElem?_listed, Function.comp_def, hvisit]

namespace MessageDescriptor

/-- The scope that the types of a message's fields were written in. A map is written in the message
around its entries. -/
def writtenScope (scope : String) (m : MessageDescriptor) : String :=
  if m.isMapEntry then scope else Name.join scope m.name

theorem writtenScope_mk
    (scope name? fields extensions nested enums ranges oneofs options reserved names) :
    writtenScope scope ⟨name?, fields, extensions, nested, enums, ranges, oneofs, options,
      reserved, names⟩ =
      bif isMapEntry { options } then scope else Name.join scope (name?.getD "") :=
  (cond_eq_ite ..).symm

mutual

def placedFields (scope : String) (path : Path) : MessageDescriptor → List (Placed FieldDescriptor)
  | m@⟨name?, fields, extensions, nested, _, _, _, _, _, _⟩ =>
    let inner := Name.join scope (name?.getD "")
    Placed.listed inner (m.writtenScope scope) path .messageField fields ++
      Placed.listed inner inner path .messageExtension extensions ++
      placedFieldsFrom inner path .messageNested 0 nested

/-- The fields and extensions in messages that stand from a position on under a tag. -/
def placedFieldsFrom (scope : String) (path : Path) (tag : Tag) :
    Nat → List MessageDescriptor → List (Placed FieldDescriptor)
  | _, [] => []
  | i, m :: ms =>
    placedFields scope (path ++ [tag.step, .ofNat i]) m ++
      placedFieldsFrom scope path tag (i + 1) ms

end

mutual

def mapPlaced (visit : Placed FieldDescriptor → FieldDescriptor) (scope : String) (path : Path) :
    MessageDescriptor → MessageDescriptor
  | m@⟨name?, fields, extensions, nested, enums, ranges, oneofs, options, reserved, names⟩ =>
    let inner := Name.join scope (name?.getD "")
    ⟨name?, (Placed.listed inner (m.writtenScope scope) path .messageField fields).map visit,
      (Placed.listed inner inner path .messageExtension extensions).map visit,
      mapPlacedFrom visit inner path .messageNested 0 nested, enums, ranges, oneofs, options,
        reserved,
      names⟩

def mapPlacedFrom (visit : Placed FieldDescriptor → FieldDescriptor) (scope : String) (path : Path)
    (tag : Tag) : Nat → List MessageDescriptor → List MessageDescriptor
  | _, [] => []
  | i, m :: ms =>
    mapPlaced visit scope (path ++ [tag.step, .ofNat i]) m ::
      mapPlacedFrom visit scope path tag (i + 1) ms

end

variable {scope : String} {path : Path} {tag : Tag}
  {visit : Placed FieldDescriptor → FieldDescriptor}

theorem placedFieldsFrom_append (ms ms' : List MessageDescriptor) :
    placedFieldsFrom scope path tag i (ms ++ ms') = placedFieldsFrom scope path tag i ms ++
      placedFieldsFrom scope path tag (i + ms.length) ms' := by
  induction ms generalizing i with
  | nil => rfl
  | cons m ms ih =>
    simp only [cons_append, placedFieldsFrom, ih, length_cons, append_assoc]
    rw [add_assoc, add_comm 1]

variable {i : Nat} {ms : List MessageDescriptor} {w : Placed FieldDescriptor}
  {m : MessageDescriptor}

theorem mem_placedFieldsFrom : w ∈ placedFieldsFrom scope path tag i ms ↔
      ∃ (j : Nat) (m : MessageDescriptor), ms[j]? = some m ∧
        w ∈ m.placedFields scope (path ++ [tag.step, .ofNat (i + j)]) := by
  induction ms generalizing i with
  | nil => simp [placedFieldsFrom]
  | cons m ms ih =>
    rw [placedFieldsFrom, mem_append, ih]
    constructor
    · rintro (h | ⟨j, x, hx, h⟩)
      · exact ⟨0, m, rfl, h⟩
      · refine ⟨j + 1, x, hx, ?_⟩
        rwa [add_comm j, ← add_assoc]
    · rintro ⟨_ | j, x, hx, h⟩
      · cases hx
        exact .inl h
      · refine .inr ⟨j, x, hx, ?_⟩
        rwa [add_assoc, add_comm 1]

theorem getElem?_mapPlacedFrom (i j : Nat) (ms : List MessageDescriptor) :
    (mapPlacedFrom visit scope path tag i ms)[j]? =
      ms[j]?.map (mapPlaced visit scope (path ++ [tag.step, .ofNat (i + j)])) := by
  induction ms generalizing i j with
  | nil => simp [mapPlacedFrom]
  | cons m ms ih =>
    rw [mapPlacedFrom]
    cases j with
    | zero => rfl
    | succ j =>
      rw [getElem?_cons_succ, getElem?_cons_succ, ih, add_assoc, add_comm 1]

theorem length_mapPlacedFrom (i : Nat) (ms : List MessageDescriptor) :
    (mapPlacedFrom visit scope path tag i ms).length = ms.length := by
  induction ms generalizing i with
  | nil => rfl
  | cons m ms ih => rw [mapPlacedFrom, length_cons, length_cons, ih]

section From

variable {ms : List MessageDescriptor}

theorem definitionsFrom_mapPlacedFrom
    (h : ∀ m ∈ ms, ∀ path path', (m.mapPlaced visit scope path).definitions scope' path' =
      m.definitions scope' path') (i j : Nat) :
    definitionsFrom scope' path' tag' i (mapPlacedFrom visit scope path tag j ms) =
      definitionsFrom scope' path' tag' i ms := by
  induction ms generalizing i j with
  | nil => rfl
  | cons m ms ih =>
    obtain ⟨hm, hms⟩ := forall_mem_cons.mp h
    rw [mapPlacedFrom, definitionsFrom, definitionsFrom, hm, ih hms]

theorem placedFieldsFrom_mapPlacedFrom
    (h : ∀ m ∈ ms, ∀ path, (m.mapPlaced visit scope path).placedFields scope path =
      (m.placedFields scope path).map fun w => w.put (visit w)) (i : Nat) :
    placedFieldsFrom scope path tag i (mapPlacedFrom visit scope path tag i ms) =
      (placedFieldsFrom scope path tag i ms).map fun w => w.put (visit w) := by
  induction ms generalizing i with
  | nil => rfl
  | cons m ms ih =>
    obtain ⟨hm, hms⟩ := forall_mem_cons.mp h
    rw [mapPlacedFrom, placedFieldsFrom, placedFieldsFrom, hm, ih hms, map_append]

theorem mapPlacedFrom_eq_map {g : MessageDescriptor → MessageDescriptor}
    (h : ∀ m ∈ ms, ∀ path, m.mapPlaced visit scope path = g m) (i : Nat) :
    mapPlacedFrom visit scope path tag i ms = ms.map g := by
  induction ms generalizing i with
  | nil => rfl
  | cons m ms ih =>
    obtain ⟨hm, hms⟩ := forall_mem_cons.mp h
    rw [mapPlacedFrom, hm, ih hms, map_cons]

theorem map_placedFieldsFrom
    (h : ∀ m ∈ ms, ∀ path, (m.placedFields scope path).map (fun w => (w.scope, w.value)) =
      m.fieldsWithin scope)
    (i : Nat) :
    (placedFieldsFrom scope path tag i ms).map (fun w => (w.scope, w.value)) =
      nestedFieldsWithin scope ms := by
  induction ms generalizing i with
  | nil => rfl
  | cons m ms ih =>
    obtain ⟨hm, hms⟩ := forall_mem_cons.mp h
    rw [placedFieldsFrom, nestedFieldsWithin, map_append, hm, ih hms]

end From

theorem placedFields_mapPlaced (m : MessageDescriptor) :
    (m.mapPlaced visit scope path).placedFields scope path =
      (m.placedFields scope path).map fun w => w.put (visit w) := by
  induction m using nesting generalizing scope path with
  | _ _ _ ih =>
    simp only [mapPlaced, placedFields, writtenScope_mk, Placed.listed_map_listed, map_append]
    rw [placedFieldsFrom_mapPlacedFrom fun m hm path => ih m hm]

theorem mapPlaced_congr {visit' : Placed FieldDescriptor → FieldDescriptor}
    (h : ∀ w ∈ m.placedFields scope path, visit w = visit' w) :
    m.mapPlaced visit scope path = m.mapPlaced visit' scope path := by
  induction m using nesting generalizing scope path with
  | _ _ nested ih =>
    simp only [placedFields, forall_mem_append] at h
    obtain ⟨⟨hfields, hextensions⟩, hnested⟩ := h
    simp only [mapPlaced]
    rw [map_congr_left hfields, map_congr_left hextensions]
    congr 1
    apply ext_getElem?
    intro j
    rw [getElem?_mapPlacedFrom, getElem?_mapPlacedFrom]
    cases hj : nested[j]? with
    | none => rfl
    | some m =>
      refine congrArg some (ih m (mem_of_getElem? hj) fun w hw => hnested w ?_)
      exact mem_placedFieldsFrom.mpr ⟨j, m, hj, hw⟩

theorem mapPlaced_value (m : MessageDescriptor) : m.mapPlaced Placed.value scope path = m := by
  induction m using nesting generalizing scope path with
  | _ _ _ ih =>
    simp only [mapPlaced, Placed.map_value_listed]
    rw [mapPlacedFrom_eq_map (g := id) fun m hm path => ih m hm, map_id]

theorem mapPlaced_mapPlaced (visit' : Placed FieldDescriptor → FieldDescriptor)
    (m : MessageDescriptor) :
    (m.mapPlaced visit scope path).mapPlaced visit' scope path =
      m.mapPlaced (fun w => visit' (w.put (visit w))) scope path := by
  induction m using nesting generalizing scope path with
  | _ _ nested ih =>
    simp only [mapPlaced, writtenScope_mk, Placed.listed_map_listed, map_map]
    congr 1
    apply ext_getElem?
    intro j
    simp only [getElem?_mapPlacedFrom]
    cases hj : nested[j]? with
    | none => rfl
    | some m => exact congrArg some (ih m (mem_of_getElem? hj))

theorem placedFields_eq (m : MessageDescriptor) : m.placedFields scope path =
    Placed.listed (Name.join scope m.name) (m.writtenScope scope) path .messageField m.fields ++
      Placed.listed (Name.join scope m.name) (Name.join scope m.name) path .messageExtension
        m.extensions ++
      placedFieldsFrom (Name.join scope m.name) path .messageNested 0 m.nestedTypes := by
  cases m
  rfl

theorem mem_placedFields : w ∈ m.placedFields scope path ↔
      w ∈ Placed.listed (Name.join scope m.name) (m.writtenScope scope) path .messageField
        m.fields ∨
      w ∈ Placed.listed (Name.join scope m.name) (Name.join scope m.name) path .messageExtension
        m.extensions ∨
      ∃ (j : Nat) (d : MessageDescriptor), m.nestedTypes[j]? = some d ∧
        w ∈ d.placedFields (Name.join scope m.name)
          (path ++ [Tag.messageNested.step, .ofNat j]) := by
  cases m
  simp only [placedFields, mem_append, mem_placedFieldsFrom, zero_add, or_assoc]
  rfl

theorem path_of_mem_placedFields
    (h : w ∈ m.placedFields scope path) : ∃ tag i rest, w.path = path ++ tag :: i :: rest := by
  induction m using induction generalizing scope path with
  | _ m ih =>
    rcases mem_placedFields.mp h with h | h | ⟨j, d, hd, h⟩
    · obtain ⟨i, x, _, rfl⟩ := Placed.mem_listed.mp h
      exact ⟨_, _, [], rfl⟩
    · obtain ⟨i, x, _, rfl⟩ := Placed.mem_listed.mp h
      exact ⟨_, _, [], rfl⟩
    · obtain ⟨tag, i, rest, hpath⟩ := ih d (mem_of_getElem? hd) h
      exact ⟨_, _, _, by rw [hpath, append_assoc]; rfl⟩

theorem under_of_mem_placedFieldsFrom (h : w ∈ placedFieldsFrom scope path tag i ms) :
    w.Under path tag := by
  obtain ⟨j, m, _, h⟩ := mem_placedFieldsFrom.mp h
  obtain ⟨_, _, _, hpath⟩ := path_of_mem_placedFields h
  exact ⟨_, by rw [hpath, append_assoc]; rfl⟩

theorem map_placedFields (m : MessageDescriptor) :
    (m.placedFields scope path).map (fun w => (w.scope, w.value)) = m.fieldsWithin scope := by
  induction m using nesting generalizing scope path with
  | _ _ _ ih =>
    simp only [placedFields, fieldsWithin, map_append, Placed.map_listed Prod.mk]
    rw [map_placedFieldsFrom fun m hm path => ih m hm]

theorem mapFields_eq_mapPlaced (g : String → FieldDescriptor → FieldDescriptor)
    (m : MessageDescriptor) :
    m.mapFields g scope = m.mapPlaced (fun w => g w.scope w.value) scope path := by
  induction m using nesting generalizing scope path with
  | _ _ _ ih =>
    simp only [mapFields, mapPlaced, mapNestedFields_eq, Placed.map_listed]
    rw [mapPlacedFrom_eq_map fun m hm path => (ih m hm).symm]

theorem definitions_mapPlaced (hvisit : ∀ w, (visit w).name = w.value.name) (scope' : String)
    (path' : Path) (m : MessageDescriptor) :
    (m.mapPlaced visit scope path).definitions scope' path' = m.definitions scope' path' := by
  induction m using nesting generalizing scope path scope' path' with
  | _ _ _ ih =>
    simp only [mapPlaced, definitions]
    rw [definitionsFrom_mapPlacedFrom fun m hm path path' => ih m hm _ path',
      Definition.listed_mapPlaced hvisit]

mutual

/-- Whether positions tell the elements of a message apart. -/
def isAddressable : MessageDescriptor → Bool
  | ⟨_, fields, extensions, nested, _, _, _, _, _, _⟩ =>
    fields.length ≤ Path.reach && extensions.length ≤ Path.reach && nested.length ≤ Path.reach &&
      areAddressable nested

def areAddressable : List MessageDescriptor → Bool
  | [] => true
  | m :: ms => isAddressable m && areAddressable ms

end

theorem areAddressable_iff : areAddressable ms = true ↔ ∀ m ∈ ms, m.isAddressable = true := by
  induction ms with
  | nil => simp [areAddressable]
  | cons m ms ih => rw [areAddressable, Bool.and_eq_true, ih, forall_mem_cons]

theorem areAddressable_mapPlacedFrom
    (h : ∀ m ∈ ms, ∀ path, (m.mapPlaced visit scope path).isAddressable = m.isAddressable)
    (i : Nat) : areAddressable (mapPlacedFrom visit scope path tag i ms) = areAddressable ms := by
  induction ms generalizing i with
  | nil => rfl
  | cons m ms ih =>
    obtain ⟨hm, hms⟩ := forall_mem_cons.mp h
    rw [mapPlacedFrom, areAddressable, areAddressable, hm, ih hms]

theorem isAddressable_iff :
    m.isAddressable = true ↔ m.fields.length ≤ reach ∧ m.extensions.length ≤ reach ∧
      m.nestedTypes.length ≤ reach ∧ ∀ d ∈ m.nestedTypes, d.isAddressable = true := by
  cases m
  simp [isAddressable, areAddressable_iff, and_assoc]

theorem isAddressable_mapPlaced (m : MessageDescriptor) :
    (m.mapPlaced visit scope path).isAddressable = m.isAddressable := by
  induction m using nesting generalizing scope path with
  | _ _ _ ih =>
    simp only [mapPlaced, isAddressable, length_map, Placed.length_listed, length_mapPlacedFrom]
    rw [areAddressable_mapPlacedFrom fun m hm path => ih m hm]

theorem isAddressable_mapOptions (g : Option Options → Option Options) (m : MessageDescriptor) :
    (m.mapOptions g).isAddressable = m.isAddressable := by
  induction m using nesting with
  | _ _ _ ih =>
    simp only [mapOptions, isAddressable, length_map, mapNestedOptions_eq]
    rw [Bool.eq_iff_iff]
    simp only [Bool.and_eq_true, areAddressable_iff, forall_mem_map]
    refine and_congr_right fun _ => forall₂_congr fun m hm => ?_
    rw [ih m hm]

theorem mapPlaced_eq (m : MessageDescriptor) : m.mapPlaced visit scope path = { m with
      fields := (Placed.listed (Name.join scope m.name) (m.writtenScope scope) path .messageField
        m.fields).map visit
      extensions := (Placed.listed (Name.join scope m.name) (Name.join scope m.name) path
        .messageExtension m.extensions).map visit
      nestedTypes :=
        mapPlacedFrom visit (Name.join scope m.name) path .messageNested 0 m.nestedTypes } := by
  cases m
  rfl

section Change

variable {m : MessageDescriptor} {p : Path} {g : FieldDescriptor → FieldDescriptor} {rest : Path}
variable {step : Int32}

theorem mapPlaced_changeAt_of_ne (h : ∀ w ∈ m.placedFields scope path, w.path ≠ p) :
    m.mapPlaced (Placed.changeAt p g) scope path = m := by
  have hvalue : ∀ w ∈ m.placedFields scope path, Placed.changeAt p g w = w.value := by
    intro w hw
    rw [Placed.changeAt, if_neg (h w hw)]
  rw [mapPlaced_congr hvalue, mapPlaced_value]

theorem mapPlacedFrom_changeAt_of_ne (hp : p = path ++ step :: rest) (hne : step ≠ tag.step)
    (i : Nat) (ms : List MessageDescriptor) :
    mapPlacedFrom (Placed.changeAt p g) scope path tag i ms = ms := by
  apply ext_getElem?
  intro j
  rw [getElem?_mapPlacedFrom]
  cases ms[j]? with
  | none => rfl
  | some m =>
    refine congrArg some (mapPlaced_changeAt_of_ne fun w hw heq => hne ?_)
    obtain ⟨_, _, _, hpath⟩ := path_of_mem_placedFields hw
    rw [heq, hp, append_assoc] at hpath
    exact (cons.inj (append_cancel_left hpath)).1

theorem mapPlacedFrom_changeAt (hms : ms.length ≤ reach)
    {d : MessageDescriptor} (hd : ms[j]? = some d) (hp : p = path ++ [tag.step, .ofNat j] ++ rest) :
    mapPlacedFrom (Placed.changeAt p g) scope path tag 0 ms =
      ms.set j (d.mapPlaced (Placed.changeAt p g) scope (path ++ [tag.step, .ofNat j])) := by
  apply ext_getElem?
  intro k
  rw [getElem?_mapPlacedFrom, getElem?_set, zero_add]
  by_cases hjk : j = k
  · subst hjk
    rw [if_pos rfl, if_pos (List.getElem?_eq_some_iff.mp hd).1, hd]
    rfl
  · rw [if_neg hjk]
    cases hm : ms[k]? with
    | none => rfl
    | some m =>
      refine congrArg some (mapPlaced_changeAt_of_ne fun w hw heq => hjk ?_)
      obtain ⟨_, _, _, hpath⟩ := path_of_mem_placedFields hw
      rw [heq, hp, append_assoc, append_assoc] at hpath
      have hstep := (cons.inj (cons.inj (append_cancel_left hpath)).2).1
      exact ofNat_injective (lt_reach hms hd) (lt_reach hms hm) hstep

theorem listed_ne {xs : List FieldDescriptor} (hp : p = path ++ step :: rest)
    (hne : step ≠ tag.step) : ∀ w ∈ Placed.listed scope written path tag xs, w.path ≠ p := by
  intro w hw heq
  obtain ⟨_, hpath⟩ := Placed.under_of_mem_listed hw
  rw [heq, hp] at hpath
  exact hne (cons.inj (append_cancel_left hpath)).1

end Change

theorem own?_of_mem (hm : m.isAddressable = true) (h : w ∈ m.placedFields scope path) :
    ∃ rest tag i, w.path = path ++ rest ++ [tag, i] ∧
      (m.nestedAt? rest).bind (own? tag i) = some w.value ∧
      ∀ g, m.modifyNestedAt? rest (modifyOwn? tag i g) =
        some (m.mapPlaced (Placed.changeAt w.path g) scope path) := by
  induction m using induction generalizing scope path with
  | _ m ih =>
    obtain ⟨hfields, hextensions, hnested, hinner⟩ := isAddressable_iff.mp hm
    rcases mem_placedFields.mp h with h | h | ⟨j, d, hd, h⟩
    · obtain ⟨i, x, hx, rfl⟩ := Placed.mem_listed.mp h
      refine ⟨[], Tag.messageField.step, .ofNat i, by rw [append_nil], ?_, fun g => ?_⟩
      · rw [nestedAt?, Option.bind_some, own?, if_pos rfl, at?_ofNat hfields hx]
      rw [modifyNestedAt?, modifyOwn?, modifyAt?_ofNat hfields hx, mapPlaced_eq,
        Placed.map_changeAt_listed hfields hx,
        Placed.map_changeAt_of_ne (listed_ne rfl (by decide)),
        mapPlacedFrom_changeAt_of_ne rfl (by decide)]
      rfl
    · obtain ⟨i, x, hx, rfl⟩ := Placed.mem_listed.mp h
      refine ⟨[], Tag.messageExtension.step, .ofNat i, by rw [append_nil], ?_, fun g => ?_⟩
      · rw [nestedAt?, Option.bind_some, own?, if_neg (by decide), if_pos rfl,
          at?_ofNat hextensions hx]
      rw [modifyNestedAt?, modifyOwn?,
        modifyAt?_ofNat hextensions hx, mapPlaced_eq, Placed.map_changeAt_listed hextensions hx,
        Placed.map_changeAt_of_ne (listed_ne rfl (by decide)),
        mapPlacedFrom_changeAt_of_ne rfl (by decide)]
      rfl
    · have hmem := mem_of_getElem? hd
      obtain ⟨rest, tag, i, hpath, hown, hmodify⟩ := ih d hmem (hinner d hmem) h
      refine ⟨Tag.messageNested.step :: .ofNat j :: rest, tag, i, ?_, ?_, fun g => ?_⟩
      · rw [hpath]
        simp
      · rw [nestedAt?, at?_ofNat hnested hd]
        exact hown
      · have hstep : w.path = path ++ Tag.messageNested.step :: .ofNat j :: (rest ++ [tag, i]) := by
          rw [hpath]
          simp
        rw [modifyNestedAt?, modifyAt?_ofNat hnested hd, hmodify, mapPlaced_eq m,
          Placed.map_changeAt_of_ne (listed_ne hstep (by decide)),
          Placed.map_changeAt_of_ne (listed_ne hstep (by decide)),
          mapPlacedFrom_changeAt hnested hd (hpath.trans (append_assoc _ _ _))]
        rfl

theorem nodup_placedFieldsFrom (hms : i + ms.length ≤ reach)
    (hinner : ∀ m ∈ ms, ∀ path, ((m.placedFields scope path).map Placed.path).Nodup) :
    ((placedFieldsFrom scope path tag i ms).map Placed.path).Nodup := by
  induction ms generalizing i with
  | nil => exact nodup_nil
  | cons m ms ih =>
    obtain ⟨hm, hinner⟩ := forall_mem_cons.mp hinner
    rw [length_cons] at hms
    rw [placedFieldsFrom, map_append, nodup_append]
    refine ⟨hm _, ih (by omega) hinner, ?_⟩
    simp only [forall_mem_map]
    intro w hw w' hw' hpath
    obtain ⟨j, d, hd, hw'⟩ := mem_placedFieldsFrom.mp hw'
    obtain ⟨_, _, _, hw⟩ := path_of_mem_placedFields hw
    obtain ⟨_, _, _, hw'⟩ := path_of_mem_placedFields hw'
    rw [hpath, hw', append_assoc, append_assoc] at hw
    have hj := (List.getElem?_eq_some_iff.mp hd).1
    have hstep := (cons.inj (cons.inj (append_cancel_left hw)).2).1
    have hsame := ofNat_injective (by omega) (by omega) hstep
    omega

theorem nodup_placedFields (hm : m.isAddressable = true) :
    ((m.placedFields scope path).map Placed.path).Nodup := by
  induction m using induction generalizing scope path with
  | _ m ih =>
    obtain ⟨hfields, hextensions, hnested, hinner⟩ := isAddressable_iff.mp hm
    rw [placedFields_eq, map_append, map_append, nodup_append, nodup_append]
    refine ⟨⟨Placed.nodup_listed hfields, Placed.nodup_listed hextensions, ?_⟩,
      nodup_placedFieldsFrom (by omega) fun d hd path => ih d hd (hinner d hd), ?_⟩
    · simp only [forall_mem_map]
      intro w hw w' hw'
      exact Placed.apart (Placed.under_of_mem_listed hw) (Placed.under_of_mem_listed hw')
        (by decide)
    · simp only [forall_mem_map, forall_mem_append]
      constructor
      · intro w hw w' hw'
        exact Placed.apart (Placed.under_of_mem_listed hw) (under_of_mem_placedFieldsFrom hw')
          (by decide)
      · intro w hw w' hw'
        exact Placed.apart (Placed.under_of_mem_listed hw) (under_of_mem_placedFieldsFrom hw')
          (by decide)

end MessageDescriptor

end ProtobufSchema

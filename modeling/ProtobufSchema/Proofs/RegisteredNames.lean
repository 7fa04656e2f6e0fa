import ProtobufSchema.Proofs.SeenExtensions

/-! Extensions are refused for their numbers alone, so names lead to all that is registered just as
long as none was registered twice. -/

namespace ProtobufSchema

open List

namespace Registry

variable {r r' : Registry} {x : ExtensionInfo}
variable {β : Type}

theorem map_fst_bind (key : String) (value : β) (xs : List (String × β)) :
    (bind key value xs).map Prod.fst =
      if key ∈ xs.map Prod.fst then xs.map Prod.fst else xs.map Prod.fst ++ [key] := by
  induction xs with
  | nil => rfl
  | cons entry rest ih =>
    obtain ⟨k, v⟩ := entry
    rw [bind]
    by_cases hk : k = key
    · simp [hk]
    · by_cases hmem : key ∈ rest.map Prod.fst <;> simp_all [eq_comm]

theorem bind_of_not_mem {key : String} {value : β} {xs : List (String × β)}
    (h : key ∉ xs.map Prod.fst) : bind key value xs = xs ++ [(key, value)] := by
  induction xs with
  | nil => rfl
  | cons entry rest ih =>
    obtain ⟨hk, hrest⟩ := not_or.mp (mem_cons.not.mp h)
    rw [bind, if_neg (Ne.symm hk), ih hrest]
    rfl

/-- A name is listed once; and where no two extensions share a name, the names are listed as the
extensions were registered. -/
structure IsIndexed (r : Registry) : Prop where
  sound : r.IsSound
  once : (r.byName.map Prod.fst).Nodup
  parallel : (r.infos.map ExtensionInfo.fullName).Nodup →
    r.byName = r.infos.map fun x => (x.fullName, x.key)

theorem isIndexed_empty : IsIndexed .empty := ⟨isSound_empty, nodup_nil, fun _ => rfl⟩

theorem IsIndexed.insert (h : r.IsIndexed) (hx : r.insert x = .ok r') : r'.IsIndexed := by
  obtain ⟨hsound, hbyName⟩ := h.sound.insert_ok hx
  have hinfos := infos_insert hx
  refine ⟨hsound, ?_, fun hnames => ?_⟩
  · rw [hbyName, map_fst_bind]
    split
    · exact h.once
    · next hnew => exact nodup_append'.mpr ⟨h.once, nodup_singleton _, by simpa using hnew⟩
  · rw [hinfos, map_append, nodup_append'] at hnames
    obtain ⟨hold, _, hnew⟩ := hnames
    have hparallel := h.parallel hold
    have hnot : x.fullName ∉ r.byName.map Prod.fst := by
      rw [hparallel, map_map]
      exact fun hmem => hnew hmem (by simp)
    rw [hbyName, bind_of_not_mem hnot, hparallel, hinfos, map_append]
    rfl

theorem IsIndexed.insertAll (h : r.IsIndexed) (xs : List ExtensionInfo) :
    (r.insertAll xs).1.IsIndexed := by
  induction xs generalizing r with
  | nil => exact h
  | cons x xs ih =>
    rw [insertAll]
    cases hinsert : r.insert x with
    | error y => exact ih h
    | ok r' => exact ih (h.insert hinsert)

inductive Call where
  | insert (info : ExtensionInfo)
  | addFile (file : FileDescriptor)

/-- The registry after a call, which is as before where an extension is refused. -/
def perform (r : Registry) : Call → Registry
  | .insert info => (r.insert info).toOption.getD r
  | .addFile file => (r.addFile file).1

def performAll (calls : List Call) : Registry := calls.foldl perform .empty

theorem IsIndexed.perform (h : r.IsIndexed) (call : Call) : (r.perform call).IsIndexed := by
  cases call with
  | insert info =>
    rw [Registry.perform]
    cases hinsert : r.insert info with
    | error y => exact h
    | ok r' => exact h.insert hinsert
  | addFile file => exact h.insertAll file.extensionInfos

theorem isIndexed_performAll (calls : List Call) : (performAll calls).IsIndexed :=
  foldlRecOn calls perform isIndexed_empty fun _ h call _ => h.perform call

section Agreement

variable (h : r.IsIndexed)
include h

theorem IsIndexed.toList_eq (hnames : (r.infos.map ExtensionInfo.fullName).Nodup) :
    r.toList = r.infos := by
  have hfound : r.infos.filterMap (fun x => r.byNumber.lookup x.key) = r.infos.filterMap some :=
    filterMap_congr fun x hx => h.sound.lookup_eq_some_iff.mpr ⟨hx, rfl⟩
  rw [toList, h.parallel hnames, filterMap_map]
  exact hfound.trans filterMap_some

theorem IsIndexed.findNamed?_eq (hnames : (r.infos.map ExtensionInfo.fullName).Nodup)
    (hx : x ∈ r.infos) : r.findNamed? x.fullName = some x := by
  have hname : r.byName.lookup x.fullName = some x.key := by
    rw [lookup_eq_some_iff_mem h.once, h.parallel hnames]
    exact mem_map_of_mem hx
  rw [findNamed?, hname]
  exact h.sound.lookup_eq_some_iff.mpr ⟨hx, rfl⟩

theorem IsIndexed.nodup_of_size (hsize : r.size = r.toList.length) :
    (r.infos.map ExtensionInfo.fullName).Nodup := by
  have hsubset : r.byName.map Prod.fst ⊆ r.infos.map ExtensionInfo.fullName := by
    intro n hn
    obtain ⟨⟨_, k⟩, hmem, rfl⟩ := mem_map.mp hn
    obtain ⟨e, he, _, hname⟩ := h.sound.named _ k hmem
    exact hname ▸ mem_map_of_mem he
  have hlength : (r.infos.map ExtensionInfo.fullName).length ≤ (r.byName.map Prod.fst).length := by
    have hle :=
      length_filterMap_le (fun x : String × String × Int32 => r.byNumber.lookup x.2) r.byName
    simp only [size, toList] at hsize
    simp only [infos, length_map]
    omega
  exact ((subperm_of_subset h.once hsubset).perm_of_length_le hlength).nodup_iff.mp h.once

theorem IsIndexed.nodup_of_named (hnamed : ∀ x ∈ r.infos, r.findNamed? x.fullName = some x) :
    (r.infos.map ExtensionInfo.fullName).Nodup := by
  have hinfos : r.infos.Nodup := by
    have hkeys := h.sound.distinct
    rw [h.sound.keyed] at hkeys
    exact hkeys.of_map
  refine hinfos.map_on fun x hx y hy hname => ?_
  have hsame := hnamed x hx
  rw [hname, hnamed y hy] at hsame
  exact (Option.some.inj hsame).symm

end Agreement

/-- After any calls the numbers in use are those of the registered extensions, one each, and an
extension is refused, for the one that has its number, without a change. But the names count, list
and find the registered extensions just if these have distinct names. -/
theorem performAll_inStep_iff (calls : List Call) : let r := performAll calls
    let distinct := (r.infos.map ExtensionInfo.fullName).Nodup
    (r.size = r.toList.length ↔ distinct) ∧ (r.toList = r.infos ↔ distinct) ∧
      ((∀ x ∈ r.infos, r.findNamed? x.fullName = some x) ↔ distinct) ∧
      r.keys = r.infos.map ExtensionInfo.key ∧ r.keys.Nodup ∧
      ∀ x e, r.insert x = .error e ↔ e ∈ r.infos ∧ e.key = x.key ∧ r.perform (.insert x) = r := by
  intro r distinct
  have h : r.IsIndexed := isIndexed_performAll calls
  have hsize : r.infos.length = r.size := length_map _
  refine ⟨⟨h.nodup_of_size, fun hnames => by rw [h.toList_eq hnames, hsize]⟩,
    ⟨fun hlist => h.nodup_of_size (by rw [hlist, hsize]), h.toList_eq⟩,
    ⟨h.nodup_of_named, fun hnames x hx => h.findNamed?_eq hnames hx⟩, h.sound.keyed,
      h.sound.distinct, ?_⟩
  intro x e
  constructor
  · intro hinsert
    obtain ⟨he, hkey⟩ := h.sound.insert_error hinsert
    exact ⟨he, hkey, by rw [perform, hinsert]; rfl⟩
  · rintro ⟨he, hkey, _⟩
    have hfound : r.find? x.extendee x.number = some e := h.sound.lookup_eq_some_iff.mpr ⟨he, hkey⟩
    rw [insert, hfound]

/-- Two extensions of one name, of which the registry lists the second in the place of the first. -/
theorem homonyms_out_of_step :
    let first : ExtensionInfo :=
      .ofField "x" { extendee? := some ".M", number? := some 1 } "a.proto"
    let second : ExtensionInfo :=
      .ofField "x" { extendee? := some ".M", number? := some 2 } "a.proto"
    let r := performAll [.insert first, .insert second]
    r.infos = [first, second] ∧ r.size = 2 ∧ r.toList = [second] ∧ r.findNamed? "x" = some second :=
  ⟨rfl, rfl, rfl, rfl⟩

end Registry

end ProtobufSchema

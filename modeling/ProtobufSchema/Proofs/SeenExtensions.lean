import ProtobufSchema.Proofs.VisibleFiles

/-! Nothing is registered that a file does not see; and all that it sees is registered, unless an
extension around it takes its number or name. -/

namespace ProtobufSchema

open List

variable {l : LinkedFile}

def ExtensionInfo.key (e : ExtensionInfo) : String × Int32 := (e.extendee, e.number)

/-- No other of the extensions with a property has the number or the name of this one. -/
def ExtensionInfo.StandsOut (P : ExtensionInfo → Prop) (e : ExtensionInfo) : Prop :=
  ∀ x, P x → x.key = e.key ∨ x.fullName = e.fullName → x = e

theorem FileDescriptor.file_of_mem_extensionInfos {f : FileDescriptor} {e : ExtensionInfo}
    (h : e ∈ f.extensionInfos) : e.file = f.name := by
  have hmessage (m : MessageDescriptor) (scope : String) :
      ∀ x ∈ m.extensionInfos scope f.name, x.file = f.name := by
    induction m using MessageDescriptor.nesting generalizing scope with
    | _ _ _ ih =>
      simp only [MessageDescriptor.extensionInfos, MessageDescriptor.nestedExtensionInfos_eq,
        forall_mem_append, forall_mem_map, forall_mem_flatMap]
      exact ⟨fun _ _ => rfl, fun d hd => ih d hd _⟩
  simp only [extensionInfos, MessageDescriptor.nestedExtensionInfos_eq, mem_append, mem_map,
    mem_flatMap] at h
  rcases h with ⟨x, _, rfl⟩ | ⟨m, _, hm⟩
  · rfl
  · exact hmessage m _ e hm

namespace Registry

variable {r r' : Registry} {e x : ExtensionInfo} {P : ExtensionInfo → Prop}
variable {xs : List ExtensionInfo} {k : String × Int32} {n : String}

def keys (r : Registry) : List (String × Int32) := r.byNumber.map Prod.fst

def infos (r : Registry) : List ExtensionInfo := r.byNumber.map Prod.snd

/-- Numbers lead to extensions that have them, one each, and names to extensions that have these. -/
structure IsSound (r : Registry) : Prop where
  keyed : r.keys = r.infos.map ExtensionInfo.key
  distinct : r.keys.Nodup
  named : ∀ n k, (n, k) ∈ r.byName → ∃ e ∈ r.infos, e.key = k ∧ e.fullName = n

theorem isSound_empty : IsSound .empty := ⟨rfl, nodup_nil, by simp [empty]⟩

theorem IsSound.mem_keys (h : r.IsSound) (he : e ∈ r.infos) : e.key ∈ r.keys := by
  rw [h.keyed]
  exact mem_map_of_mem he

theorem IsSound.exists_of_mem_keys (h : r.IsSound) (hk : k ∈ r.keys) :
    ∃ e ∈ r.infos, e.key = k := by
  rw [h.keyed] at hk
  exact mem_map.mp hk

theorem IsSound.lookup_eq_some_iff (h : r.IsSound) :
    r.byNumber.lookup k = some e ↔ e ∈ r.infos ∧ e.key = k := by
  rw [lookup_eq_some_iff_mem h.distinct]
  have hkeyed := h.keyed
  simp only [keys, infos, map_map, map_inj_left, Function.comp_apply] at hkeyed
  constructor
  · intro hmem
    exact ⟨mem_map_of_mem hmem, (hkeyed _ hmem).symm⟩
  · rintro ⟨he, rfl⟩
    obtain ⟨⟨k, _⟩, hmem, rfl⟩ := mem_map.mp he
    exact hkeyed _ hmem ▸ hmem

theorem IsSound.mem_toList_iff (h : r.IsSound) :
    e ∈ r.toList ↔ e ∈ r.infos ∧ (e.fullName, e.key) ∈ r.byName := by
  simp only [toList, mem_filterMap, h.lookup_eq_some_iff]
  constructor
  · rintro ⟨⟨n, _⟩, hname, he, rfl⟩
    obtain ⟨x, hx, hkey, rfl⟩ := h.named n _ hname
    -- The extension that the name leads to has the same number, and so it is the same.
    have hsame : some x = some e := by
      rw [← h.lookup_eq_some_iff.mpr ⟨hx, hkey⟩, h.lookup_eq_some_iff.mpr ⟨he, rfl⟩]
    cases hsame
    exact ⟨he, hname⟩
  · rintro ⟨he, hname⟩
    exact ⟨_, hname, he, rfl⟩

theorem IsSound.of_findNamed? (h : r.IsSound) (he : r.findNamed? n = some e) :
    e ∈ r.toList ∧ e.fullName = n := by
  obtain ⟨k, hk, hnumber⟩ := Option.bind_eq_some_iff.mp he
  have hname : (n, k) ∈ r.byName := by
    obtain ⟨before, after, hsplit, _⟩ := List.lookup_eq_some_iff.mp hk
    simp [hsplit]
  obtain ⟨x, hx, hkey, hfull⟩ := h.named n k hname
  have hsame : some x = some e := by rw [← h.lookup_eq_some_iff.mpr ⟨hx, hkey⟩, hnumber]
  cases hsame
  subst hkey hfull
  exact ⟨h.mem_toList_iff.mpr ⟨hx, hname⟩, rfl⟩

theorem mem_bind {β : Type} {key : String} {value v : β} {xs : List (String × β)} :
    ((n, v) ∈ bind key value xs → (n, v) = (key, value) ∨ (n, v) ∈ xs) ∧
      (key, value) ∈ bind key value xs ∧ (n ≠ key → (n, v) ∈ xs → (n, v) ∈ bind key value xs) := by
  induction xs with
  | nil => simp [bind]
  | cons entry rest ih =>
    obtain ⟨k, w⟩ := entry
    obtain ⟨hold, hnew, hkept⟩ := ih
    rw [bind]
    by_cases hk : k = key
    · subst hk
      rw [if_pos rfl]
      refine ⟨?_, by simp, ?_⟩
      · intro h
        rcases mem_cons.mp h with h | h
        · exact .inl h
        · exact .inr (by simp [h])
      · intro hne h
        rcases mem_cons.mp h with h | h
        · cases h
          exact absurd rfl hne
        · simp [h]
    · rw [if_neg hk]
      refine ⟨?_, by simp [hnew], ?_⟩
      · intro h
        rcases mem_cons.mp h with h | h
        · exact .inr (by simp [h])
        · exact (hold h).imp id fun h => by simp [h]
      · intro hne h
        rcases mem_cons.mp h with h | h
        · simp [h]
        · simp [hkept hne h]

theorem IsSound.insert_ok (h : r.IsSound) (hx : r.insert x = .ok r') :
    r'.IsSound ∧ r'.byName = bind x.fullName x.key r.byName := by
  unfold insert at hx
  split at hx
  · cases hx
  · rename_i hnone
    cases hx
    have hinfos :
        (Registry.mk (r.byNumber ++ [(x.key, x)]) (bind x.fullName x.key r.byName)).infos =
        r.infos ++ [x] := by simp [infos]
    have hkeys : (Registry.mk (r.byNumber ++ [(x.key, x)]) (bind x.fullName x.key r.byName)).keys =
        r.keys ++ [x.key] := by simp [keys]
    refine ⟨⟨?_, ?_, ?_⟩, rfl⟩
    · have hkeyed := h.keyed
      exact hkeys.trans (by rw [hkeyed]; exact (by simp [infos]))
    · refine (congrArg Nodup hkeys).mpr ?_
      rw [nodup_append]
      refine ⟨h.distinct, by simp, ?_⟩
      intro k hk k' hk' heq
      cases mem_singleton.mp hk'
      obtain ⟨e, he, hkey⟩ := h.exists_of_mem_keys hk
      have hfound := h.lookup_eq_some_iff.mpr ⟨he, hkey.trans heq⟩
      have hmissing : r.byNumber.lookup x.key = none := hnone
      rw [hmissing] at hfound
      cases hfound
    · intro n k hname
      refine (congrArg (fun xs => ∃ e ∈ xs, e.key = k ∧ e.fullName = n) hinfos).mpr ?_
      rcases mem_bind.1 hname with heq | hold
      · cases heq
        exact ⟨x, by simp, rfl, rfl⟩
      · obtain ⟨e, he, hkey, hfull⟩ := h.named n k hold
        exact ⟨e, by simp [he], hkey, hfull⟩

theorem IsSound.insert_error (h : r.IsSound) (hx : r.insert x = .error e) :
    e ∈ r.infos ∧ e.key = x.key := by
  unfold insert at hx
  split at hx
  · rename_i existing hfound
    cases hx
    exact h.lookup_eq_some_iff.mp hfound
  · cases hx

/-- A registry whose extensions have a property. Those that stand out among the ones with the
property are listed. -/
structure Lists (P : ExtensionInfo → Prop) (r : Registry) : Prop where
  sound : r.IsSound
  holds : ∀ e ∈ r.infos, P e
  listed : ∀ e, e.StandsOut P → e ∈ r.infos → e ∈ r.toList

theorem lists_empty : Lists P .empty :=
  ⟨isSound_empty, by simp [infos, empty], by simp [infos, empty]⟩

theorem Lists.of_mem_toList (h : Lists P r) (he : e ∈ r.toList) : P e :=
  h.holds e (h.sound.mem_toList_iff.mp he).1

theorem infos_insert (hok : r.insert x = .ok r') : r'.infos = r.infos ++ [x] := by
  unfold insert at hok
  split at hok
  · cases hok
  · cases hok
    simp [infos]

theorem mem_infos_insertAll (he : e ∈ r.infos) (xs : List ExtensionInfo) :
    e ∈ (r.insertAll xs).1.infos := by
  induction xs generalizing r with
  | nil => exact he
  | cons x xs ih =>
    rw [insertAll]
    cases hinsert : r.insert x with
    | error y => exact ih he
    | ok r' => exact ih (by simp [infos_insert hinsert, he])

theorem Lists.insert (h : Lists P r) (hx : P x) (hok : r.insert x = .ok r') : Lists P r' := by
  obtain ⟨hsound, hbyName⟩ := h.sound.insert_ok hok
  have hinfos := infos_insert hok
  refine ⟨hsound, ?_, ?_⟩
  · rw [hinfos]
    exact forall_mem_append.mpr ⟨h.holds, by simpa using hx⟩
  · intro e hout he
    refine hsound.mem_toList_iff.mpr ⟨he, ?_⟩
    rw [hbyName]
    by_cases heq : x = e
    · subst heq
      exact (mem_bind (n := "") (v := x.key)).2.1
    · rw [hinfos] at he
      have hold : e ∈ r.infos := by
        rcases mem_append.mp he with he | he
        · exact he
        · exact absurd (mem_singleton.mp he).symm heq
      have hname := (h.sound.mem_toList_iff.mp (h.listed e hout hold)).2
      exact mem_bind.2.2 (fun hsame => heq (hout x hx (.inr hsame.symm))) hname

def merge (r : Registry) (x : ExtensionInfo) : Registry :=
  if (r.findNamed? x.fullName).isSome then r else (r.insert x).toOption.getD r

theorem Lists.merge (h : Lists P r) (hx : P x) :
    Lists P (r.merge x) ∧ (∀ y ∈ r.infos, y ∈ (r.merge x).infos) ∧
      (x.StandsOut P → x ∈ (r.merge x).infos) := by
  unfold Registry.merge
  by_cases hnamed : (r.findNamed? x.fullName).isSome = true
  · rw [if_pos hnamed]
    refine ⟨h, fun _ hy => hy, ?_⟩
    intro hout
    obtain ⟨y, hy⟩ := Option.isSome_iff_exists.mp hnamed
    obtain ⟨hlisted, hname⟩ := h.sound.of_findNamed? hy
    have hin := (h.sound.mem_toList_iff.mp hlisted).1
    exact hout y (h.holds y hin) (.inr hname) ▸ hin
  · rw [if_neg hnamed]
    cases hinsert : r.insert x with
    | error y =>
      refine ⟨h, fun _ hy => hy, ?_⟩
      intro hout
      obtain ⟨hin, hkey⟩ := h.sound.insert_error hinsert
      exact hout y (h.holds y hin) (.inl hkey) ▸ hin
    | ok r' =>
      have hinfos : ((.ok r' : Except ExtensionInfo Registry).toOption.getD r).infos =
        r.infos ++ [x] := infos_insert hinsert
      rw [hinfos]
      exact ⟨h.insert hx hinsert, fun y hy => by simp [hy], by simp⟩

theorem Lists.foldl_merge (h : Lists P r) (hxs : ∀ x ∈ xs, P x) :
    Lists P (xs.foldl .merge r) ∧ (∀ y ∈ r.infos, y ∈ (xs.foldl .merge r).infos) ∧
      ∀ e ∈ xs, e.StandsOut P → e ∈ (xs.foldl .merge r).infos := by
  induction xs generalizing r with
  | nil => exact ⟨h, fun _ hy => hy, by simp⟩
  | cons x xs ih =>
    obtain ⟨hx, hrest⟩ := forall_mem_cons.mp hxs
    obtain ⟨hstep, hkept, hnew⟩ := h.merge hx
    obtain ⟨hlists, hkept', hnew'⟩ := ih hstep hrest
    refine ⟨hlists, fun y hy => hkept' y (hkept y hy), forall_mem_cons.mpr ⟨?_, hnew'⟩⟩
    intro hout
    exact hkept' x (hnew hout)

theorem Lists.insertAll (h : Lists P r) (hxs : ∀ x ∈ xs, P x) :
    Lists P (r.insertAll xs).1 ∧ ∀ x ∈ xs, x.key ∈ (r.insertAll xs).1.keys ∧
      (x.StandsOut P → x ∈ (r.insertAll xs).1.infos) := by
  induction xs generalizing r with
  | nil => exact ⟨h, by simp⟩
  | cons x xs ih =>
    obtain ⟨hx, hrest⟩ := forall_mem_cons.mp hxs
    rw [insertAll]
    cases hinsert : r.insert x with
    | error y =>
      obtain ⟨hlists, hadded⟩ := ih h hrest
      obtain ⟨hin, hkey⟩ := h.sound.insert_error hinsert
      have hstays := mem_infos_insertAll hin xs
      refine ⟨hlists, forall_mem_cons.mpr ⟨⟨?_, ?_⟩, hadded⟩⟩
      · rw [← hkey]
        exact hlists.sound.mem_keys hstays
      · intro hout
        exact hout y (h.holds y hin) (.inl hkey) ▸ hstays
    | ok r' =>
      obtain ⟨hlists, hadded⟩ := ih (h.insert hx hinsert) hrest
      have hstays : x ∈ (r'.insertAll xs).1.infos :=
        mem_infos_insertAll (by simp [infos_insert hinsert]) xs
      exact ⟨hlists, forall_mem_cons.mpr ⟨⟨hlists.sound.mem_keys hstays, fun _ => hstays⟩, hadded⟩⟩

end Registry

namespace LinkedFile

variable {f d : LinkedFile} {e : ExtensionInfo}

/-- A file that is linked to linked files, with the registry put together from theirs. -/
inductive IsLinked : LinkedFile → Prop
  | of (proto : FileDescriptor) {dependencies : List LinkedFile}
    (h : ∀ d ∈ dependencies, IsLinked d) : IsLinked (.link proto dependencies)

def SeesExtension (f : LinkedFile) (e : ExtensionInfo) : Prop :=
  ∃ d, f.Sees d ∧ e ∈ d.proto.extensionInfos

/-- An extension is declared in the file or in one that it sees. -/
def Knows (f : LinkedFile) (e : ExtensionInfo) : Prop :=
  e ∈ f.proto.extensionInfos ∨ f.SeesExtension e

def seenExtensions (dependencies : List LinkedFile) : List ExtensionInfo :=
  dependencies.flatMap fun d =>
    d.registry.toList.filter fun e => ((visible dependencies).map name).contains e.file

def importedRegistry (dependencies : List LinkedFile) : Registry :=
  (seenExtensions dependencies).foldl Registry.merge .empty

theorem registryOf_eq (proto : FileDescriptor) (dependencies : List LinkedFile) :
    registryOf proto dependencies =
      (importedRegistry dependencies).insertAll proto.extensionInfos :=
  rfl

theorem IsLinked.dependencies (h : f.IsLinked) : ∀ d ∈ f.dependencies, d.IsLinked := by
  cases h with
  | of _ hdependencies => exact hdependencies

theorem IsLinked.registry_eq (h : f.IsLinked) :
    f.registry = (registryOf f.proto f.dependencies).1 := by
  cases h
  rfl

theorem seesExtension_of_mem (hf : f.IsCoherent)
    (hlists : ∀ d ∈ f.dependencies, d.registry.Lists d.Knows)
    (he : e ∈ seenExtensions f.dependencies) : f.SeesExtension e := by
  obtain ⟨d, hd, he⟩ := mem_flatMap.mp he
  obtain ⟨hlisted, hfile⟩ := mem_filter.mp he
  obtain ⟨z, hz, hname⟩ := mem_map.mp (contains_iff_mem.mp hfile)
  have hsees := sees_of_mem_visible hz
  -- The file that declares it has a name that is seen, so it is the file seen under that name.
  have hdeclared {w : LinkedFile} (hw : f.Reaches w) (he : e ∈ w.proto.extensionInfos) :
      f.SeesExtension e := by
    have hsame : z = w :=
      hf z w hsees.reaches hw (hname.trans (FileDescriptor.file_of_mem_extensionInfos he))
    exact ⟨w, hsame ▸ hsees, he⟩
  rcases (hlists d hd).of_mem_toList hlisted with hown | ⟨w, hw, hseen⟩
  · exact hdeclared (.single hd) hown
  · exact hdeclared (.head hd hw.reaches) hseen

theorem IsLinked.lists (h : f.IsLinked) (hf : f.IsCoherent) : f.registry.Lists f.Knows := by
  induction h with
  | @of proto dependencies hdependencies ih =>
    have hseen : ∀ x ∈ seenExtensions dependencies, (link proto dependencies).Knows x :=
      fun x hx => .inr (seesExtension_of_mem hf
        (fun d hd => ih d hd (hf.of_reaches (.single hd))) hx)
    exact ((Registry.lists_empty.foldl_merge hseen).1.insertAll fun x hx => .inl hx).1

namespace IsLinked

variable (h : f.IsLinked) (hf : f.IsCoherent)
include h hf

theorem seesExtension {x : ExtensionInfo} (hx : x ∈ seenExtensions f.dependencies) :
    f.SeesExtension x :=
  seesExtension_of_mem hf (fun d hd => (h.dependencies d hd).lists (hf.of_reaches (.single hd))) hx

theorem registers_own (he : e ∈ f.proto.extensionInfos) :
    e.key ∈ f.registry.keys ∧ (e.StandsOut f.Knows → e ∈ f.registry.infos) := by
  have hseen : ∀ x ∈ seenExtensions f.dependencies, f.Knows x :=
    fun x hx => .inr (h.seesExtension hf hx)
  rw [h.registry_eq]
  exact ((Registry.lists_empty.foldl_merge hseen).1.insertAll fun x hx => .inl hx).2 e he

theorem mem_imported (he : e ∈ seenExtensions f.dependencies)
    (hout : e.StandsOut f.SeesExtension) : e ∈ (importedRegistry f.dependencies).infos :=
  (Registry.lists_empty.foldl_merge fun _ hx => h.seesExtension hf hx).2.2 e he hout

end IsLinked

theorem mem_seenExtensions (hf : f.IsCoherent) (hd : d ∈ f.dependencies)
    (hlisted : e ∈ d.registry.toList) {w : LinkedFile} (hw : f.Sees w)
    (he : e ∈ w.proto.extensionInfos) : e ∈ seenExtensions f.dependencies := by
  refine mem_flatMap.mpr ⟨d, hd, mem_filter.mpr ⟨hlisted, ?_⟩⟩
  rw [FileDescriptor.file_of_mem_extensionInfos he]
  exact contains_iff_mem.mpr (mem_map_of_mem ((mem_visible_iff hf).mpr hw))

/-- An extension is handed on along public imports, as long as it stands out in every file on the
way. -/
theorem IsLinked.mem_toList_of_reexports (h : f.IsLinked) (hf : f.IsCoherent) (hd : f.Reexports d)
    (he : e ∈ d.proto.extensionInfos) (hout : ∀ m, f.Reexports m → e.StandsOut m.Knows) :
    e ∈ f.registry.toList := by
  induction hd using Relation.ReflTransGen.head_induction_on with
  | refl => exact (h.lists hf).listed e (hout _ .refl) ((h.registers_own hf he).2 (hout _ .refl))
  | @head f m hstep hrest ih =>
    have hm := mem_dependencies_of_mem_publicDependencies hstep
    have hlisted :=
      ih (h.dependencies m hm) (hf.of_reaches (.single hm)) fun x hx => hout x (.head hstep hx)
    have hseen := mem_seenExtensions hf hm hlisted ⟨m, hm, hrest⟩ he
    have hknown := hout f .refl
    refine (h.lists hf).listed e hknown ?_
    rw [h.registry_eq]
    refine Registry.mem_infos_insertAll (h.mem_imported hf hseen ?_) _
    intro x hx
    exact hknown x (.inr hx)

/-- Each extension that is seen stands out among those known to the files that are seen. -/
def SeesDistinctly (f : LinkedFile) : Prop :=
  ∀ e, f.SeesExtension e → ∀ m, f.Sees m → e.StandsOut m.Knows

theorem IsLinked.mem_imported_of_seen (h : f.IsLinked) (hf : f.IsCoherent)
    (hdistinct : f.SeesDistinctly) (he : f.SeesExtension e) :
    e ∈ (importedRegistry f.dependencies).infos := by
  have hout := hdistinct e he
  obtain ⟨d, hd, hdeclared⟩ := he
  have hsees := hd
  obtain ⟨m, hm, hreexports⟩ := hd
  have hlisted :=
    (h.dependencies m hm).mem_toList_of_reexports (hf.of_reaches (.single hm)) hreexports
    hdeclared fun x hx => hout x ⟨m, hm, hx⟩
  have hseen := mem_seenExtensions hf hm hlisted hsees hdeclared
  refine h.mem_imported hf hseen ?_
  rintro x ⟨w, hw, hx⟩
  exact hout w hw x (.inl hx)

theorem IsLinked.key_mem_of_seen (h : f.IsLinked) (hf : f.IsCoherent) (hdistinct : f.SeesDistinctly)
    (he : f.SeesExtension e) : e.key ∈ f.registry.keys := by
  refine (h.lists hf).sound.mem_keys ?_
  rw [h.registry_eq]
  exact Registry.mem_infos_insertAll (h.mem_imported_of_seen hf hdistinct he) _

end LinkedFile

theorem Compiler.Builds.isLinked {c : Compiler} {name : String} (h : c.Builds name l) :
    l.IsLinked := by
  have hschema : MetaSchema.file.IsLinked := .of MetaSchema.proto (by simp)
  induction h with
  | schema _ => exact hschema
  | @file name input f l ds find hname hinput hassembled hschemaFound _ hfinish ih =>
    rcases hfinish.answered.2 with ⟨hnone, _⟩ | ⟨_, q, _, hlink⟩
    · cases hnone
    · cases hlink
      refine .of q ?_
      intro d hd
      obtain ⟨x, hx, rfl⟩ := mem_map.mp hd
      by_cases hother : x = metaSchemaFile
      · rw [hother, hschemaFound]
        exact hschema
      · exact ih x hx hother

/-- The numbers in the registry of a finished file are numbers of extensions declared in it and in
the files it sees, and its own are among them. Those of the files it sees are too, if no extension
known to one of these files has the number or the name of another one that is seen. -/
theorem registry_covers_seen {c : Compiler} (hc : c.IsAccepted) {set : FileSet} {before after : Log}
    (h : c.build before = .ok set after) {name : String} {l : LinkedFile}
    (hl : (name, l) ∈ set.files) :
    (∀ key ∈ l.registry.keys, ∃ e, l.Knows e ∧ e.key = key) ∧
    (∀ e ∈ l.proto.extensionInfos, e.key ∈ l.registry.keys) ∧
    (l.SeesDistinctly → ∀ e, l.SeesExtension e → e.key ∈ l.registry.keys) := by
  have hbuilds := Compiler.builds_of_build hc h hl
  have hlinked := hbuilds.isLinked
  have hcoherent := hbuilds.isCoherent hc
  refine ⟨?_, ?_, ?_⟩
  · intro key hkey
    have hlists := hlinked.lists hcoherent
    obtain ⟨e, he, rfl⟩ := hlists.sound.exists_of_mem_keys hkey
    exact ⟨e, hlists.holds e he, rfl⟩
  · intro e he
    exact (hlinked.registers_own hcoherent he).1
  · intro hdistinct e he
    exact hlinked.key_mem_of_seen hcoherent hdistinct he

namespace Reexported

def compiler : Compiler := .ofTexts {} [
  ("a.proto", "message M { extensions 1 to 9; } extend M { optional int32 x = 1; }"),
  ("b.proto", "import public \"a.proto\";"),
  ("c.proto", "import \"b.proto\";")]

/-- The extensions known to the files that are seen are declared in one file, which has one. -/
def seesOne (l : LinkedFile) : Bool :=
  (LinkedFile.visible l.dependencies).all fun m => (m ::
      LinkedFile.visible m.dependencies).all fun w =>
    w.proto.extensionInfos.isEmpty || w.name == "a.proto" && w.proto.extensionInfos.length == 1

theorem seesDistinctly (hl : l.IsCoherent) (h : seesOne l = true) : l.SeesDistinctly := by
  have hone {m w : LinkedFile} (hm : l.Sees m) (hw : w = m ∨ m.Sees w) {x : ExtensionInfo}
      (hx : x ∈ w.proto.extensionInfos) :
      w.name = "a.proto" ∧ l.Reaches w ∧ w.proto.extensionInfos = [x] := by
    have hmem : w ∈ m :: LinkedFile.visible m.dependencies := by
      rcases hw with rfl | hw
      · simp
      · exact mem_cons_of_mem _ ((LinkedFile.mem_visible_iff (hl.of_reaches hm.reaches)).mpr hw)
    have hreaches : l.Reaches w := by
      rcases hw with rfl | hw
      · exact hm.reaches
      · exact hm.reaches.trans hw.reaches
    have hcheck :=
      all_eq_true.mp (all_eq_true.mp h m ((LinkedFile.mem_visible_iff hl).mpr hm)) w hmem
    have hne : w.proto.extensionInfos ≠ [] := ne_nil_of_mem hx
    simp only [Bool.or_eq_true, List.isEmpty_iff, hne, false_or, Bool.and_eq_true,
      beq_iff_eq] at hcheck
    obtain ⟨y, hy⟩ := length_eq_one_iff.mp hcheck.2
    rw [hy] at hx ⊢
    cases mem_singleton.mp hx
    exact ⟨hcheck.1, hreaches, rfl⟩
  rintro e ⟨d, hd, he⟩ m hm x hx -
  obtain ⟨hname, hreaches, honly⟩ := hone hd (.inl rfl) he
  have hfile : ∃ w, (w = m ∨ m.Sees w) ∧ x ∈ w.proto.extensionInfos := by
    rcases hx with hx | ⟨w, hw, hx⟩
    · exact ⟨m, .inl rfl, hx⟩
    · exact ⟨w, .inr hw, hx⟩
  obtain ⟨w, hw, hx⟩ := hfile
  obtain ⟨hname', hreaches', _⟩ := hone hm hw hx
  rw [hl w d hreaches' hreaches (hname'.trans hname.symm), honly] at hx
  exact mem_singleton.mp hx

set_option maxRecDepth 100000 in
theorem registry_covers_seen_reexported :
    ∃ set after l, compiler.build .empty = .ok set after ∧ ("c.proto", l) ∈ set.files ∧
      l.SeesDistinctly ∧ ∃ e, l.SeesExtension e ∧ e.key = ("M", 1) ∧ e.key ∈ l.registry.keys := by
  have hcheck : (compiler.returned? "c.proto").any (fun l => seesOne l &&
      (LinkedFile.visible l.dependencies).any fun d => d.proto.extensionInfos.any fun e =>
        e.key == ("M", 1)) = true := by decide +kernel
  obtain ⟨l, hl, hcheck⟩ := (Option.any_eq_true _ _).mp hcheck
  obtain ⟨hone, hseen⟩ := Bool.and_eq_true_iff.mp hcheck
  obtain ⟨d, hd, he⟩ := any_eq_true.mp hseen
  obtain ⟨e, he, hkey⟩ := any_eq_true.mp he
  obtain ⟨set, after, hbuild, hmem⟩ := Compiler.mem_of_returned? hl
  have hc : compiler.IsAccepted := Compiler.isAccepted_ofTexts {} (by decide)
  have hdistinct := seesDistinctly ((Compiler.builds_of_build hc hbuild hmem).isCoherent hc) hone
  have hsees : l.SeesExtension e := ⟨d, LinkedFile.sees_of_mem_visible hd, he⟩
  exact ⟨set, after, l, hbuild, hmem, hdistinct, e, hsees, beq_iff_eq.mp hkey,
    (registry_covers_seen hc hbuild hmem).2.2 hdistinct e hsees⟩

end Reexported

namespace Hidden

/-- A file that sees the second of two extensions with one number, through a file that sees both. -/
def compiler : Compiler := .ofTexts {} [
  ("b.proto", "message M { extensions 1 to 9; }"),
  ("x.proto", "import \"b.proto\"; extend M { optional int32 x = 1; }"),
  ("y.proto", "import \"b.proto\"; extend M { optional int32 y = 1; }"),
  ("d.proto", "import \"x.proto\"; import public \"y.proto\";"),
  ("f.proto", "import \"d.proto\";")]

set_option maxRecDepth 100000 in
theorem seen_extension_missing :
    ∃ set after l e, compiler.build .empty = .ok set after ∧ ("f.proto", l) ∈ set.files ∧
      l.SeesExtension e ∧ e.key ∉ l.registry.keys := by
  have hcheck : (compiler.returned? "f.proto").any (fun l =>
      (LinkedFile.visible l.dependencies).any fun d => d.proto.extensionInfos.any fun e =>
        !l.registry.keys.contains e.key) = true := by decide +kernel
  obtain ⟨l, hl, hmissing⟩ := (Option.any_eq_true _ _).mp hcheck
  obtain ⟨set, after, hbuild, hmem⟩ := Compiler.mem_of_returned? hl
  obtain ⟨d, hd, hmissing⟩ := any_eq_true.mp hmissing
  obtain ⟨e, he, hmissing⟩ := any_eq_true.mp hmissing
  refine ⟨set, after, l, e, hbuild, hmem, ⟨d, LinkedFile.sees_of_mem_visible hd, he⟩, ?_⟩
  simpa using hmissing

end Hidden

end ProtobufSchema

import ProtobufSchema.Proofs.OptionTypes
import ProtobufSchema.Proofs.SeenExtensions

/-! A name in parentheses leads to an extension that is declared or seen; reading by numbers finds
the same one where numbers are distinct. -/

namespace ProtobufSchema

open List ExtensionInfo MessageDescriptor

variable {g : String → FieldDescriptor → FieldDescriptor} {full : String}

namespace Registry

variable {r r' : Registry} {x : ExtensionInfo} {xs : List ExtensionInfo}

theorem IsSound.keys_insert (h : r.IsSound) (hx : r.insert x = .ok r') :
    r'.keys = r.keys ++ [x.key] := by
  rw [(h.insert_ok hx).1.keyed, infos_insert hx, map_append, ← h.keyed]
  rfl

theorem IsSound.refused_eq_nil_iff (h : r.IsSound) :
    (r.insertAll xs).2 = [] ↔ (r.keys ++ xs.map key).Nodup := by
  induction xs generalizing r with
  | nil => simpa [insertAll] using h.distinct
  | cons x xs ih =>
    rw [insertAll]
    cases hinsert : r.insert x with
    | error y =>
      obtain ⟨hy, hkey⟩ := h.insert_error hinsert
      have htaken : x.key ∈ r.keys := hkey ▸ h.mem_keys hy
      refine iff_of_false (by simp) ?_
      intro hnodup
      exact disjoint_of_nodup_append hnodup htaken (by simp)
    | ok r' =>
      have hkeys := h.keys_insert hinsert
      rw [ih (h.insert_ok hinsert).1, hkeys, append_assoc]
      rfl

theorem mem_infos_of_refused_eq_nil (h : (r.insertAll xs).2 = []) (hx : x ∈ xs) :
    x ∈ (r.insertAll xs).1.infos := by
  induction xs generalizing r with
  | nil => cases hx
  | cons y ys ih =>
    rw [insertAll] at h ⊢
    cases hinsert : r.insert y with
    | error z =>
      rw [hinsert] at h
      cases h
    | ok r' =>
      rw [hinsert] at h
      rcases mem_cons.mp hx with rfl | hx
      · exact mem_infos_insertAll (by simp [infos_insert hinsert]) ys
      · exact ih h hx

end Registry

/-! ### What a file declares -/

namespace MessageDescriptor

variable {x : FieldDescriptor}
variable {path : Path}

theorem exists_info_of_nestedAt? {m y : MessageDescriptor} (h : m.nestedAt? path = some y)
    (hx : x ∈ y.extensions) (scope file : String) :
    ∃ full, ofField full x file ∈ m.extensionInfos scope file := by
  fun_induction nestedAt? m path generalizing scope with
  | case1 =>
    cases h
    cases y
    simp only [extensionInfos, mem_append]
    exact ⟨_, .inl (mem_map_of_mem hx)⟩
  | case2 => cases h
  | case3 m i rest ih =>
    obtain ⟨inner, hinner, hy⟩ := Option.bind_eq_some_iff.mp h
    obtain ⟨j, hj, _⟩ := Path.getElem?_of_at? hinner
    cases m
    simp only [extensionInfos, nestedExtensionInfos_eq, mem_append, mem_flatMap]
    obtain ⟨full, hfull⟩ := ih inner hy _
    exact ⟨full, .inr ⟨inner, mem_of_getElem? hj, hfull⟩⟩
  | case4 => cases h

theorem extension_path (m : MessageDescriptor) (scope : String) (hpath : path ≠ []) :
    ∀ d ∈ m.definitions scope path, ∀ p, d.2 = .extension p →
      ∃ parent i, parent ≠ [] ∧ p = parent ++ [Tag.messageExtension.step, i] := by
  induction m using induction generalizing scope path with
  | _ m ih =>
    intro d hd p hp
    rcases mem_definitions.mp hd with ⟨_, x, hx, hd⟩ | hd | hd | rfl
    · exact ih x (mem_of_getElem? hx) _ (by simp) d hd p hp
    · obtain ⟨_, _, _, rfl⟩ := Definition.mem_listed.mp hd
      cases hp
    · obtain ⟨i, _, _, rfl⟩ := Definition.mem_listed.mp hd
      cases hp
      exact ⟨path, .ofNat i, hpath, rfl⟩
    · cases hp

theorem extensionKeys_mapFields
    (hg : ∀ scope x, (g scope x).extendee = x.extendee ∧ (g scope x).number = x.number)
    (m : MessageDescriptor) (scope within file : String) :
    ((m.mapFields g within).extensionInfos scope file).map key =
      (m.extensionInfos scope file).map key := by
  induction m using nesting generalizing scope within with
  | _ _ _ ih =>
    simp only [mapFields, mapNestedFields_eq, extensionInfos, nestedExtensionInfos_eq, map_append,
      map_flatMap, flatMap_map]
    congr 1
    · simp [key, ofField, hg]
    · exact flatMap_congr fun x hx => ih x hx _ _

end MessageDescriptor

namespace FileDescriptor

variable {f : FileDescriptor} {x : FieldDescriptor}

theorem exists_info_of_extensionOf? {d : Definition} (hd : (full, d) ∈ f.definitions)
    (h : f.extensionOf? d = some x) : ∃ full, ofField full x f.name ∈ f.extensionInfos := by
  cases d with
  | extension path =>
    have hplace : (∃ i, path = [Tag.fileExtension.step, i]) ∨
        ∃ parent i, parent ≠ [] ∧ path = parent ++ [Tag.messageExtension.step, i] := by
      simp only [definitions, mem_append] at hd
      rcases hd with (((hd | hd) | hd) | hd) | hd
      · obtain ⟨_, _, heq⟩ := mem_map.mp hd
        cases heq
      · obtain ⟨_, m, _, hd⟩ := mem_definitionsFrom.mp hd
        exact .inr (m.extension_path f.package (by simp) _ hd path rfl)
      · obtain ⟨_, _, heq⟩ := mem_map.mp hd
        cases heq
      · obtain ⟨_, _, heq⟩ := mem_map.mp hd
        cases heq
      · obtain ⟨⟨y, i⟩, _, heq⟩ := mem_map.mp hd
        cases heq
        exact .inl ⟨.ofNat i, rfl⟩
    simp only [extensionInfos, mem_append]
    rcases hplace with ⟨i, rfl⟩ | ⟨parent, i, hparent, rfl⟩
    · obtain ⟨j, hj, _⟩ := Path.getElem?_of_at? h
      exact ⟨_, .inl (mem_map_of_mem (mem_of_getElem? hj))⟩
    · rw [extensionOf?, fieldAt?, splitLast?_append, Option.bind_some] at h
      dsimp only at h
      rw [if_neg hparent] at h
      obtain ⟨y, hy, h⟩ := Option.bind_eq_some_iff.mp h
      obtain ⟨j, hj, _⟩ := Path.getElem?_of_at? h
      unfold messageAt? at hy
      split at hy
      · split at hy
        · obtain ⟨m, hm, hy⟩ := Option.bind_eq_some_iff.mp hy
          obtain ⟨k, hk, _⟩ := Path.getElem?_of_at? hm
          obtain ⟨full, hfull⟩ := exists_info_of_nestedAt? hy (mem_of_getElem? hj) f.package f.name
          rw [nestedExtensionInfos_eq]
          exact ⟨full, .inr (mem_flatMap.mpr ⟨m, mem_of_getElem? hk, hfull⟩)⟩
        · cases hy
      · cases hy
  | _ => cases h

theorem extensionKeys_mapFields
    (hg : ∀ scope x, (g scope x).extendee = x.extendee ∧ (g scope x).number = x.number)
    (f : FileDescriptor) : (f.mapFields g).extensionInfos.map key = f.extensionInfos.map key := by
  simp only [mapFields, extensionInfos, nestedExtensionInfos_eq, map_append, map_flatMap,
    flatMap_map]
  congr 1
  · simp [key, ofField, hg]
  · exact flatMap_congr fun m _ => m.extensionKeys_mapFields hg _ _ _

theorem extensionKeys_of_bare {f' : FileDescriptor} (h : f'.bare = f.bare) :
    f'.extensionInfos.map key = f.extensionInfos.map key := by
  have hkeys (f : FileDescriptor) : f.extensionInfos.map key = f.bare.extensionInfos.map key := by
    rw [f.extensionInfos_bare, map_map]
    rfl
  rw [hkeys, h, ← hkeys]

end FileDescriptor

theorem Canonicalizer.canonicalize_extensionKeys {c : Canonicalizer} {p q : FileDescriptor}
    {log log' : Log} (h : c.canonicalize p log = .ok q log') :
    q.extensionInfos.map key = (c.qualified p).extensionInfos.map key := by
  obtain ⟨file, hinterprets, hq⟩ := canonicalize_cases h
  have hfile := FileDescriptor.extensionKeys_of_bare hinterprets.bare_eq
  rcases hq with rfl | rfl
  · exact hfile
  · rw [FileDescriptor.extensionKeys_mapFields _ file, hfile]
    intro _ x
    obtain ⟨_, hx⟩ := x.exists_normalized
    rw [hx]
    exact ⟨rfl, rfl⟩

/-! ### What is registered -/

namespace LinkedFile

variable {f d : LinkedFile} {e : ExtensionInfo} {p q : FileDescriptor}
  {dependencies : List LinkedFile}

theorem IsLinked.of_reaches (h : f.IsLinked) (hd : f.Reaches d) : d.IsLinked := by
  induction hd with
  | refl => exact h
  | tail _ hstep ih => exact ih.dependencies _ hstep

theorem IsLinked.index_eq (h : f.IsLinked) : f.index = .ofFile f.proto := by
  cases h
  rfl

theorem isSound_registryOf (p : FileDescriptor) (dependencies : List LinkedFile) :
    (registryOf p dependencies).1.IsSound :=
  ((Registry.lists_empty).foldl_merge (fun _ _ => trivial)).1.insertAll (fun _ _ => trivial)
    |>.1.sound

theorem knows_of_resolveExtension? (h : f.IsLinked) {name scope : String} {x : FieldDescriptor}
    (hx : (Pool.full f).resolveExtension? name scope = some (full, x)) :
    ∃ e, f.Knows e ∧ e.field = x ∧ e.key = (x.extendee, x.number) := by
  obtain ⟨found, hfound, hx⟩ := Option.bind_eq_some_iff.mp hx
  obtain ⟨_, hx, heq⟩ := Option.map_eq_some_iff.mp hx
  cases heq
  obtain ⟨d, hd, hget, hfile⟩ := canUse_of_lookup? (Pool.lookup?_of_resolveWith? hfound).1
  have hlinked : d.IsLinked := by
    rcases hd with rfl | hd | rfl
    · exact h
    · exact h.of_reaches hd.reaches
    · exact .of MetaSchema.proto (by simp)
  rw [hlinked.index_eq, SymbolIndex.get?_ofFile] at hget
  have hmem : (found.fullName, found.definition) ∈ d.proto.definitions := by
    obtain ⟨before, after, hsplit, _⟩ := lookup_eq_some_iff.mp hget
    simp [hsplit]
  rw [← hfile] at hx
  obtain ⟨full, hinfo⟩ := FileDescriptor.exists_info_of_extensionOf? hmem hx
  refine ⟨.ofField full x d.proto.name, ?_, rfl, rfl⟩
  rcases hd with rfl | hd | rfl
  · exact .inl hinfo
  · exact .inr ⟨d, hd, hinfo⟩
  · cases hinfo

/-- While a file's options are interpreted its own extensions are registered and those it sees, if
the finished file has no number twice and sees distinctly. -/
theorem find?_of_knows (hlinked : (link q dependencies).IsLinked)
    (hcoherent : (link q dependencies).IsCoherent)
    (hdistinct : (link q dependencies).SeesDistinctly)
    (hkeys : q.extensionInfos.map key = p.extensionInfos.map key)
    (hnew : q.duplicateExtensions dependencies = []) (he : (link p dependencies).Knows e) :
    (registryOf p dependencies).1.find? e.extendee e.number = some e := by
  refine (isSound_registryOf p dependencies).lookup_eq_some_iff.mpr ⟨?_, rfl⟩
  rcases he with hown | hseen
  · have hsound : (importedRegistry dependencies).IsSound :=
      ((Registry.lists_empty).foldl_merge (fun _ _ => trivial)).1.sound
    have hquiet := map_eq_nil_iff.mp hnew
    rw [registryOf_eq, hsound.refused_eq_nil_iff, hkeys, ← hsound.refused_eq_nil_iff] at hquiet
    exact Registry.mem_infos_of_refused_eq_nil hquiet hown
  · exact Registry.mem_infos_insertAll (hlinked.mem_imported_of_seen hcoherent hdistinct hseen) _

end LinkedFile

end ProtobufSchema

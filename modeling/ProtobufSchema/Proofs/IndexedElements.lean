import ProtobufSchema.Proofs.UnambiguousNames

/-! Every full name in a file is indexed, and what a name is indexed as leads back along the names
it is made of. -/

namespace ProtobufSchema

open List
open Name (join segments)
open Definition

variable {full scope : String} {m : MessageDescriptor}

/-- The full names that a message in a scope brings: its own, and those of what is inside it. -/
inductive MessageDescriptor.Bears : MessageDescriptor → String → String → Prop
  | self (m : MessageDescriptor) (scope : String) : Bears m scope (join scope m.name)
  | nested {m x : MessageDescriptor} {scope full : String} (hx : x ∈ m.nestedTypes)
    (h : Bears x (join scope m.name) full) : Bears m scope full
  | enum {m : MessageDescriptor} {e : EnumDescriptor} (scope : String) (he : e ∈ m.enumTypes) :
    Bears m scope (join (join scope m.name) e.name)
  | extension {m : MessageDescriptor} {x : FieldDescriptor} (scope : String)
    (hx : x ∈ m.extensions) : Bears m scope (join (join scope m.name) x.name)

/-- The full names in a file: those of its packages, joined from the first segments of its package
name, and those of its elements at any depth. -/
inductive FileDescriptor.Bears (f : FileDescriptor) : String → Prop
  | package {ss : List String} (hne : ss ≠ []) (hss : ss <+: (segments f.package).filter (· ≠ "")) :
    Bears f (ss.foldl join "")
  | message {m : MessageDescriptor} {full : String} (hm : m ∈ f.messageTypes)
    (h : m.Bears f.package full) : Bears f full
  | enum {e : EnumDescriptor} (he : e ∈ f.enumTypes) : Bears f (join f.package e.name)
  | service {s : ServiceDescriptor} (hs : s ∈ f.services) : Bears f (join f.package s.name)
  | extension {x : FieldDescriptor} (hx : x ∈ f.extensions) : Bears f (join f.package x.name)

theorem Definition.exists_mem_listed {α : Type} {xs : List α} {x : α} (hx : x ∈ xs) (scope : String)
    (path : Path) (tag : Tag) (define : Path → Definition) (name : α → String) :
    ∃ d, (join scope (name x), d) ∈ listed scope path tag define name xs := by
  obtain ⟨i, hi⟩ := getElem?_of_mem hx
  exact ⟨_, mem_listed.mpr ⟨i, x, hi, rfl⟩⟩

theorem MessageDescriptor.Bears.exists_mem
    (h : m.Bears scope full) (path : Path) : ∃ d, (full, d) ∈ m.definitions scope path := by
  induction h generalizing path with
  | self m scope => exact ⟨_, mem_definitions.mpr (.inr (.inr (.inr rfl)))⟩
  | nested hx _ ih =>
    obtain ⟨j, hj⟩ := getElem?_of_mem hx
    obtain ⟨d, hd⟩ := ih (path ++ [Tag.messageNested.step, .ofNat j])
    exact ⟨d, mem_definitions.mpr (.inl ⟨j, _, hj, hd⟩)⟩
  | enum scope he =>
    obtain ⟨d, hd⟩ := exists_mem_listed he _ path .messageEnum .enum EnumDescriptor.name
    exact ⟨d, mem_definitions.mpr (.inr (.inl hd))⟩
  | extension scope hx =>
    obtain ⟨d, hd⟩ := exists_mem_listed hx _ path .messageExtension .extension FieldDescriptor.name
    exact ⟨d, mem_definitions.mpr (.inr (.inr (.inl hd)))⟩

theorem FileDescriptor.mem_packagePrefixes_of_prefix {ss all : List String} (hne : ss ≠ [])
    (hss : ss <+: all) (scope : String) : ss.foldl join scope ∈ packagePrefixes scope all := by
  induction ss generalizing all scope with
  | nil => exact absurd rfl hne
  | cons s ss ih =>
    obtain ⟨rest, rfl⟩ := hss
    rw [cons_append, packagePrefixes, mem_cons]
    by_cases hnil : ss = []
    · exact .inl (by rw [hnil]; rfl)
    · exact .inr (ih hnil (prefix_append ss rest) _)

theorem FileDescriptor.Bears.exists_mem {f : FileDescriptor} (h : f.Bears full) :
    ∃ d, (full, d) ∈ f.definitions := by
  simp only [definitions, mem_append]
  cases h with
  | package hne hss =>
    have hmem := mem_packagePrefixes_of_prefix hne hss ""
    exact ⟨_, .inl (.inl (.inl (.inl (mem_map_of_mem hmem))))⟩
  | message hm h =>
    obtain ⟨j, hj⟩ := getElem?_of_mem hm
    obtain ⟨d, hd⟩ := h.exists_mem ([] ++ [Tag.fileMessage.step, .ofNat (0 + j)])
    exact ⟨d, .inl (.inl (.inl (.inr (MessageDescriptor.mem_definitionsFrom.mpr ⟨j, _, hj, hd⟩))))⟩
  | enum he =>
    obtain ⟨d, hd⟩ := exists_mem_listed he f.package [] .fileEnum .enum EnumDescriptor.name
    exact ⟨d, .inl (.inl (.inr hd))⟩
  | service hs =>
    obtain ⟨d, hd⟩ := exists_mem_listed hs f.package [] .fileService .service ServiceDescriptor.name
    exact ⟨d, .inl (.inr hd)⟩
  | extension hx =>
    obtain ⟨d, hd⟩ :=
      exists_mem_listed hx f.package [] .fileExtension .extension FieldDescriptor.name
    exact ⟨d, .inr hd⟩

/-! ### Back along a path -/

/-- No list of messages, enums or extensions in a message is longer than positions can tell
apart. -/
inductive MessageDescriptor.HasShortLists : MessageDescriptor → Prop
  | of {m : MessageDescriptor} (hnested : m.nestedTypes.length ≤ Path.reach)
    (henums : m.enumTypes.length ≤ Path.reach) (hextensions : m.extensions.length ≤ Path.reach)
    (hinner : ∀ x ∈ m.nestedTypes, HasShortLists x) : HasShortLists m

structure FileDescriptor.HasShortLists (f : FileDescriptor) : Prop where
  messages : f.messageTypes.length ≤ Path.reach
  enums : f.enumTypes.length ≤ Path.reach
  services : f.services.length ≤ Path.reach
  extensions : f.extensions.length ≤ Path.reach
  inner : ∀ m ∈ f.messageTypes, m.HasShortLists

theorem MessageDescriptor.HasShortLists.exists_declares (hm : m.HasShortLists) {path : Path}
    {d : Definition} (h : (full, d) ∈ m.definitions scope path) :
    ∃ x, m.Declares scope path full d x := by
  induction hm generalizing scope path with
  | @of m hnested henums hextensions _ ih =>
    rcases mem_definitions.mp h with ⟨j, n, hn, h⟩ | h | h | h
    · obtain ⟨x, hx⟩ := ih n (mem_of_getElem? hn) h
      exact ⟨x, .nested (Path.at?_ofNat hnested hn) hx⟩
    · obtain ⟨i, e, he, heq⟩ := mem_listed.mp h
      cases heq
      exact ⟨_, .enum (Path.at?_ofNat henums he)⟩
    · obtain ⟨i, x, hx, heq⟩ := mem_listed.mp h
      cases heq
      exact ⟨_, .extension (Path.at?_ofNat hextensions hx)⟩
    · cases h
      exact ⟨_, .self m scope path⟩

namespace FileDescriptor

variable {f : FileDescriptor} {full : String} {d : Definition} {x : Element}

theorem HasShortLists.exists_declares (hf : f.HasShortLists) (h : (full, d) ∈ f.definitions)
    (hd : d ≠ .package) : ∃ x, f.Declares full d x := by
  simp only [definitions, mem_append] at h
  rcases h with (((h | h) | h) | h) | h
  · obtain ⟨_, _, heq⟩ := mem_map.mp h
    cases heq
    exact absurd rfl hd
  · obtain ⟨j, m, hm, h⟩ := MessageDescriptor.mem_definitionsFrom.mp h
    obtain ⟨x, hx⟩ := (hf.inner m (mem_of_getElem? hm)).exists_declares h
    rw [zero_add] at hx
    exact ⟨x, .message (Path.at?_ofNat hf.messages hm) hx⟩
  · obtain ⟨i, e, he, heq⟩ := mem_listed.mp h
    cases heq
    exact ⟨_, .enum (Path.at?_ofNat hf.enums he)⟩
  · obtain ⟨i, s, hs, heq⟩ := mem_listed.mp h
    cases heq
    exact ⟨_, .service (Path.at?_ofNat hf.services hs)⟩
  · obtain ⟨i, x, hx, heq⟩ := mem_listed.mp h
    cases heq
    exact ⟨_, .extension (Path.at?_ofNat hf.extensions hx)⟩

theorem Declares.kind (h : f.Declares full d x) : (∃ p m, d = .message p ∧ x = .message m) ∨
    (∃ p e, d = .enum p ∧ x = .enum e) ∨ (∃ p s, d = .service p ∧ x = .service s) ∨
      ∃ p y, d = .extension p ∧ x = .field y := by
  cases h with
  | message _ hy =>
    obtain ⟨_, _, _, ⟨rfl, rfl⟩ | ⟨_, _, _, rfl, rfl⟩ | ⟨_, _, _, rfl, rfl⟩⟩ := hy.found
    · exact .inl ⟨_, _, rfl, rfl⟩
    · exact .inr (.inl ⟨_, _, rfl, rfl⟩)
    · exact .inr (.inr (.inr ⟨_, _, rfl, rfl⟩))
  | enum _ => exact .inr (.inl ⟨_, _, rfl, rfl⟩)
  | service _ => exact .inr (.inr (.inl ⟨_, _, rfl, rfl⟩))
  | extension _ => exact .inr (.inr (.inr ⟨_, _, rfl, rfl⟩))

/-- Every full name in a file is defined in its index. What is defined as a message, enum or
extension is found at the place that the index gives, is declared there under the full name, and is
what the file's types find under it. -/
theorem index_correct (f : FileDescriptor) (dependencies : List LinkedFile) :
    (∀ full, f.Bears full → ((SymbolIndex.ofFile f).get? full).isSome) ∧
    (f.HasShortLists →
      (∀ full path, (SymbolIndex.ofFile f).get? full = some (.message path) → ∃ m,
        f.messageAt? path = some m ∧ f.Declares full (.message path) (.message m) ∧
        (LinkedFile.link f dependencies).types.message? full = some m) ∧
      (∀ full path, (SymbolIndex.ofFile f).get? full = some (.enum path) → ∃ e,
        f.enumAt? path = some e ∧ f.Declares full (.enum path) (.enum e) ∧
        (LinkedFile.link f dependencies).types.enum? full = some e) ∧
      ∀ full path, (SymbolIndex.ofFile f).get? full = some (.extension path) → ∃ x,
        f.fieldAt? path = some x ∧ f.Declares full (.extension path) (.field x) ∧
        (LinkedFile.link f dependencies).types.extension? full = some x) := by
  have hmem {full : String} {d : Definition} (h : (SymbolIndex.ofFile f).get? full = some d) :
      (full, d) ∈ f.definitions := by
    rw [SymbolIndex.get?_ofFile] at h
    obtain ⟨before, after, hsplit, _⟩ := List.lookup_eq_some_iff.mp h
    simp [hsplit]
  refine ⟨fun full h => ?_,
    fun hf => ⟨fun full path h => ?_, fun full path h => ?_, fun full path h => ?_⟩⟩
  · obtain ⟨d, hd⟩ := h.exists_mem
    rw [SymbolIndex.get?_ofFile, Option.isSome_iff_ne_none, ne_eq, lookup_eq_none_iff]
    intro hnone
    simpa using hnone _ hd
  all_goals
    obtain ⟨x, hx⟩ := hf.exists_declares (hmem h) Definition.noConfusion
    obtain ⟨_, _, ⟨⟩, rfl⟩ | ⟨_, _, ⟨⟩, rfl⟩ | ⟨_, _, ⟨⟩, rfl⟩ | ⟨_, _, ⟨⟩, rfl⟩ := hx.kind
    refine ⟨_, hx.findsAt, hx, ?_⟩
    simp only [LinkedFile.types, LinkedFile.link, h, Option.bind_some]
    exact hx.findsAt

namespace Repeated

def unnamed : MessageDescriptor :=
  ⟨none, [], [], [], [{ name? := some "E.F" }], [], [], none, [], []⟩

/-- The message stands in one of two that are called alike. -/
def file : FileDescriptor where
  package? := some "p"
  messageTypes := [⟨some "M", [], [], [unnamed], [], [], [], none, [], []⟩,
    ⟨some "M", [], [], [], [], [], [], none, [], []⟩]

theorem index_correct_repeated : file.HasShortLists ∧
    (SymbolIndex.ofFile file).get? "p.M" = some (.message [4, 0]) ∧
    (SymbolIndex.ofFile file).get? "p.M..E.F" = some (.enum [4, 0, 3, 0, 4, 0]) ∧
    ∃ m e, (LinkedFile.link file []).types.message? "p.M" = some m ∧
    file.enumAt? [4, 0, 3, 0, 4, 0] = some e ∧
      (LinkedFile.link file []).types.enum? "p.M..E.F" = some e := by
  have hunnamed : unnamed.HasShortLists :=
    .of (by decide) (by decide) (by decide) (forall_mem_nil _)
  have hlists : file.HasShortLists :=
    ⟨by decide, by decide, by decide, by decide, forall_mem_cons.mpr
      ⟨.of (by decide) (by decide) (by decide) (forall_mem_singleton.mpr hunnamed),
        forall_mem_singleton.mpr (.of (by decide) (by decide) (by decide) (forall_mem_nil _))⟩⟩
  have hmessage : (SymbolIndex.ofFile file).get? "p.M" = some (.message [4, 0]) := by decide +kernel
  have henum : (SymbolIndex.ofFile file).get? "p.M..E.F" = some (.enum [4, 0, 3, 0, 4, 0]) := by
    decide +kernel
  obtain ⟨_, hfound⟩ := index_correct file []
  obtain ⟨hmessages, henums, _⟩ := hfound hlists
  obtain ⟨m, _, _, hm⟩ := hmessages _ _ hmessage
  obtain ⟨e, hat, _, he⟩ := henums _ _ henum
  exact ⟨hlists, hmessage, henum, m, e, hm, hat, he⟩

end Repeated

end FileDescriptor

end ProtobufSchema

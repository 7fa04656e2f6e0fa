import ProtobufSchema.Proofs.AssembledContents
import ProtobufSchema.Proofs.LocalNames

/-! Every text of an assembled file that names a type is the full name of a symbol of the file, or
belongs to one reference that is left. -/

namespace ProtobufSchema

open List

namespace Use

variable (path : Path)

def texts (path : Path) (u : Use) : List (Path × ReferenceKind × String) :=
  ReferenceKind.all.filterMap fun kind => (u.name? kind).map fun text => (path, kind, text)

theorem texts_field (type? : Option FieldType) (typeName? extendee? : Option String) :
    (field type? typeName? extendee?).texts path =
      (typeName?.map fun text => (path, .fieldType, text)).toList ++
      (extendee?.map fun text => (path, .extendee, text)).toList := by
  cases typeName? <;> cases extendee? <;> rfl

theorem texts_method (input? output? : Option String) :
    (method input? output?).texts path =
      (input?.map fun text => (path, .methodInput, text)).toList ++
      (output?.map fun text => (path, .methodOutput, text)).toList := by
  cases input? <;> cases output? <;> rfl

end Use

/-- The texts of a file that name types: the path of the field or method, what is named, and the
text. -/
def FileDescriptor.texts (f : FileDescriptor) : List (Path × ReferenceKind × String) :=
  f.sites.flatMap fun (path, u) => u.texts path

/-- The kind of the symbol of the file itself that a text is the full name of, with a dot in front,
if the kind is acceptable. -/
def FileDescriptor.settled? (f : FileDescriptor) (kind : ReferenceKind) (text : String) :
    Option SymbolKind :=
  ((Name.absolute? text).bind f.symbolKind?).filter kind.accepts

/-- A type goes with its name: that of a symbol of the file says which it is, and as long as the
name is any other the type is not known. -/
inductive Use.IsTyped (settled? : ReferenceKind → String → Option SymbolKind) : Use → Prop
  | scalar {type : FieldType} (htype : type.isScalar = true) (extendee? : Option String) :
    IsTyped settled? (.field (some type) none extendee?)
  | message {type : FieldType} {text : String} (htype : type.isMessage = true)
    (h : settled? .fieldType text = some .message) (extendee? : Option String) :
    IsTyped settled? (.field (some type) (some text) extendee?)
  | enum {text : String} (h : settled? .fieldType text = some .enum) (extendee? : Option String) :
    IsTyped settled? (.field (some .enum) (some text) extendee?)
  | unknown {text : String} (h : settled? .fieldType text = none) (extendee? : Option String) :
    IsTyped settled? (.field none (some text) extendee?)
  | method (input output : String) : IsTyped settled? (.method (some input) (some output))

section Settled

variable {f : FileDescriptor} {m : Mention}

theorem FileDescriptor.settled?_congr {f' : FileDescriptor} (h : f'.definitions = f.definitions) :
    f'.settled? = f.settled? := by
  have hindex : SymbolIndex.ofFile f' = .ofFile f := by
    rw [SymbolIndex.ofFile, SymbolIndex.ofFile, h]
  have hkind : f'.symbolKind? = f.symbolKind? := by
    funext full
    rw [symbolKind?, symbolKind?, hindex]
  funext kind text
  rw [settled?, settled?, hkind]

theorem Mention.settled?_of_own? {x : String × SymbolKind} (h : m.own? f = some x) :
    f.settled? m.kind (Name.qualify x.1) = some x.2 := by
  obtain ⟨hkind, haccepts⟩ := own?_eq_some h
  rw [FileDescriptor.settled?, Name.absolute?_qualify, Option.bind_some, hkind]
  exact Option.filter_eq_some_iff.mpr ⟨rfl, haccepts⟩

theorem Mention.settled?_of_not_own? (h : m.own? f = none) : f.settled? m.kind m.name = none := by
  unfold own? FileDescriptor.ownSymbol? at h
  unfold FileDescriptor.settled?
  cases hname : Name.absolute? m.name with
  | none => rfl
  | some full =>
    rw [hname] at h
    cases hkind : f.symbolKind? full with
    | none => simp [hkind]
    | some kind => simpa using h

end Settled

namespace Placed

variable {f : FileDescriptor} {w : Placed Use}

/-- Of a name that was written a reference is left exactly if the text that stands there now is not
settled. -/
theorem open_text (kind : ReferenceKind) (name? : Option String) :
    ((((((w.mention? kind name?).bind (Mention.own? f)).map fun x => Name.qualify x.1).or name?).map
        fun text => (w.path, kind, text)).toList.filter fun s => (f.settled? s.2.1 s.2.2).isNone) =
      ((w.mention? kind name?).toList.filter fun m => (m.own? f).isNone).map
        fun m => (m.path, m.kind, m.name) := by
  cases name? with
  | none => rfl
  | some name =>
    rw [mention?]
    cases hown : Mention.own? f ⟨w.path, kind, w.written, name⟩ with
    | none =>
      have hsettled := Mention.settled?_of_not_own? hown
      simp [hown, hsettled]
    | some x =>
      have hsettled := Mention.settled?_of_own? hown
      simp [hown, hsettled]

variable {l : Ledger} (hl : l.Describes f)
include hl

theorem settled?_made {node : Nat} (hnode : l.symbols.kind? node = some .message) :
    f.settled? .fieldType (Name.qualify (l.symbols.fullName node)) = some .message := by
  rw [FileDescriptor.settled?, Name.absolute?_qualify, Option.bind_some,
    hl.symbolKind?_fullName hnode]
  rfl

theorem open_texts (hw : w.value.IsSettled l.symbols) :
    (((w.answeredUse (Mention.own? f)).texts w.path).filter
      fun s => (f.settled? s.2.1 s.2.2).isNone) =
      (w.useMentions.filter fun m => (m.own? f).isNone).map fun m => (m.path, m.kind, m.name) := by
  obtain ⟨path, scope, written, value⟩ := w
  cases hw with
  | named name extendee? =>
    simp only [answeredUse, useMentions, Use.texts_field, filter_append, map_append, ← open_text]
    rfl
  | scalar htype extendee? =>
    simp only [useMentions, filter_append, map_append, ← open_text]
    rfl
  | made htype hnode extendee? =>
    have hsettled := settled?_made hl hnode
    simp only [answeredUse, useMentions, Use.texts_field, filter_append, map_append, ← open_text]
    simp [mention?, hsettled]
  | method input output =>
    simp only [answeredUse, useMentions, Use.texts_method, filter_append, map_append, ← open_text]

theorem isTyped_answeredUse (hw : w.value.IsSettled l.symbols) :
    (w.answeredUse (Mention.own? f)).IsTyped f.settled? := by
  obtain ⟨path, scope, written, value⟩ := w
  cases hw with
  | named name extendee? =>
    simp only [answeredUse, Option.isNone_none, if_true, mention?, Option.map_some,
      Option.bind_some]
    cases hown : Mention.own? f ⟨path, .fieldType, written, name⟩ with
    | none => exact .unknown (Mention.settled?_of_not_own? hown) _
    | some x =>
      obtain ⟨full, kind⟩ := x
      have hsettled := Mention.settled?_of_own? hown
      cases kind with
      | message => exact .message rfl hsettled _
      | enum => exact .enum hsettled _
      | package => cases (Mention.own?_eq_some hown).2
      | service => cases (Mention.own?_eq_some hown).2
  | scalar htype extendee? => exact .scalar htype _
  | made htype hnode extendee? => exact .message htype (settled?_made hl hnode) _
  | method input output =>
    simp only [answeredUse, Option.or_some]
    exact .method _ _

end Placed

theorem FileDescriptor.nodup_sites {f : FileDescriptor} (hf : f.isAddressable = true) :
    (f.sites.map Prod.fst).Nodup := by
  rw [sites_eq, map_append, map_map, map_map, nodup_append]
  refine ⟨nodup_placedFields hf, nodup_placedMethods hf, ?_⟩
  simp only [forall_mem_map, Function.comp_def]
  intro w hw w' hw' hpath
  obtain ⟨i, s, _, hw'⟩ := mem_placedMethods.mp hw'
  obtain ⟨_, hmethod⟩ := Placed.under_of_mem_listed hw'
  rw [← hpath] at hmethod
  rcases mem_append.mp hw with hw | hw
  · obtain ⟨_, hfield⟩ := Placed.under_of_mem_listed hw
    cases hfield.symm.trans hmethod
  · obtain ⟨_, hfield⟩ := MessageDescriptor.under_of_mem_placedFieldsFrom hw
    cases hfield.symm.trans hmethod

/-- In a file that was assembled from a text, the references that are left are those of the texts
that are no full names of acceptable symbols of the file itself, one for each. Their paths lead to
where the texts stand, so that another name can be written there, and no two fields or methods have
the same path. -/
theorem references_tracked {text name : String} {tree : Tree.File} {built : Assembled} {log : Log}
    (hparse : Tree.File.parse text = .ok tree) (hbuilt : tree.assemble name .empty = .ok built log)
    (hreach : built.file.isAddressable = true) :
    (built.unresolved.map fun r => (r.path, r.kind, r.name)).Perm
        (built.file.texts.filter fun s => (built.file.settled? s.2.1 s.2.2).isNone) ∧
      (built.file.sites.map Prod.fst).Nodup ∧
      (∀ s ∈ built.file.sites, s.2.IsTyped built.file.settled?) ∧
      ∀ r ∈ built.unresolved, r.mention.slot? built.file = some r.name ∧
        ∀ full kind, (r.write? built.file full kind).isSome = true := by
  obtain ⟨f, l, _, hl, hf, hfile, hunresolved⟩ :=
    Tree.File.assemble_ok (Tree.File.parse_isWritten hparse) hbuilt hreach
  have hsettled : built.file.settled? = f.settled? := by
    rw [hfile, FileDescriptor.settled?_congr FileDescriptor.definitions_answered]
  have hsites : built.file.sites =
      f.uses.map fun w => (w.path, w.answeredUse (Mention.own? f)) := by
    rw [hfile, FileDescriptor.sites_answered]
  have hopen : (built.file.texts.filter fun s => (built.file.settled? s.2.1 s.2.2).isNone) =
      (f.mentions.filter fun m => (m.own? f).isNone).map fun m => (m.path, m.kind, m.name) := by
    rw [FileDescriptor.texts, hsites, hsettled, FileDescriptor.mentions_eq, flatMap_map,
      filter_flatMap, filter_flatMap, map_flatMap]
    exact flatMap_congr fun w hw => Placed.open_texts hl (hl.settled w hw)
  have hperm : (built.unresolved.map fun r => (r.path, r.kind, r.name)).Perm
      (built.file.texts.filter fun s => (built.file.settled? s.2.1 s.2.2).isNone) := by
    have hmap := hl.perm_unresolved.map fun m => (m.path, m.kind, m.name)
    rw [map_map] at hmap
    rw [hopen, hunresolved]
    exact hmap
  refine ⟨hperm, FileDescriptor.nodup_sites hreach, ?_, fun r hr => ⟨?_, fun full kind => ?_⟩⟩
  · rw [hsites, hsettled, forall_mem_map]
    exact fun w hw => Placed.isTyped_answeredUse hl (hl.settled w hw)
  · have hmem := (mem_filter.mp (hperm.subset (mem_map_of_mem hr))).1
    obtain ⟨⟨path, u⟩, hu, hmem⟩ := mem_flatMap.mp hmem
    obtain ⟨kind, _, hname⟩ := mem_filterMap.mp hmem
    obtain ⟨text, htext, heq⟩ := Option.map_eq_some_iff.mp hname
    cases heq
    exact FileDescriptor.slot?_of_mem_sites hreach hu htext
  · rw [hunresolved] at hr
    rw [hfile, Reference.write?_answered hf (hl.mention_mem (mem_of_mem_filter hr))]
    rfl

theorem references_tracked_nested : ∃ tree built, Tree.File.parse Extended.nested = .ok tree ∧
    tree.assemble "a.proto" .empty = .ok built .empty ∧ built.unresolved.map (·.name) = ["Other"] ∧
    (built.unresolved.map fun r => (r.path, r.kind, r.name)).Perm
      (built.file.texts.filter fun s => (built.file.settled? s.2.1 s.2.2).isNone) := by
  obtain ⟨tree, built, hparse, hbuilt, hreach, hnames⟩ := Extended.exists_nested
  exact ⟨tree, built, hparse, hbuilt, hnames, (references_tracked hparse hbuilt hreach).1⟩

end ProtobufSchema

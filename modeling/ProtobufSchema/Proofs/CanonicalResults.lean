import ProtobufSchema.Proofs.CanonicalRoundTrip
import ProtobufSchema.Proofs.ExplainedOptions
import ProtobufSchema.Proofs.RegisteredExtensions

/-! The files that a compiler returns are in canonical form. Bytes that nobody explains can be left
only where options are read again with extensions unknown to the reader. -/

namespace ProtobufSchema

open List

variable {g : String → FieldDescriptor → FieldDescriptor}
variable {type : MessageDescriptor} {ctx : DecodeContext} {typeName name : String} {p : PendingFile}
  {o : Options}

theorem MessageDescriptor.optionsWithin_mapFields
    (hg : ∀ scope x, (g scope x).options = x.options) (scope : String) (d : MessageDescriptor) :
    (d.mapFields g scope).optionsWithin scope = d.optionsWithin scope := by
  induction d using nesting generalizing scope with
  | _ _ _ ih =>
    simp only [mapFields, optionsWithin, mapNestedFields_eq, nestedOptionsWithin_eq, flatMap_append,
      flatMap_map, hg]
    congr 1
    exact flatMap_congr fun x hx => ih x hx _

namespace FileDescriptor

theorem allOptions_mapFields (hg : ∀ scope x, (g scope x).options = x.options)
    (f : FileDescriptor) : (f.mapFields g).allOptions = f.allOptions := by
  simp [allOptions, mapFields, package, MessageDescriptor.nestedOptionsWithin_eq, flatMap_map, hg,
    MessageDescriptor.optionsWithin_mapFields hg]

theorem allOptions_mapMethods {g : String → MethodDescriptor → MethodDescriptor}
    (hg : ∀ scope x, (g scope x).options = x.options) (f : FileDescriptor) :
    (f.mapMethods g).allOptions = f.allOptions := by
  simp [allOptions, mapMethods, package, ServiceDescriptor.optionsList, ServiceDescriptor.name,
    flatMap_map, hg]

theorem allOptions_untyped (f : FileDescriptor) : f.untyped.allOptions = f.allOptions := by
  have hfield (x : FieldDescriptor) : x.untyped.options = x.options := rfl
  have hmethod (x : MethodDescriptor) : x.untyped.options = x.options := rfl
  rw [untyped, allOptions_mapMethods fun _ => hmethod, allOptions_mapFields fun _ => hfield]

theorem isQualified_mapFields (hg : ∀ scope x, (g scope x).isQualified = x.isQualified)
    (f : FileDescriptor) : (f.mapFields g).isQualified = f.isQualified := by
  rw [Bool.eq_iff_iff, isQualified_iff, isQualified_iff, allFields_mapFields, forall_mem_map]
  simp only [hg]
  rfl

end FileDescriptor

namespace Canonicalizer

variable {c : Canonicalizer} {p q : FileDescriptor} {log log' : Log}

theorem canonicalize_visits (h : c.canonicalize p log = .ok q log') :
    Forall₂ (AnswersInScope fun scope o o' => ∃ before after,
      (c.resolver (c.qualified p)).interpretOptions scope o before = .ok o' after)
      p.allOptions q.allOptions := by
  obtain ⟨file, hinterprets, hq⟩ := canonicalize_cases h
  have hmethod (scope : String) (x : MethodDescriptor) :
      ((c.pool p).qualifiedMethod scope x).options = x.options := rfl
  have hqualified : (c.qualified p).allOptions = p.allOptions := by
    rw [qualified, FileDescriptor.allOptions_mapMethods hmethod,
      FileDescriptor.allOptions_mapFields fun _ _ => Pool.qualifiedField_options]
  have hfile : q.allOptions = file.allOptions := by
    rcases hq with rfl | rfl
    · rfl
    · refine FileDescriptor.allOptions_mapFields (fun _ x => ?_) file
      obtain ⟨_, hx⟩ := x.exists_normalized
      rw [hx]
  rw [hfile, ← hqualified]
  exact hinterprets.within

theorem isQualified_of_quiet (h : c.canonicalize p log = .ok q log) : q.isQualified = true := by
  obtain ⟨file, hinterprets, hq⟩ := canonicalize_cases h
  have hfile : file.isQualified = true := by
    rw [← FileDescriptor.isQualified_bare, hinterprets.bare_eq, FileDescriptor.isQualified_bare]
    exact isQualified_qualified (missingNames_of_quiet h)
  rcases hq with rfl | rfl
  · exact hfile
  · rw [FileDescriptor.isQualified_mapFields, hfile]
    intro _ x
    obtain ⟨_, hx⟩ := x.exists_normalized
    rw [hx]
    rfl

end Canonicalizer

/-! ### Canonical files -/

open Wire (Addressable)
open Canonicalizer MetaSchema

theorem FileDescriptor.isCanonical_iff {f : FileDescriptor} {options : BuildOptions} :
    f.isCanonical options = true ↔ f.isQualified = true ∧ ∀ x ∈ f.allOptions,
      x.2.uninterpreted = [] ∧ (options.typedExtensions = true → x.2.message.unknown = []) := by
  simp [isCanonical, hasLeftovers]

/-! ### Reading options again -/

theorem DecodeContext.finds_own
    (htype : ctx.types.message? typeName = some type) (hplain : type.IsPlainOptions)
    {f : FieldDescriptor} (hf : f ∈ type.fields) : ctx.Finds typeName f := by
  intro kind hkind
  rw [(Message.IsNearlyTyped.field? htype hplain hf).2]
  exact hkind

theorem DecodeContext.finds_registered (htype : ctx.types.message? typeName = some type)
    {registry : Registry} (hregistry : ctx.extensions? = some registry) {e : ExtensionInfo}
    (hfind : registry.find? typeName e.field.number = some e)
    (hapart : type.fieldNumbered? e.field.number = none) : ctx.Finds typeName e.field := by
  intro kind hkind
  simp only [field?, htype, hregistry, Option.bind_some, Int32.toInt32_toUInt32, hapart, hfind]
  exact hkind

/-- No extension that is known has the number of a field in the options type that it extends. -/
def LinkedFile.ExtendsApart (f : LinkedFile) : Prop :=
  ∀ e, f.Knows e → ∀ kind : OptionsKind, e.extendee = kind.typeName →
    (MetaSchema.optionsOf kind).fieldNumbered? e.number = none

/-- Options without bytes that nobody explains. If assignments wait, nothing is stored yet but
fields of the options type in the schema of schemas. -/
structure Options.IsStandard (o : Options) : Prop where
  unknown_eq : o.message.unknown = []
  stored : o.uninterpreted ≠ [] → o.message.IsExplained ∧ ∀ e ∈ o.message.entries,
    ∃ f ∈ (MetaSchema.optionsOf o.kind).fields, e.number = f.number.toUInt32 ∧
      f.type? = some e.type ∧ (e.packed = true → f.isRepeated = true)

theorem Options.IsFresh.isStandard {kind : OptionsKind} (h : o.IsFresh kind) : o.IsStandard := by
  obtain ⟨rfl, hmessage | ⟨hkind, hmessage⟩⟩ := h
  · refine ⟨by rw [hmessage]; rfl, fun _ => ?_⟩
    rw [hmessage]
    exact ⟨.empty _, by nofun⟩
  · refine ⟨by rw [hmessage]; rfl, fun _ => ?_⟩
    -- All that is stored is the mark of a map's entries.
    have hmark : ∃ f ∈ (optionsOf .message).fields, (7 : UInt32) = f.number.toUInt32 ∧
        f.type? = some .bool ∧ ((false : Bool) = true → f.isRepeated = true) := by decide
    rw [hmessage, hkind]
    refine ⟨⟨rfl, ?_⟩, ?_⟩
    · intro e he
      cases mem_singleton.mp he
      have hscalar : (Value.bool true).isScalarOf .bool = true := rfl
      exact Value.isExplained_of_isScalarOf hscalar
    · intro e he
      cases mem_singleton.mp he
      exact hmark

theorem Options.IsStandard.recovers {r : OptionResolver} {scope : String} (h : o.IsStandard)
    (htype : r.pool.types.message? o.kind.typeName = some (optionsOf o.kind))
    (hextension : ∀ name full f, r.pool.resolveExtension? name scope = some (full, f) →
      f.extendee = o.kind.typeName → r.rereading.Finds o.kind.typeName f)
    (haddressable : ∀ m ∈ r.draft? scope o, ∀ bytes, m.encode = .ok bytes → Addressable bytes) :
    r.Recovers scope o := by
  have hown {f : FieldDescriptor} (hf : f ∈ (optionsOf o.kind).fields) :
      r.rereading.Finds o.kind.typeName f :=
    DecodeContext.finds_own htype (isPlain_options o.kind) hf
  refine ⟨h.unknown_eq, ?_, ?_, haddressable⟩
  · intro hwaiting
    obtain ⟨hexplained, hentries⟩ := h.stored hwaiting
    refine ⟨hexplained, ?_⟩
    intro e he
    obtain ⟨f, hf, hnumber, hstored, hpacked⟩ := hentries e he
    exact (hown hf).covers hnumber hstored hpacked
  · intro type hfound raw _ part _ f hf
    cases htype.symm.trans hfound
    cases hpart : part.isExtension with
    | false => exact hown (OptionResolver.segment_own hpart hf)
    | true =>
      simp only [OptionResolver.segment, hpart, if_true] at hf
      split at hf
      · cases hf
      · rename_i full g hg
        split at hf
        · rename_i hextendee
          cases hf
          exact hextension part.name full f hg hextendee
        · cases hf

/-! ### Finished files -/

namespace Compiler

variable {c : Compiler} {name : String} {p : PendingFile} {dependencies : List LinkedFile}
  {l : LinkedFile}

/-- What the options of a file are interpreted by, once its imports are finished. -/
def resolverOf (c : Compiler) (p : PendingFile) (dependencies : List LinkedFile) : OptionResolver :=
  let canonicalizer := Canonicalizer.ofDependencies dependencies c.options
  canonicalizer.resolver
    (canonicalizer.qualified (p.resolve c.options.strictNames dependencies .empty).1)

theorem resolverOf_eq {file : FileDescriptor}
    (h : p.resolve c.options.strictNames dependencies = reporting [] file) :
    c.resolverOf p dependencies = (ofDependencies dependencies c.options).resolver
      ((ofDependencies dependencies c.options).qualified file) := by
  rw [resolverOf, h]
  rfl

variable (h : c.Finishes name p dependencies (some l) [])
include h

theorem Finishes.visits : l.proto.isQualified = true ∧
      Forall₂ (AnswersInScope fun scope o o' => ∃ before after,
        (c.resolverOf p dependencies).interpretOptions scope o before = .ok o' after)
        p.file.allOptions l.proto.allOptions := by
  obtain ⟨file, q, hresolve, hcanonical, _, _, rfl⟩ := some_iff.mp h
  have hsame : file.allOptions = p.file.allOptions := by
    rw [← file.allOptions_untyped, PendingFile.untyped_of_resolve hresolve,
      p.file.allOptions_untyped]
  have hvisits := canonicalize_visits (hcanonical .empty)
  rw [hsame] at hvisits
  refine ⟨isQualified_of_quiet (hcanonical .empty), ?_⟩
  rw [resolverOf_eq hresolve]
  exact hvisits

theorem Finishes.uninterpreted : ∀ x ∈ l.proto.allOptions, x.2.uninterpreted = [] := by
  intro x hx
  obtain ⟨_, _, _, _, _, hrun⟩ := exists_of_forall₂ h.visits.2 hx
  exact OptionResolver.interpretOptions_uninterpreted hrun

theorem Finishes.isCanonical
    (hrecovers : ∀ x ∈ p.file.allOptions, (c.resolverOf p dependencies).Recovers x.1 x.2) :
    l.proto.isCanonical c.options = true := by
  refine FileDescriptor.isCanonical_iff.mpr ⟨h.visits.1, ?_⟩
  intro x hx
  refine ⟨h.uninterpreted x hx, fun _ => ?_⟩
  obtain ⟨y, hy, _, _, _, hrun⟩ := exists_of_forall₂ h.visits.2 hx
  exact (hrecovers y hy).unknown hrun

theorem Finishes.finds_extension (hlinked : l.IsLinked) (hcoherent : l.IsCoherent)
    (hname : l.name ≠ metaSchemaFile) (hregistry : c.options.registry? = none)
    (htyped : c.options.typedExtensions = true) (hdistinct : l.SeesDistinctly)
    (hstandard : l.HasStandardOptions) (hapart : l.ExtendsApart) (kind : OptionsKind) :
    (c.resolverOf p dependencies).pool.types.message? kind.typeName = some (optionsOf kind) ∧
      ∀ part scope full f, (c.resolverOf p dependencies).pool.resolveExtension? part scope =
        some (full, f) →
        f.extendee = kind.typeName →
        (c.resolverOf p dependencies).rereading.Finds kind.typeName f := by
  obtain ⟨file, q, hresolve, hcanonical, _, hnew, rfl⟩ := some_iff.mp h
  have hkeys := canonicalize_extensionKeys (hcanonical .empty)
  have hdefinitions := (canonicalize_alike (hcanonical .empty)).definitions
  have hheading := canonicalize_heading (hcanonical .empty)
  have hother : ((ofDependencies dependencies c.options).qualified file).name ≠
      metaSchemaFile := FileDescriptor.name_of_heading hheading ▸ hname
  rw [resolverOf_eq hresolve]
  -- Options are interpreted in the qualified file, which has the names and numbers of the finished
  -- one.
  generalize (ofDependencies dependencies c.options).qualified file = written at *
  have hpool : ((ofDependencies dependencies c.options).resolver written).pool =
      .full (.link written dependencies) :=
    pool_eq_full dependencies c.options hother
  have hwritten : (LinkedFile.link written dependencies).HasStandardOptions := by
    refine ⟨?_, hstandard.seen⟩
    intro kind
    have hown := hstandard.own kind
    rw [hlinked.index_eq, SymbolIndex.get?_ofFile] at hown
    rw [LinkedFile.link, SymbolIndex.get?_ofFile, ← hdefinitions]
    exact hown
  have htype := hwritten.message?_options kind
  rw [← hpool] at htype
  refine ⟨htype, ?_⟩
  intro part scope full f hf hextendee
  rw [hpool] at hf
  obtain ⟨e, hknows, rfl, hkey⟩ :=
    LinkedFile.knows_of_resolveExtension? (.of written hlinked.dependencies) hf
  obtain ⟨hsame, hnumber⟩ := Prod.mk.inj hkey
  have hfind := LinkedFile.find?_of_knows hlinked hcoherent hdistinct hkeys hnew hknows
  rw [hsame, hextendee, hnumber] at hfind
  have hfree : (optionsOf kind).fieldNumbered? e.field.number = none := by
    obtain ⟨x, hx, hxkey⟩ : ∃ x, (LinkedFile.link q dependencies).Knows x ∧ x.key = e.key := by
      rcases hknows with hown | hseen
      · have hmem : e.key ∈ q.extensionInfos.map ExtensionInfo.key := by
          rw [hkeys]
          exact mem_map_of_mem hown
        obtain ⟨x, hx, hxkey⟩ := mem_map.mp hmem
        exact ⟨x, .inl hx, hxkey⟩
      · exact ⟨e, .inr hseen, rfl⟩
    obtain ⟨hxextendee, hxnumber⟩ := Prod.mk.inj (hxkey.trans hkey)
    rw [← hxnumber]
    exact hapart x hx kind (hxextendee.trans hextendee)
  refine DecodeContext.finds_registered htype ?_ hfind hfree
  simp [OptionResolver.rereading, resolver, ofDependencies, hregistry, htyped]

end Compiler

theorem SchemaInput.isStandard {input : SchemaInput} (h : input.assembled? name = some p)
    (hdescriptor : ∀ d, input = .descriptor d → ∀ x ∈ d.allOptions, x.2.IsStandard) :
    ∀ x ∈ p.file.allOptions, x.2.IsStandard := by
  have hassembled {tree : Tree.File} {built : Assembled} {log : Log}
      (hbuilt : tree.assemble name .empty = .ok built log) :
          ∀ x ∈ built.file.allOptions, x.2.IsStandard := by
    intro x hx
    obtain ⟨s, hs, heq⟩ := FileDescriptor.exists_slot hx
    rw [← heq]
    exact (FileDescriptor.isFresh_iff.mp (Tree.File.assemble_isFresh hbuilt) s hs).isStandard
  cases input with
  | descriptor d =>
    cases h
    exact hdescriptor d rfl
  | tree tree =>
    obtain ⟨built, log, hbuilt, rfl⟩ := assembled?_tree h
    exact hassembled hbuilt
  | source text =>
    obtain ⟨tree, built, log, _, hbuilt, rfl⟩ := assembled?_eq_some h
    exact hassembled hbuilt

theorem MetaSchema.isCanonical (options : BuildOptions) :
    file.proto.isCanonical options = true := by
  have hqualified : proto.isQualified = true :=
    FileDescriptor.isQualified_iff.mpr (by decide +kernel)
  have hoptions : ∀ x ∈ proto.allOptions, x.2.uninterpreted = [] ∧ x.2.message.unknown = [] := by
    decide
  refine FileDescriptor.isCanonical_iff.mpr ⟨hqualified, ?_⟩
  intro x hx
  exact ⟨(hoptions x hx).1, fun _ => (hoptions x hx).2⟩

/-- In every file that is returned all names are qualified and no assignment waits, so that it is
canonical unless custom options are to be typed. The schema of schemas is canonical in any case.
Another file is canonical if its options, as they were assembled, are recovered when they are read
again. They are, with the extensions that the file sees, if these are seen distinctly, if the
options types are those of the schema of schemas and have fields of other numbers, and if the
options in a descriptor that was given are standard. -/
theorem returned_isCanonical {c : Compiler} (hc : c.IsAccepted) {set : FileSet} {before after : Log}
    (h : c.build before = .ok set after) {name : String} {l : LinkedFile}
    (hl : (name, l) ∈ set.files) :
    (l.proto.isQualified = true ∧ ∀ x ∈ l.proto.allOptions, x.2.uninterpreted = []) ∧
    (c.options.typedExtensions = false → l.proto.isCanonical c.options = true) ∧
    ∃ input, c.inputs.lookup name = some input ∧
      (name = metaSchemaFile ∧ l.proto.isCanonical c.options = true ∨
        ∃ p, input.assembled? name = some p ∧
          ((∀ x ∈ p.file.allOptions, (c.resolverOf p l.dependencies).Recovers x.1 x.2) →
            l.proto.isCanonical c.options = true) ∧
          (c.options.registry? = none → l.SeesDistinctly → l.HasStandardOptions → l.ExtendsApart →
            (∀ d, input = .descriptor d → ∀ x ∈ d.allOptions, x.2.IsStandard) →
            (∀ x ∈ p.file.allOptions, ∀ m ∈ (c.resolverOf p l.dependencies).draft? x.1 x.2,
              ∀ bytes, m.encode = .ok bytes → Addressable bytes) →
            l.proto.isCanonical c.options = true)) := by
  have hbuilds := Compiler.builds_of_build hc h hl
  rcases hbuilds.linked with ⟨rfl, hname⟩ |
    ⟨p, q, dependencies, _, rfl, hfinish, input, hinput, hassembled, hname, _⟩
  · have hcanonical := MetaSchema.isCanonical c.options
    obtain ⟨hqualified, hoptions⟩ := FileDescriptor.isCanonical_iff.mp hcanonical
    obtain ⟨input, hinput⟩ := hbuilds.exists_input
    exact ⟨⟨hqualified, fun x hx => (hoptions x hx).1⟩, fun _ => hcanonical, input, hinput,
      Or.inl ⟨hname, hcanonical⟩⟩
  have huntyped : c.options.typedExtensions = false →
      (LinkedFile.link q dependencies).proto.isCanonical c.options = true := by
    intro huntyped
    refine FileDescriptor.isCanonical_iff.mpr ⟨hfinish.visits.1, ?_⟩
    intro x hx
    exact ⟨hfinish.uninterpreted x hx, fun htyped => by simp [huntyped] at htyped⟩
  refine ⟨⟨hfinish.visits.1, hfinish.uninterpreted⟩, huntyped, input, hinput,
    Or.inr ⟨p, hassembled, hfinish.isCanonical, ?_⟩⟩
  intro hregistry hdistinct hstandard hapart hdescriptor haddressable
  cases htyped : c.options.typedExtensions with
  | false => exact huntyped htyped
  | true =>
    refine hfinish.isCanonical fun x hx => ?_
    have hother : (LinkedFile.link q dependencies).name ≠ metaSchemaFile := by
      rwa [hbuilds.name_eq hc]
    obtain ⟨htype, hextension⟩ :=
      hfinish.finds_extension hbuilds.isLinked (hbuilds.isCoherent hc) hother
      hregistry htyped hdistinct hstandard hapart x.2.kind
    exact (SchemaInput.isStandard hassembled hdescriptor x hx).recovers htype
      (fun part full f => hextension part x.1 full f) (haddressable x hx)

namespace CustomOption

variable {c : Compiler}

def importer : String := "import \"a.proto\"; option (x) = 1;"

def compiler (options : BuildOptions) : Compiler := .ofTexts options [
  ("a.proto", "extend google.protobuf.FileOptions { optional int32 x = 50000; }"),
  ("b.proto", importer)]

/-- Declares no options type, and no extension with the number of a field in an options type. -/
def keepsApart (d : LinkedFile) : Bool :=
  OptionsKind.all.all fun kind => (d.index.get? kind.typeName).isNone &&
    d.proto.extensionInfos.all fun e => e.extendee != kind.typeName ||
      ((MetaSchema.optionsOf kind).fieldNumbered? e.number).isNone

def isOrderly (l : LinkedFile) : Bool :=
  keepsApart l && (LinkedFile.visible l.dependencies).all
    fun d => d.name == metaSchemaFile || keepsApart d

theorem of_keepsApart {d : LinkedFile} (h : keepsApart d = true) : d.DeclaresNoOptionsType ∧
    ∀ e ∈ d.proto.extensionInfos, ∀ kind : OptionsKind, e.extendee = kind.typeName →
      (optionsOf kind).fieldNumbered? e.number = none := by
  have hkind (kind : OptionsKind) : kind ∈ OptionsKind.all := by cases kind <;> decide
  simp only [keepsApart, all_eq_true, Bool.and_eq_true, Option.isNone_iff_eq_none, Bool.or_eq_true,
    bne_iff_ne] at h
  exact ⟨fun kind => (h kind (hkind kind)).1,
    fun e he kind hextendee => ((h kind (hkind kind)).2 e he).resolve_left (not_not.mpr hextendee)⟩

theorem of_isOrderly (hc : c.IsAccepted) {l : LinkedFile}
    (hl : c.Builds name l) (h : isOrderly l = true) : l.HasStandardOptions ∧ l.ExtendsApart := by
  obtain ⟨hown, hseen⟩ := Bool.and_eq_true_iff.mp h
  have hother : ∀ d ∈ LinkedFile.visible l.dependencies,
      d = file ∨ d.name ≠ metaSchemaFile ∧ keepsApart d = true := by
    intro d hd
    by_cases hname : d.name = metaSchemaFile
    · exact .inl (hl.eq_schema hc (LinkedFile.sees_of_mem_visible hd).reaches hname)
    · have hcheck := all_eq_true.mp hseen d hd
      exact .inr ⟨hname, by simpa [hname] using hcheck⟩
  refine ⟨⟨(of_keepsApart hown).1, ?_⟩, ?_⟩
  · intro d hd
    exact (hother d hd).imp id fun hd => ⟨hd.1, (of_keepsApart hd.2).1⟩
  · rintro e (he | ⟨d, hd, he⟩)
    · exact (of_keepsApart hown).2 e he
    · rcases hother d ((LinkedFile.mem_visible_iff (hl.isCoherent hc)).mpr hd) with rfl | ⟨_, hd⟩
      · cases he
      · exact (of_keepsApart hd).2 e he

def isSmall (c : Compiler) (p : PendingFile) (dependencies : List LinkedFile) : Bool :=
  p.file.allOptions.all fun x => ((c.resolverOf p dependencies).draft? x.1 x.2).all fun m =>
    match m.encode with
    | .ok bytes => decide (Addressable bytes)
    | .error _ => true

theorem of_isSmall {dependencies : List LinkedFile}
    (h : isSmall c p dependencies = true) : ∀ x ∈ p.file.allOptions,
      ∀ m ∈ (c.resolverOf p dependencies).draft? x.1 x.2, ∀ bytes, m.encode = .ok bytes →
        Addressable bytes := by
  intro x hx m hm bytes hbytes
  have hcheck := (Option.all_eq_true _ _).mp (all_eq_true.mp h x hx) m hm
  rw [hbytes] at hcheck
  exact of_decide_eq_true hcheck

set_option maxRecDepth 100000 in
theorem returned_isCanonical_imported :
    ∃ set after l, (compiler {}).build .empty = .ok set after ∧ ("b.proto", l) ∈ set.files ∧
      l.SeesDistinctly ∧ l.HasStandardOptions ∧ l.ExtendsApart ∧ (∃ e, l.SeesExtension e) ∧
      l.proto.isCanonical {} = true := by
  have hcheck : ((compiler {}).returned? "b.proto").any (fun l =>
      isOrderly l && Reexported.seesOne l &&
      (LinkedFile.visible l.dependencies).any (fun d => !d.proto.extensionInfos.isEmpty) &&
      ((SchemaInput.source importer).assembled? "b.proto").any fun p =>
        isSmall (compiler {}) p l.dependencies) = true := by decide +kernel
  obtain ⟨l, hl, hcheck⟩ := (Option.any_eq_true _ _).mp hcheck
  obtain ⟨hcheck, hwritten⟩ := Bool.and_eq_true_iff.mp hcheck
  obtain ⟨hcheck, hextended⟩ := Bool.and_eq_true_iff.mp hcheck
  obtain ⟨horderly, hone⟩ := Bool.and_eq_true_iff.mp hcheck
  obtain ⟨p, hp, hsmall⟩ := (Option.any_eq_true _ _).mp hwritten
  obtain ⟨set, after, hbuild, hmem⟩ := Compiler.mem_of_returned? hl
  have hc : (compiler {}).IsAccepted := Compiler.isAccepted_ofTexts {} (by decide)
  have hbuilds := Compiler.builds_of_build hc hbuild hmem
  have hdistinct := Reexported.seesDistinctly (hbuilds.isCoherent hc) hone
  obtain ⟨hstandard, hapart⟩ := of_isOrderly hc hbuilds horderly
  obtain ⟨d, hd, hextensions⟩ := any_eq_true.mp hextended
  obtain ⟨e, he⟩ := exists_mem_of_ne_nil d.proto.extensionInfos (by simpa using hextensions)
  refine ⟨set, after, l, hbuild, hmem, hdistinct, hstandard, hapart,
    ⟨e, d, LinkedFile.sees_of_mem_visible hd, he⟩, ?_⟩
  obtain ⟨_, _, input, hinput, hfile⟩ := returned_isCanonical hc hbuild hmem
  have hsource : (compiler {}).inputs.lookup "b.proto" = some (.source importer) := rfl
  cases hsource.symm.trans hinput
  rcases hfile with ⟨hname, _⟩ | ⟨p', hp', _, hcanonical⟩
  · exact absurd hname (by decide)
  · cases hp.symm.trans hp'
    refine hcanonical rfl hdistinct hstandard hapart ?_ (of_isSmall hsmall)
    intro f hf
    cases hf

set_option maxRecDepth 100000 in
theorem returned_not_canonical : ∃ set after l, (compiler { registry? := some .empty }).IsAccepted ∧
      (compiler { registry? := some .empty }).build .empty = .ok set after ∧
      ("b.proto", l) ∈ set.files ∧ l.proto.isCanonical { registry? := some .empty } = false := by
  have hcheck : ((compiler { registry? := some .empty }).returned? "b.proto").any (fun l =>
      !l.proto.isCanonical { registry? := some .empty }) = true := by decide +kernel
  obtain ⟨l, hl, hcheck⟩ := (Option.any_eq_true _ _).mp hcheck
  obtain ⟨set, after, hbuild, hmem⟩ := Compiler.mem_of_returned? hl
  exact ⟨set, after, l, Compiler.isAccepted_ofTexts _ (by decide), hbuild, hmem,
    by simpa using hcheck⟩

end CustomOption

end ProtobufSchema

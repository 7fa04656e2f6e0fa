import Mathlib
import ProtobufSchema.Proofs.AssembledFiles
import ProtobufSchema.Proofs.MetaSchemaOptions
import ProtobufSchema.Proofs.WireSurvival

/-! A canonical file survives being written and read exactly if its options are well typed where
they are read. Only a value stored under the number of the waiting assignments can be in the way. -/

namespace ProtobufSchema

open DecodeContext FileDescriptor Wire LinkedFile

variable {o : Options} {f : FieldDescriptor} {q : FileDescriptor} {log' log : Log}
  (dependencies : List LinkedFile) (options : BuildOptions)

namespace MessageDescriptor

variable {m m' : MessageDescriptor}

theorem fields_of_bare (hbare : m'.bare = m.bare) :
    m'.fields.map FieldDescriptor.bare = m.fields.map .bare := by
  cases m
  cases m'
  injection hbare

theorem exists_field_of_bare (hbare : m'.bare = m.bare) (hf : f ∈ m.fields) :
    ∃ f' ∈ m'.fields, f'.bare = f.bare := by
  have hmem : f.bare ∈ m'.fields.map .bare := by
    rw [fields_of_bare hbare]
    exact List.mem_map_of_mem hf
  exact List.mem_map.mp hmem

theorem IsPlainOptions.of_bare (h : m.IsPlainOptions) (hbare : m'.bare = m.bare) :
    m'.IsPlainOptions where
  numbers_ne_zero := by
    intro f' hf'
    obtain ⟨f, hf, hsame⟩ := exists_field_of_bare hbare.symm hf'
    obtain ⟨hnumber, _⟩ := FieldDescriptor.of_bare_eq hsame
    exact hnumber ▸ h.numbers_ne_zero f hf
  numbers_nodup := by
    have hnumbers := congrArg (List.map FieldDescriptor.number) (fields_of_bare hbare)
    rw [List.map_map, List.map_map] at hnumbers
    have hnodup : (m.fields.map (FieldDescriptor.number ∘ .bare)).Nodup := h.numbers_nodup
    rw [← hnumbers] at hnodup
    exact hnodup
  number_of_message := by
    intro f' hf' hmessage
    obtain ⟨f, hf, hsame⟩ := exists_field_of_bare hbare.symm hf'
    obtain ⟨hnumber, htype, _⟩ := FieldDescriptor.of_bare_eq hsame
    rw [FieldDescriptor.isMessage, ← htype] at hmessage
    exact hnumber ▸ h.number_of_message f hf hmessage
  assignments := by
    obtain ⟨f, hf, hnumber, htype, hrepeated⟩ := h.assignments
    obtain ⟨f', hf', hsame⟩ := exists_field_of_bare hbare hf
    obtain ⟨hnumber', htype', hrepeated', _⟩ := FieldDescriptor.of_bare_eq hsame
    exact ⟨f', hf', hnumber'.trans hnumber, htype'.trans htype, hrepeated'.trans hrepeated⟩

end MessageDescriptor

theorem DecodeContext.OptionsArePlain.of_bare {ctx ctx' : DecodeContext} (h : ctx.OptionsArePlain)
    (hbare : ∀ name, (ctx'.types.message? name).map MessageDescriptor.bare =
      (ctx.types.message? name).map .bare) : ctx'.OptionsArePlain := by
  intro kind
  obtain ⟨type, htype, hplain, hmark⟩ := h kind
  have hfound := hbare kind.typeName
  rw [htype] at hfound
  obtain ⟨type', htype', hsame⟩ := Option.map_eq_some_iff.mp hfound
  refine ⟨type', htype', hplain.of_bare hsame, ?_⟩
  intro hkind
  obtain ⟨f, hf, hnumber, hbool, hsingle⟩ := hmark hkind
  obtain ⟨f', hf', hfield⟩ := MessageDescriptor.exists_field_of_bare hsame hf
  obtain ⟨hnumber', htype', hrepeated', _⟩ := FieldDescriptor.of_bare_eq hfield
  exact ⟨f', hf', hnumber'.trans hnumber, htype'.trans hbool, hrepeated'.trans hsingle⟩

namespace Canonicalizer

variable {c : Canonicalizer} {file q : FileDescriptor} {log log' : Log}

theorem slots_qualified (c : Canonicalizer) (f : FileDescriptor) :
    (c.qualified f).slots = f.slots :=
  (slots_mapMethods (by intros; rfl) _).trans
    (slots_mapFields (fun _ _ => Pool.qualifiedField_options) f)

theorem pool_eq_full (hname : file.name ≠ metaSchemaFile) :
    (ofDependencies dependencies options).pool file = .full (link file dependencies) := by
  have hother : file.name ≠ MetaSchema.file.name := hname
  simp only [pool, ofDependencies, if_neg hother]
  rfl

end Canonicalizer

theorem LinkedFile.message?_readContext {qualified : FileDescriptor}
    (hbare : q.bare = qualified.bare) (hname : q.name ≠ metaSchemaFile) (name : String) :
    (((Canonicalizer.ofDependencies dependencies options).pool qualified).types.message? name).map
        MessageDescriptor.bare =
      ((link q dependencies).readContext.types.message? name).map .bare := by
  have hnames : qualified.name = q.name := (congrArg FileDescriptor.name hbare).symm
  have hindex : SymbolIndex.ofFile qualified = .ofFile q := by
    have hdefinitions := congrArg definitions hbare
    rw [definitions_mapOptions, definitions_mapOptions] at hdefinitions
    rw [SymbolIndex.ofFile, SymbolIndex.ofFile, hdefinitions]
  have hother : qualified.name ≠ metaSchemaFile := hnames ▸ hname
  rw [Canonicalizer.pool_eq_full dependencies options hother]
  refine Pool.message?_withFallback ?_ ?_ ?_ ?_ _ name
  · exact hbare.symm
  · simp [Pool.ofFile, Pool.ofDependencies, link, hindex]
  · rfl
  · rfl

theorem Options.WellTyped.agree {ctx ctx' : DecodeContext} (h : ctx.Agrees ctx')
    {kind : OptionsKind} {o : Options} (ho : o.WellTyped ctx kind) : o.WellTyped ctx' kind where
  kind_eq := ho.kind_eq
  typeName_eq := ho.typeName_eq
  message_wellTyped := ho.message_wellTyped.agree h
  unknown_ne := ho.unknown_ne
  span_eq := ho.span_eq
  entries_ne := ho.entries_ne

theorem Canonicalizer.canonicalize_optionsWellTyped {dependencies : List LinkedFile}
    {options : BuildOptions} {file : FileDescriptor} (hfile : file.IsFresh)
    (hregistry : options.registry? = none) (htyped : options.typedExtensions = true)
    (hdefaults : options.normalizeDefaults = false)
    (hq : (ofDependencies dependencies options).canonicalize file log = .ok q log')
    (hname : q.name ≠ metaSchemaFile) (hplain : (link q dependencies).readContext.OptionsArePlain)
    (hne : q.StoresNoAssignment) : q.OptionsWellTyped (link q dependencies).readContext := by
  have hrevises := canonicalize_interprets hdefaults hq
  have htypes := message?_readContext dependencies options hrevises.bare_eq hname
  have hextensions : (((ofDependencies dependencies options).resolver
      ((ofDependencies dependencies options).qualified file)).registry).bare =
      (link q dependencies).registry.bare := by
    simp only [resolver, ofDependencies, hregistry, Option.getD_none, link]
    exact registryOf_bare hrevises.bare_eq.symm dependencies
  have hagrees := agrees_of_bare htypes hextensions
  intro t ht
  obtain ⟨s, hs, hkind, scope, before, after, hvisit⟩ := exists_of_forall₂ hrevises.slots ht
  rw [slots_qualified] at hs
  have hfresh := isFresh_iff.mp hfile s hs
  have hsnapshot := OptionResolver.interpretOptions_wellTyped htyped (hplain.of_bare htypes) hfresh
    hvisit (hne t ht)
  rw [← hkind]
  exact hsnapshot.agree hagrees

def FileDescriptor.ofOptions (o : Options) : FileDescriptor :=
  { name? := some "a.proto", options := some o }

namespace FileDescriptor

variable (o : Options)

theorem name_ofOptions : (ofOptions o).name ≠ metaSchemaFile := by
  have hname : (ofOptions o).name = "a.proto" := rfl
  rw [hname]
  decide

theorem hasStandardOptions_ofOptions : (link (ofOptions o) []).HasStandardOptions where
  own kind := by
    rw [link, SymbolIndex.get?_ofFile]
    rfl
  seen := by
    intro d hd
    simp [link, visible] at hd

end FileDescriptor

theorem Canonicalizer.interpretOptions_ofOptions {c : Canonicalizer} {o' : Options}
    (hleft : (ofOptions o).hasLeftovers false = true)
    (h : (c.resolver (ofOptions o)).interpretOptions "" o log = .ok o' log') :
    c.interpretOptions (ofOptions o) log = .ok (ofOptions o') log' := by
  have hslot : (ofOptions o).options.mapM
      ((c.resolver (ofOptions o)).interpretOptions (ofOptions o).package) log =
      .ok (some o') log' := by
    change (some <$> (c.resolver (ofOptions o)).interpretOptions "" o) log = _
    simp [Functor.map, EStateM.map, h]
  rw [interpretOptions, if_pos hleft]
  unfold traverseOptions
  simp only [bind, EStateM.bind, hslot]
  rfl

theorem Canonicalizer.canonicalize_ofOptions {raw : RawOption} {option : String} {v : Value}
    (hkind : o.kind = .file) (hraw : o.uninterpreted = [raw]) (hname : raw.name = [⟨option, false⟩])
    (hfield : MetaSchema.fileOptions.fieldNamed? option = some f)
    (hvalue : ∀ r : OptionResolver, r.value raw (some f) = .ok v) (log : Log) :
    (ofDependencies [] {}).canonicalize (ofOptions o) log =
      .ok (ofOptions { o with message := f.store o.message v, uninterpreted := [] }) log := by
  generalize hc : ofDependencies [] {} = c
  have hpool : c.pool (ofOptions o) = .full (link (ofOptions o) []) := by
    rw [← hc]
    exact pool_eq_full [] {} (name_ofOptions o)
  have htype : (c.resolver (ofOptions o)).pool.types.message? o.kind.typeName =
      some MetaSchema.fileOptions := by
    rw [resolver, hpool, hkind]
    exact (hasStandardOptions_ofOptions o).message?_options .file
  have hnames : c.qualifyNames (ofOptions o) = pure (ofOptions o) :=
    qualifyNames_of_isQualified (by simp [isQualified, ofOptions, MessageDescriptor.stackedFields])
  rw [canonicalize_eq (by rw [← hc]; rfl), hnames]
  exact interpretOptions_ofOptions (by simp [hasLeftovers, allOptions, ofOptions, hraw])
    (OptionResolver.interpretOptions_single hraw hname htype hfield (hvalue _) log)

def Tree.File.assigning (option : String) (value : Constant) : Tree.File :=
  { options := [⟨[⟨option, false⟩], value, ⟨1, 1⟩⟩] }

def Assembled.assigning (raw : RawOption) : Assembled where
  file := ofOptions { Options.empty .file with uninterpreted := [raw] }
  unresolved := []
  symbols := .ofPackage ""
  locations := ⟨[([8, 999, 0], ⟨1, 1⟩)], []⟩

def FileDescriptor.storing (e : Entry) : FileDescriptor :=
  ofOptions { Options.empty .file with message := ⟨OptionsKind.file.typeName, [e], []⟩ }

/-- A canonical file survives being written and read exactly if its options are well typed where it
is read. If the options types there are like those of the schema of schemas, that is to say that
nothing was stored under the number of the waiting assignments. -/
theorem canonical_survives_iff {tree : Tree.File} {name : String} {built : Assembled}
    {dependencies : List LinkedFile} {options : BuildOptions} {q : FileDescriptor}
    {before after log log' : Log} (hbuilt : tree.assemble name before = .ok built after)
    (hregistry : options.registry? = none) (htyped : options.typedExtensions = true)
    (hdefaults : options.normalizeDefaults = false)
    (hq : (Canonicalizer.ofDependencies dependencies options).canonicalize built.file log =
      .ok q log')
    (hsize : ∀ bytes, q.encode = .ok bytes → Addressable bytes) :
    (q.Survives (LinkedFile.link q dependencies).readContext ↔
      q.OptionsWellTyped (LinkedFile.link q dependencies).readContext) ∧
    (q.name ≠ metaSchemaFile → (LinkedFile.link q dependencies).readContext.OptionsArePlain →
      (q.Survives (LinkedFile.link q dependencies).readContext ↔ q.StoresNoAssignment)) := by
  refine ⟨FileDescriptor.survives_iff_optionsWellTyped hsize, ?_⟩
  intro hname hplain
  rw [FileDescriptor.survives_iff_optionsWellTyped hsize]
  constructor
  · intro h s hs
    exact (h s hs).entries_ne
  · exact Canonicalizer.canonicalize_optionsWellTyped (Tree.File.assemble_isFresh hbuilt) hregistry
      htyped hdefaults hq hname hplain

def javaPackage : RawOption :=
  { name := [⟨"java_package", false⟩], string := some [120], span := some ⟨1, 1⟩ }

def javaPackageEntry : Entry := ⟨1, .string, false, .string "x"⟩

set_option maxRecDepth 10000 in
theorem canonical_survives_iff_javaPackage :
    (Tree.File.assigning "java_package" (.string [120])).assemble "a.proto" .empty =
      .ok (.assigning javaPackage) .empty ∧
    (Canonicalizer.ofDependencies [] {}).canonicalize
      (Assembled.assigning javaPackage).file .empty =
      .ok (storing javaPackageEntry) .empty ∧
    (storing javaPackageEntry).Survives
      (LinkedFile.link (storing javaPackageEntry) []).readContext := by
  have hbuilt : (Tree.File.assigning "java_package" (.string [120])).assemble "a.proto" .empty =
      .ok (.assigning javaPackage) .empty := by rfl
  have hvalue (r : OptionResolver) : r.value javaPackage
      (some (MetaSchema.one .string "java_package" 1)) = .ok (.string "x") := rfl
  have hq : (Canonicalizer.ofDependencies [] {}).canonicalize (Assembled.assigning javaPackage).file
      .empty = .ok (storing javaPackageEntry) .empty :=
    Canonicalizer.canonicalize_ofOptions (by rfl) (by rfl) (by rfl) (by rfl) hvalue .empty
  have hbytes : (storing javaPackageEntry).encode =
      .ok [10, 7, 97, 46, 112, 114, 111, 116, 111, 66, 3, 10, 1, 120] := by decide
  have hsize : ∀ bytes, (storing javaPackageEntry).encode = .ok bytes → Addressable bytes := by
    intro bytes h
    rw [hbytes] at h
    cases h
    decide
  have hplain : (LinkedFile.link (storing javaPackageEntry) []).readContext.OptionsArePlain :=
    (hasStandardOptions_ofOptions _).optionsArePlain
  have hsurvives := (canonical_survives_iff hbuilt rfl rfl rfl hq hsize).2 (name_ofOptions _) hplain
  refine ⟨hbuilt, hq, hsurvives.mpr ?_⟩
  intro s hs e he
  cases List.mem_singleton.mp hs
  cases List.mem_singleton.mp he
  decide

def emptyAssignment : RawOption :=
  { name := [⟨"uninterpreted_option", false⟩], aggregate := some "", span := some ⟨1, 1⟩ }

def emptyAssignmentEntry : Entry :=
  ⟨999, .message, false, .list [.message (.empty "google.protobuf.UninterpretedOption")]⟩

set_option maxRecDepth 10000 in
/-- The file that assigns the list of waiting assignments is brought into canonical form and
written, and nothing is reported; but it is not what is read. -/
theorem emptyAssignment_not_survives :
    (Tree.File.assigning "uninterpreted_option" (.aggregate "")).assemble "a.proto" .empty =
      .ok (.assigning emptyAssignment) .empty ∧
    (Canonicalizer.ofDependencies [] {}).canonicalize (Assembled.assigning emptyAssignment).file
      .empty = .ok (storing emptyAssignmentEntry) .empty ∧
    (storing emptyAssignmentEntry).encode = .ok [10, 7, 97, 46, 112, 114, 111, 116, 111, 66, 0] ∧
    ¬ (storing emptyAssignmentEntry).Survives
      (LinkedFile.link (storing emptyAssignmentEntry) []).readContext := by
  have hvalue (r : OptionResolver) : r.value emptyAssignment (some (MetaSchema.of
      (MetaSchema.many .message "uninterpreted_option" 999) "UninterpretedOption")) =
      .ok (.message (.empty "google.protobuf.UninterpretedOption")) := by cbv
  have hbytes : (storing emptyAssignmentEntry).encode =
      .ok [10, 7, 97, 46, 112, 114, 111, 116, 111, 66, 0] := by decide
  have hsize : ∀ bytes, (storing emptyAssignmentEntry).encode = .ok bytes → Addressable bytes := by
    intro bytes h
    rw [hbytes] at h
    cases h
    decide
  refine ⟨by rfl, ?_, hbytes, ?_⟩
  · exact Canonicalizer.canonicalize_ofOptions (by rfl) (by rfl) (by rfl) (by rfl) hvalue .empty
  · rw [survives_iff_optionsWellTyped hsize]
    intro h
    have hne := (h _ (List.mem_singleton_self _)).entries_ne
    exact hne emptyAssignmentEntry (List.mem_singleton_self _) rfl

end ProtobufSchema

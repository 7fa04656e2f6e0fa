import ProtobufSchema.Proofs.ResolvedTypes
import ProtobufSchema.Proofs.SymbolAgreement

/-! The first file in front of the schema of schemas to declare the name of an options type decides
what options are values of. Packages are kept away from these names, but messages are not. -/

namespace ProtobufSchema

open List
open Name (IsSegment dotted segments join)

variable {l : LinkedFile} {full name s : String} {ss : List String} {p : PendingFile}
  {set : FileSet} {before after : Log}

namespace LinkedFile

/-- The files in which a name is looked up before the schema of schemas. -/
def foremost (l : LinkedFile) : List LinkedFile :=
  l :: (visible l.dependencies).takeWhile fun d => d.name ≠ metaSchemaFile

def meaning? (full : String) (l : LinkedFile) : Option (FileDescriptor × Definition) :=
  (l.index.get? full).map fun d => (l.proto, d)

theorem meaning?_eq_none : l.meaning? full = none ↔ l.index.get? full = none := by
  simp [meaning?]

theorem lookup?_full (l : LinkedFile) (full : String) : (Pool.full l).lookup? full =
    (l :: ((Pool.full l).visible ++ (Pool.full l).fallback?.toList)).findSome? (meaning? full) := by
  have hfile : (Pool.full l).file = l.proto := Pool.withFallback_file (.ofFile l) MetaSchema.file
  rw [Pool.lookup?, index_full, hfile, findSome?_cons, meaning?]
  cases l.index.get? full <;> rfl

theorem name_of_mem_foremost {f : LinkedFile} (hl : l.name ≠ metaSchemaFile) (hf : f ∈ l.foremost) :
    f.name ≠ metaSchemaFile := by
  rcases mem_cons.mp hf with rfl | hf
  · exact hl
  · simpa using mem_takeWhile_imp hf

end LinkedFile

namespace Compiler

open LinkedFile

variable {c : Compiler} {name : String} {l : LinkedFile}

theorem Builds.eq_schema {d : LinkedFile} (hc : c.IsAccepted) (h : c.Builds name l)
    (hd : l.Reaches d) (hname : d.name = metaSchemaFile) : d = MetaSchema.file := by
  rcases h.reaches hd with rfl | ⟨x, hx⟩
  · rfl
  · rw [hx.name_eq hc] at hname
    subst hname
    rcases hx.linked with ⟨hd, _⟩ | ⟨_, _, _, _, _, _, _, _, _, hne, _⟩
    · exact hd
    · exact absurd rfl hne

theorem Builds.schema_next (hc : c.IsAccepted) (h : c.Builds name l) :
    ∃ rest, l :: ((Pool.full l).visible ++ (Pool.full l).fallback?.toList) =
      l.foremost ++ MetaSchema.file :: rest := by
  unfold foremost
  have hsplit := (takeWhile_append_dropWhile
    (p := fun d : LinkedFile => decide (d.name ≠ metaSchemaFile))
    (l := visible l.dependencies)).symm
  cases hlater : (visible l.dependencies).dropWhile fun d => d.name ≠ metaSchemaFile with
  | nil =>
    rw [hlater, append_nil] at hsplit
    have hfallback : (Pool.full l).visible = visible l.dependencies ∧
        (Pool.full l).fallback? = some MetaSchema.file := by
      rcases (Pool.ofFile l).withFallback_cases MetaSchema.file with ⟨⟨d, hd, hname⟩, _⟩ | heq
      · have hd : d ∈ visible l.dependencies := hd
        rw [hsplit] at hd
        have hne : d.name ≠ metaSchemaFile := by simpa using mem_takeWhile_imp hd
        exact absurd hname hne
      · rw [Pool.full, heq]
        exact ⟨rfl, rfl⟩
    rw [hfallback.1, hfallback.2, ← hsplit]
    exact ⟨[], rfl⟩
  | cons d rest =>
    have hd : d ∈ visible l.dependencies := by
      rw [hsplit, hlater]
      simp
    have hname : d.name = metaSchemaFile := by
      have hfirst := head?_dropWhile_not (fun d : LinkedFile => decide (d.name ≠ metaSchemaFile))
        (visible l.dependencies)
      rw [hlater] at hfirst
      simpa using hfirst
    have hschema := h.eq_schema hc (sees_of_mem_visible hd).reaches hname
    subst hschema
    have hvisible : (Pool.full l).visible = visible l.dependencies := by
      rcases (Pool.ofFile l).withFallback_cases MetaSchema.file with ⟨_, heq⟩ | heq <;>
        rw [Pool.full, heq] <;> rfl
    rw [hlater] at hsplit
    generalize (visible l.dependencies).takeWhile _ = before at hsplit ⊢
    rw [hvisible, hsplit]
    exact ⟨rest ++ (Pool.full l).fallback?.toList, by simp⟩

end Compiler

/-! ### Files that are built from texts -/

namespace Compiler

variable {c : Compiler} {name : String} {l : LinkedFile}

theorem Finishes.definitions {dependencies : List LinkedFile}
    (h : c.Finishes name p dependencies (some l) []) :
    l.index = .ofFile l.proto ∧ l.proto.definitions = p.file.definitions := by
  obtain ⟨file, q, hresolve, hcanonical, _, _, rfl⟩ := some_iff.mp h
  refine ⟨by rw [LinkedFile.link], ?_⟩
  calc q.definitions
    _ = ((Canonicalizer.ofDependencies dependencies c.options).qualified file).definitions :=
      (Canonicalizer.canonicalize_alike (hcanonical .empty)).definitions
    _ = file.definitions := Canonicalizer.definitions_qualified _ file
    _ = p.file.definitions := by
      rw [← file.definitions_untyped, PendingFile.untyped_of_resolve hresolve,
        p.file.definitions_untyped]

end Compiler

theorem FileDescriptor.exists_of_mem_packagePrefixes {before : List String}
    (hss : ∀ s ∈ ss, IsSegment s) (hbefore : ∀ s ∈ before, IsSegment s)
    (h : full ∈ packagePrefixes (dotted before) ss) :
    ∃ first rest, ss = first ++ rest ∧ full = dotted (before ++ first) := by
  induction ss generalizing before with
  | nil => cases h
  | cons s ss ih =>
    obtain ⟨hs, hss⟩ := forall_mem_cons.mp hss
    have hjoin : join (dotted before) s = dotted (before ++ [s]) := by
      rw [Name.join_dotted hbefore, Name.segments_of_isSegment hs]
    unfold packagePrefixes at h
    rw [hjoin] at h
    rcases mem_cons.mp h with rfl | h
    · exact ⟨[s], ss, rfl, rfl⟩
    · have hlonger : ∀ x ∈ before ++ [s], IsSegment x := by
        simpa [or_imp, forall_and, hs] using hbefore
      obtain ⟨first, rest, rfl, rfl⟩ := ih hss hlonger h
      exact ⟨s :: first, rest, rfl, by simp⟩

namespace Compiler

variable {c : Compiler}

theorem isSegment_reserved : ∀ s ∈ segments reservedPackage, IsSegment s := by
  unfold IsSegment
  decide

theorem isReservedPackage_dotted {rest : List String} (hrest : ∀ s ∈ rest, IsSegment s) :
    isReservedPackage (dotted (segments reservedPackage ++ rest)) = true := by
  by_cases hnil : rest = []
  · rw [hnil]
    decide
  · have hjoin := Name.join_dotted isSegment_reserved (dotted rest)
    rw [Name.segments_dotted hnil fun s hs => (hrest s hs).2, Name.dotted_segments, join,
      if_neg (by decide)] at hjoin
    rw [← hjoin, isReservedPackage, Bool.or_eq_true]
    right
    rw [ isPrefixOf_iff_prefix]
    simp only [String.toList_append]
    exact prefix_append _ _

theorem not_isReservedPackage (h : c.build before = .ok set after)
    (hset : set.files ≠ []) {f : PendingFile} (hf : (name, f) ∈ assembled c.inputs) :
    isReservedPackage f.file.package = false := by
  unfold build at h
  simp only [bind, EStateM.bind] at h
  cases hassemble : assembleAll .empty [] c.inputs before with
  | error e middle =>
    simp only [hassemble] at h
    cases h
  | ok r middle =>
    obtain ⟨finished, pending⟩ := r
    obtain ⟨_, hpending, _⟩ := assembleAll_ok hassemble
    rw [nil_append] at hpending
    subst hpending
    simp only [hassemble] at h
    by_cases hreserved : (reservedSpaceViolations (assembled c.inputs)).isEmpty = true
    · have hnone : _ = [] := map_eq_nil_iff.mp (isEmpty_iff.mp hreserved)
      simpa using filter_eq_nil_iff.mp hnone _ hf
    · rw [if_neg hreserved] at h
      cases h
      exact absurd rfl hset

end Compiler

namespace Ledger

variable {l : Ledger} {f : FileDescriptor}

theorem Describes.exists_around (h : l.Describes f) {d : Definition} (hss : ∀ x ∈ ss, IsSegment x)
    (hs : IsSegment s) (hne : ss ≠ []) (hd : (dotted (ss ++ [s]), d) ∈ f.definitions) :
    ∃ kind, f.symbolKind? (dotted ss) = some kind := by
  have hall : ∀ x ∈ ss ++ [s], '.' ∉ x.toList := by
    intro x hx
    rcases mem_append.mp hx with hx | hx
    · exact (hss x hx).2
    · exact mem_singleton.mp hx ▸ hs.2
  -- A symbol stands below another one, and an extension was declared below one.
  have hnode : ∃ node < l.size, l.symbols.path node = ss := by
    cases hkind : d.symbolKind? with
    | some kind =>
      obtain ⟨node, hone, hlt, hfull, _⟩ := (h.symbols _ kind).mp ⟨d, hd, hkind⟩
      have hpath : l.symbols.path node = ss ++ [s] := by
        refine Name.dotted_injective (h.sound.tree.path_ne_nil hlt (Nat.one_le_iff_ne_zero.mp hone))
          (by simp) (fun x hx => (h.sound.tree.isSegment_of_mem_path hlt x hx).2) hall ?_
        rw [← SymbolTable.fullName_eq, hfull]
      obtain ⟨_, p, _, _, _, hp, hlt, _⟩ := h.sound.tree.exists_parent hlt hpath
      exact ⟨p, hlt, hp⟩
    | none =>
      obtain ⟨node, name, hmem, hname, hfull⟩ := h.extensions _ d hd hkind
      have hlt := (h.sound.taken _ hmem).1
      have hpath := h.sound.tree.isSegment_of_mem_path hlt
      rw [SymbolTable.fullName_eq, Name.join_dotted hpath,
        Name.segments_of_isSegment hname] at hfull
      have hsame := Name.dotted_injective (by simp) (by simp) hall (by
        intro x hx
        rcases mem_append.mp hx with hx | hx
        · exact (hpath x hx).2
        · exact mem_singleton.mp hx ▸ hname.2) hfull
      exact ⟨node, hlt, (append_inj_left' hsame rfl).symm⟩
  obtain ⟨node, hlt, hpath⟩ := hnode
  obtain ⟨kind, hkind⟩ := SymbolTable.exists_kind? hlt
  have hzero : node ≠ 0 := by
    rintro rfl
    exact hne (hpath.symm.trans h.sound.tree.path_root)
  exact ⟨kind, h.symbolKind?_eq_some_iff.mpr
    ⟨node, Nat.one_le_iff_ne_zero.mpr hzero, hlt, by rw [SymbolTable.fullName_eq, hpath], hkind⟩⟩

end Ledger

theorem SchemaInput.described {text : String} (h : (source text).assembled? name = some p) :
    ∃ (f : FileDescriptor) (ledger : Ledger), ledger.Describes f ∧
      p.file.definitions = f.definitions ∧
      dotted ((segments p.file.package).filter (· ≠ "")) = p.file.package := by
  obtain ⟨tree, built, log, hparse, hbuilt, rfl⟩ := assembled?_eq_some h
  obtain ⟨a, f, hwalk, hfinish, hresolved, _⟩ := Tree.File.assemble_eq_ok hbuilt
  have hwritten := Tree.File.parse_isWritten hparse
  have hpackage : built.file.package = (tree.package?.map (·.name)).getD "" :=
    congrArg FileDescriptor.package (Tree.File.assemble_heading hbuilt)
  refine ⟨f, a.ledger, Assembly.describes_of_walk hwritten hwalk hfinish, ?_, ?_⟩
  · exact (congrArg (·.1.definitions) hresolved).trans (Reference.definitions_resolveAll _ _ _)
  · rw [hpackage]
    exact Assembly.dotted_package hwritten

theorem MessageDescriptor.ne_package (m : MessageDescriptor) (scope : String) (path : Path) :
    ∀ x ∈ m.definitions scope path, x.2 ≠ .package := by
  induction m using induction generalizing scope path with
  | _ m ih =>
    intro x hx
    rcases mem_definitions.mp hx with ⟨_, d, hd, hx⟩ | hx | hx | rfl
    · exact ih d (mem_of_getElem? hd) _ _ x hx
    · obtain ⟨_, _, _, rfl⟩ := Definition.mem_listed.mp hx
      exact Definition.noConfusion
    · obtain ⟨_, _, _, rfl⟩ := Definition.mem_listed.mp hx
      exact Definition.noConfusion
    · exact Definition.noConfusion

theorem FileDescriptor.mem_packagePrefixes {f : FileDescriptor}
    (h : (full, .package) ∈ f.definitions) :
    full ∈ packagePrefixes "" ((segments f.package).filter (· ≠ "")) := by
  simp only [definitions, mem_append] at h
  rcases h with (((h | h) | h) | h) | h
  · obtain ⟨p, hp, heq⟩ := mem_map.mp h
    cases heq
    exact hp
  · obtain ⟨_, m, _, h⟩ := MessageDescriptor.mem_definitionsFrom.mp h
    exact absurd rfl (m.ne_package _ _ _ h)
  all_goals
    obtain ⟨_, _, _, heq⟩ := Definition.mem_listed.mp h
    cases heq

namespace Compiler

variable {c : Compiler} {name text : String} {l : LinkedFile}

/-- What is built from a text and declares a name right below the reserved package declares
something under the name of that package, which is no package. -/
theorem Builds.declares_reserved (hc : c.IsAccepted)
    (hbuild : c.build before = .ok set after) (hset : set.files ≠ []) (h : c.Builds name l)
    (hname : name ≠ metaSchemaFile) (hinput : c.inputs.lookup name = some (.source text))
    (hs : IsSegment s) (hdeclared : l.index.get? (join reservedPackage s) ≠ none) :
    ∃ kind, l.proto.symbolKind? reservedPackage = some kind ∧ kind ≠ .package := by
  rcases h.linked with ⟨_, hschema⟩ | ⟨p, _, _, _, _, hfinish, input, hlookup, hassembled, _⟩
  · exact absurd hschema hname
  cases hinput.symm.trans hlookup
  obtain ⟨hindex, hdefinitions⟩ := hfinish.definitions
  obtain ⟨f, ledger, hledger, hwritten, hpackage⟩ := SchemaInput.described hassembled
  have hjoin : join reservedPackage s = dotted (segments reservedPackage ++ [s]) := by
    have hdotted := Name.join_dotted isSegment_reserved s
    rwa [Name.dotted_segments, Name.segments_of_isSegment hs] at hdotted
  obtain ⟨d, hd⟩ := Option.ne_none_iff_exists'.mp hdeclared
  rw [hindex, SymbolIndex.get?_ofFile, hdefinitions, hwritten, hjoin] at hd
  have hmem : (dotted (segments reservedPackage ++ [s]), d) ∈ f.definitions := by
    obtain ⟨before, after, heq, _⟩ := lookup_eq_some_iff.mp hd
    simp [heq]
  obtain ⟨kind, hkind⟩ := hledger.exists_around isSegment_reserved hs (Name.segments_ne_nil _) hmem
  rw [Name.dotted_segments] at hkind
  refine ⟨kind, ?_, ?_⟩
  · rw [FileDescriptor.symbolKind?, SymbolIndex.get?_ofFile, hdefinitions, hwritten,
      ← SymbolIndex.get?_ofFile]
    exact hkind
  · rintro rfl
    -- A package of that name would make the package of the file a reserved one.
    obtain ⟨d, hd, hpackageKind⟩ :=
      (hledger.symbols _ _).mpr (hledger.symbolKind?_eq_some_iff.mp hkind)
    have hsame : d = .package := by
      cases d <;> first | rfl | cases hpackageKind
    subst hsame
    rw [← hwritten] at hd
    have hsegments : ∀ x ∈ (segments p.file.package).filter (· ≠ ""), IsSegment x := by
      intro x hx
      obtain ⟨hx, hne⟩ := mem_filter.mp hx
      exact ⟨by simpa using hne, Name.not_mem_of_mem_segments hx⟩
    have hmember : reservedPackage ∈ FileDescriptor.packagePrefixes (dotted []) _ :=
      FileDescriptor.mem_packagePrefixes hd
    obtain ⟨first, rest, hsplit, hfirst⟩ :=
      FileDescriptor.exists_of_mem_packagePrefixes hsegments (by simp) hmember
    rw [hsplit] at hsegments hpackage
    have hfirst : first = segments reservedPackage := by
      rw [nil_append] at hfirst
      have hne : first ≠ [] := by
        rintro rfl
        exact absurd hfirst (by decide)
      rw [hfirst, Name.segments_dotted hne fun x hx => (hsegments x (by simp [hx])).2]
    rw [hfirst] at hpackage
    have hfree := not_isReservedPackage hbuild hset
      (mem_assembled.mpr ⟨_, (mem_inputs_iff hc).mp hlookup, hname, hassembled⟩)
    rw [← hpackage, isReservedPackage_dotted fun x hx => hsegments x (by simp [hx])] at hfree
    cases hfree

end Compiler

theorem OptionsKind.typeName_eq (kind : OptionsKind) :
    kind.typeName = join reservedPackage (kind.name ++ "Options") ∧
      IsSegment (kind.name ++ "Options") := by
  unfold IsSegment
  cases kind <;> decide

/-- In every file that is built, other than the schema of schemas, the options of a kind are values
of the message that the schema of schemas has for them if and only if no file that is looked into
before declares the name of that message. A file that is built from a text declares it only below
something else that is called like the reserved package. -/
theorem options_type_decided {c : Compiler} (hc : c.IsAccepted) {set : FileSet} {before after : Log}
    (h : c.build before = .ok set after) {name : String} {l : LinkedFile}
    (hl : (name, l) ∈ set.files) (hname : name ≠ metaSchemaFile) (kind : OptionsKind) :
    ((Pool.full l).lookup? kind.typeName = MetaSchema.file.meaning? kind.typeName ↔
      ∀ f ∈ l.foremost, f.index.get? kind.typeName = none) ∧
    ((∀ f ∈ l.foremost, f.index.get? kind.typeName = none) →
      (Pool.full l).types.message? kind.typeName = some (MetaSchema.optionsOf kind)) ∧
    ∀ f ∈ l.foremost, ∀ text, c.inputs.lookup f.name = some (.source text) →
      f.index.get? kind.typeName ≠ none →
      ∃ k, f.proto.symbolKind? reservedPackage = some k ∧ k ≠ .package := by
  have hbuilds := Compiler.builds_of_build hc h hl
  have hlname : l.name ≠ metaSchemaFile := by rwa [hbuilds.name_eq hc]
  obtain ⟨rest, hfiles⟩ := hbuilds.schema_next hc
  have hlookup := l.lookup?_full kind.typeName
  have hschema : MetaSchema.file.meaning? kind.typeName =
      some (MetaSchema.proto, .message [Tag.fileMessage.step, MetaSchema.optionsIndex kind]) := by
    rw [LinkedFile.meaning?, MetaSchema.get?_options]
    rfl
  rw [hfiles, findSome?_append, findSome?_cons, hschema] at hlookup
  have hown (hnone : ∀ f ∈ l.foremost, f.index.get? kind.typeName = none) :
      (Pool.full l).lookup? kind.typeName = MetaSchema.file.meaning? kind.typeName := by
    have hnothing : l.foremost.findSome? (LinkedFile.meaning? kind.typeName) = none :=
      findSome?_eq_none_iff.mpr fun f hf => LinkedFile.meaning?_eq_none.mpr (hnone f hf)
    rw [hlookup, hnothing, hschema]
    rfl
  refine ⟨⟨?_, hown⟩, fun hnone => ?_, ?_⟩
  · intro hsame
    cases hfound : l.foremost.findSome? (LinkedFile.meaning? kind.typeName) with
    | none =>
      intro f hf
      exact LinkedFile.meaning?_eq_none.mp (findSome?_eq_none_iff.mp hfound f hf)
    | some x =>
      -- The file of the meaning that was found would be called like the schema of schemas.
      obtain ⟨f, hf, hx⟩ := exists_of_findSome?_eq_some hfound
      obtain ⟨d, _, rfl⟩ := Option.map_eq_some_iff.mp hx
      rw [hlookup, hfound, Option.some_or, hschema] at hsame
      have hproto : f.proto = MetaSchema.proto := congrArg Prod.fst (Option.some.inj hsame)
      exact absurd (congrArg FileDescriptor.name hproto) (LinkedFile.name_of_mem_foremost hlname hf)
  · simp only [Pool.types, hown hnone, hschema, Option.bind_some]
    exact MetaSchema.messageOf?_options kind
  · intro f hf text hinput hdeclared
    have hreaches : l.Reaches f := by
      rcases mem_cons.mp hf with rfl | hf
      · exact .refl
      · exact (LinkedFile.sees_of_mem_visible ((takeWhile_sublist _).subset hf)).reaches
    have hfname := LinkedFile.name_of_mem_foremost hlname hf
    rcases hbuilds.reaches hreaches with rfl | ⟨x, hx⟩
    · exact absurd rfl hfname
    · obtain rfl := hx.name_eq hc
      obtain ⟨htype, hsegment⟩ := kind.typeName_eq
      rw [htype] at hdeclared
      exact hx.declares_reserved hc h (ne_nil_of_mem hl) hfname hinput hsegment hdeclared

namespace Hijacked

/-- A file without a package that declares the name of an options type, and a file that imports
it. -/
def compiler : Compiler := .ofTexts {} [
  ("dep.proto", "message google { message protobuf { message FileOptions {} } }"),
  ("main.proto", "import \"dep.proto\";")]

theorem isAccepted : compiler.IsAccepted := Compiler.isAccepted_ofTexts {} (by decide)

def isReplaced (l : LinkedFile) : Bool :=
  ((Pool.full l).types.message? OptionsKind.file.typeName).any fun m => m.fields.isEmpty

theorem ne_of_isReplaced (h : isReplaced l = true) :
    (Pool.full l).types.message? OptionsKind.file.typeName ≠
      MetaSchema.file.types.message? OptionsKind.file.typeName := by
  intro hsame
  have hschema : MetaSchema.file.types.message? OptionsKind.file.typeName =
      some (MetaSchema.optionsOf .file) := by
    simp only [LinkedFile.types, MetaSchema.get?_options]
    exact MetaSchema.messageOf?_options .file
  rw [isReplaced, hsame, hschema] at h
  cases h

set_option maxRecDepth 100000 in
/-- The file and its importer are built, and in both the options of a file are values of the message
that the file declares. -/
theorem file_options_replaced : ∃ set after dep main, compiler.build .empty = .ok set after ∧
    ("dep.proto", dep) ∈ set.files ∧ ("main.proto", main) ∈ set.files ∧
    (Pool.full dep).types.message? OptionsKind.file.typeName ≠
      MetaSchema.file.types.message? OptionsKind.file.typeName ∧
    (Pool.full main).types.message? OptionsKind.file.typeName ≠
      MetaSchema.file.types.message? OptionsKind.file.typeName := by
  have hcheck : ((compiler.returned? "dep.proto").any isReplaced &&
      (compiler.returned? "main.proto").any isReplaced) = true := by decide +kernel
  obtain ⟨hdep, hmain⟩ := Bool.and_eq_true_iff.mp hcheck
  obtain ⟨dep, hdep, hreplaced⟩ := (Option.any_eq_true _ _).mp hdep
  obtain ⟨main, hmain, hreplaced'⟩ := (Option.any_eq_true _ _).mp hmain
  obtain ⟨set, after, hbuild, hmem⟩ := Compiler.mem_of_returned? hdep
  obtain ⟨set', after', hbuild', hmem'⟩ := Compiler.mem_of_returned? hmain
  cases hbuild.symm.trans hbuild'
  exact ⟨set, after, dep, main, hbuild, hmem, hmem', ne_of_isReplaced hreplaced,
    ne_of_isReplaced hreplaced'⟩

set_option maxRecDepth 100000 in
theorem options_type_decided_hijacked : ∃ set after main, compiler.build .empty = .ok set after ∧
    ("main.proto", main) ∈ set.files ∧
    (Pool.full main).types.message? OptionsKind.message.typeName =
      some (MetaSchema.optionsOf .message) ∧
    (Pool.full main).lookup? OptionsKind.file.typeName ≠
      MetaSchema.file.meaning? OptionsKind.file.typeName ∧
    ∃ f ∈ main.foremost, f.name = "dep.proto" ∧
      ∃ k, f.proto.symbolKind? reservedPackage = some k ∧ k ≠ .package := by
  have hcheck : (compiler.returned? "main.proto").any (fun l =>
      (l.foremost.all fun f => decide (f.index.get? OptionsKind.message.typeName = none)) &&
      l.foremost.any fun f => decide (f.name = "dep.proto") &&
        decide (f.index.get? OptionsKind.file.typeName ≠ none)) = true := by
    decide +kernel
  obtain ⟨main, hmain, hcheck⟩ := (Option.any_eq_true _ _).mp hcheck
  obtain ⟨hmessage, hfile⟩ := Bool.and_eq_true_iff.mp hcheck
  obtain ⟨f, hf, hfile⟩ := any_eq_true.mp hfile
  obtain ⟨hname, hdeclared⟩ := Bool.and_eq_true_iff.mp hfile
  have hname := of_decide_eq_true hname
  have hdeclared := of_decide_eq_true hdeclared
  have hmessage (f : LinkedFile) (hf : f ∈ main.foremost) :=
    of_decide_eq_true (all_eq_true.mp hmessage f hf)
  obtain ⟨set, after, hbuild, hmem⟩ := Compiler.mem_of_returned? hmain
  obtain ⟨_, hown, _⟩ := options_type_decided isAccepted hbuild hmem (by decide) .message
  obtain ⟨hiff, _, hreserved⟩ := options_type_decided isAccepted hbuild hmem (by decide) .file
  refine ⟨set, after, main, hbuild, hmem, hown hmessage, ?_, f, hf, hname, ?_⟩
  · intro hsame
    exact hdeclared (hiff.mp hsame f hf)
  · exact hreserved f hf _ (by rw [hname]; rfl) hdeclared

end Hijacked

end ProtobufSchema

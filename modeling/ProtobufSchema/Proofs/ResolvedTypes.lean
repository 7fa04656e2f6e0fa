import ProtobufSchema.Proofs.TypeSites

/-! With strict names, every field and method of a file built from a text refers to types by full
names that denote what they are used for, in what the file sees. -/

namespace ProtobufSchema

variable {full : String}
variable {l : LinkedFile}

namespace LinkedFile

variable {file : FileDescriptor} {kind : SymbolKind} {d : Definition}

def CanUse (l f : LinkedFile) : Prop := f = l ∨ l.Sees f ∨ f = MetaSchema.file

/-- A full name denotes something of a kind, in one of the files that can be used. -/
def Finds (l : LinkedFile) (full : String) (kind : SymbolKind) : Prop :=
  ∃ f d, l.CanUse f ∧ f.index.get? full = some d ∧ (Pool.full l).lookup? full = some (f.proto, d) ∧
    d.symbolKind? = some kind

/-- A name of a type is written out in full, and denotes something of a kind. -/
def Denotes (l : LinkedFile) (name : String) (kind : SymbolKind) : Prop :=
  ∃ full, name = Name.qualify full ∧ l.Finds full kind

theorem canUse_of_lookup? (h : (Pool.full l).lookup? full = some (file, d)) :
    ∃ f, l.CanUse f ∧ f.index.get? full = some d ∧ f.proto = file := by
  unfold Pool.lookup? at h
  rw [index_full] at h
  cases hown : l.index.get? full with
  | some d' =>
    rw [hown] at h
    cases h
    have hfile : (Pool.full l).file = l.proto := Pool.withFallback_file (.ofFile l) MetaSchema.file
    exact ⟨l, .inl rfl, hown, hfile.symm⟩
  | none =>
    rw [hown] at h
    obtain ⟨f, hf, hfound⟩ := List.exists_of_findSome?_eq_some h
    obtain ⟨d', hd, hpair⟩ := Option.map_eq_some_iff.mp hfound
    cases hpair
    refine ⟨f, .inr ?_, hd, rfl⟩
    have hmem : f ∈ visible l.dependencies ∨ f = MetaSchema.file := by
      rcases (Pool.ofFile l).withFallback_cases MetaSchema.file with ⟨_, heq⟩ | heq
      · rw [Pool.full, heq] at hf
        exact .inl (by simpa [Pool.ofFile, Pool.ofDependencies] using hf)
      · rw [Pool.full, heq] at hf
        simpa [Pool.ofFile, Pool.ofDependencies] using hf
    exact hmem.imp sees_of_mem_visible id

theorem finds_of_lookup? (h : (Pool.full l).lookup? full = some (file, d))
    (hkind : d.symbolKind? = some kind) : l.Finds full kind := by
  obtain ⟨f, hf, hd, rfl⟩ := canUse_of_lookup? h
  exact ⟨f, d, hf, hd, h, hkind⟩

namespace Completes

variable {l : LinkedFile} {f : FileDescriptor} {strict : Bool}

theorem finds_own (h : l.Completes strict f) (hkind : f.symbolKind? full = some kind) :
    l.Finds full kind := by
  obtain ⟨d, hd, hkind⟩ := Option.bind_eq_some_iff.mp hkind
  have hindex : l.index.get? full = some d := by
    rw [h.index, SymbolIndex.get?_ofFile, h.definitions, ← SymbolIndex.get?_ofFile, hd]
  have hlookup : (Pool.full l).lookup? full = some ((Pool.full l).file, d) := by
    rw [Pool.lookup?, index_full, hindex]
  exact finds_of_lookup? hlookup hkind

theorem finds_answer? (h : l.Completes true f) {m : Mention} (hm : m ∈ f.mentions) :
    ∃ full kind, m.answer? f (.full l) true = some (full, kind) ∧ m.kind.accepts kind = true ∧
      l.Finds full kind := by
  obtain ⟨x, hx⟩ := Option.isSome_iff_exists.mp (h.answered m hm)
  refine ⟨x.1, x.2, hx, Mention.accepts_answer? hx, ?_⟩
  rcases Option.or_eq_some_iff.mp hx with hown | ⟨_, hseen⟩
  · exact h.finds_own (Mention.own?_eq_some hown).1
  · obtain ⟨file, d, hlookup, hkind⟩ := (Mention.seen?_eq_some hseen).2 rfl
    exact finds_of_lookup? hlookup hkind

theorem isResolved (h : l.Completes true f) {ledger : Ledger} (hledger : ledger.Describes f) :
    ∀ s ∈ l.proto.sites, s.2.IsResolved l.Finds := by
  intro s hs
  rw [h.sites] at hs
  obtain ⟨w, hw, rfl⟩ := List.mem_map.mp hs
  refine Placed.isResolved_answeredUse (hledger.settled w hw) (fun node hnode => ?_) fun m hm => ?_
  · exact h.finds_own (hledger.symbolKind?_fullName hnode)
  · exact h.finds_answer? (FileDescriptor.mem_mentions.mpr ⟨w, hw, hm⟩)

end Completes

end LinkedFile

/-- The type of a field and the name of its type: a scalar has none, and a name denotes a message or
an enum just as the type says. -/
def FieldType.Names (l : LinkedFile) (type : FieldType) : Option String → Prop
  | none => type.isScalar = true
  | some name => type.isMessage = true ∧ l.Denotes name .message ∨ type = .enum ∧
    l.Denotes name .enum

theorem FieldDescriptor.names_of_isResolved {f : FieldDescriptor}
    (h : f.use.IsResolved l.Finds) : (∃ type, f.type? = some type ∧ type.Names l f.typeName?) ∧
      ∀ x ∈ f.extendee?, l.Denotes x .message := by
  cases f
  cases h with
  | scalar htype hextendee => exact ⟨⟨_, rfl, htype⟩, hextendee⟩
  | message htype hname hextendee => exact ⟨⟨_, rfl, .inl ⟨htype, _, rfl, hname⟩⟩, hextendee⟩
  | enum hname hextendee => exact ⟨⟨_, rfl, .inr ⟨rfl, _, rfl, hname⟩⟩, hextendee⟩

theorem MethodDescriptor.names_of_isResolved {m : MethodDescriptor}
    (h : m.use.IsResolved l.Finds) : (∃ x, m.inputType? = some x ∧ l.Denotes x .message) ∧
      ∃ x, m.outputType? = some x ∧ l.Denotes x .message := by
  cases m
  cases h with
  | method hinput houtput => exact ⟨⟨_, rfl, _, rfl, hinput⟩, ⟨_, rfl, _, rfl, houtput⟩⟩

theorem Use.IsResolved.not_mem_names {u : Use} (h : u.IsResolved l.Finds)
    (hfull : ∀ f, l.CanUse f → f.index.get? full = none) : Name.qualify full ∉ u.names := by
  intro hmem
  obtain ⟨full', kind, heq, f, d, hf, hd, _⟩ := h.exists_qualify _ hmem
  have hsame : full = full' := by
    have habsolute := congrArg Name.absolute? heq
    rw [Name.absolute?_qualify, Name.absolute?_qualify] at habsolute
    exact Option.some.inj habsolute
  rw [← hsame, hfull f hf] at hd
  cases hd

/-- With strict names, in what is built from texts every field has a type, and every name of a type
is a full name that denotes what it is used for, in the file, in one that it sees or in the schema
of schemas. What only other files declare is not referred to. Positions in paths have 32 bits: the
lists of the file are taken to be short enough for them. -/
theorem references_denote {c : Compiler} (hc : c.IsAccepted)
    (hstrict : c.options.strictNames = true) (hsources : ∀ x ∈ c.inputs, ∃ text, x.2 = .source text)
    {set : FileSet} {before after : Log} (h : c.build before = .ok set after) {name : String}
    {l : LinkedFile} (hl : (name, l) ∈ set.files) (hname : name ≠ metaSchemaFile)
    (haddressable : l.proto.isAddressable = true) :
    (∀ x ∈ l.proto.allFields, (∃ type, x.2.type? = some type ∧ type.Names l x.2.typeName?) ∧
      ∀ e ∈ x.2.extendee?, l.Denotes e .message) ∧
    (∀ x ∈ l.proto.allMethods, (∃ n, x.2.inputType? = some n ∧ l.Denotes n .message) ∧
      ∃ n, x.2.outputType? = some n ∧ l.Denotes n .message) ∧
    ∀ full, (∀ f, l.CanUse f → f.index.get? full = none) →
      (∀ x ∈ l.proto.allFields, Name.qualify full ∉ x.2.use.names) ∧
      ∀ x ∈ l.proto.allMethods, Name.qualify full ∉ x.2.use.names := by
  have hbuilds := Compiler.builds_of_build hc h hl
  obtain ⟨input, hinput⟩ := hbuilds.exists_input
  obtain ⟨text, rfl⟩ := hsources _ ((Compiler.mem_inputs_iff hc).mp hinput)
  obtain ⟨_, f, ledger, _, _, hledger, _, hcompletes⟩ := hbuilds.completes hname hinput haddressable
  rw [hstrict] at hcompletes
  have hsites := hcompletes.isResolved hledger
  have hfields : ∀ x ∈ l.proto.allFields, x.2.use.IsResolved l.Finds := by
    intro x hx
    obtain ⟨_, hsite⟩ := FileDescriptor.exists_site_of_mem_allFields hx
    exact hsites _ hsite
  have hmethods : ∀ x ∈ l.proto.allMethods, x.2.use.IsResolved l.Finds := by
    intro x hx
    obtain ⟨_, hsite⟩ := FileDescriptor.exists_site_of_mem_allMethods hx
    exact hsites _ hsite
  exact ⟨fun x hx => FieldDescriptor.names_of_isResolved (hfields x hx),
    fun x hx => MethodDescriptor.names_of_isResolved (hmethods x hx),
    fun full hfull => ⟨fun x hx => (hfields x hx).not_mem_names hfull,
      fun x hx => (hmethods x hx).not_mem_names hfull⟩⟩

namespace Imported

def compiler : Compiler := .ofTexts {} [
  ("dep.proto", "package d; message T {} enum E { A = 0; }"),
  ("main.proto", "import \"dep.proto\"; message M { map<string, d.E> e = 2; } " ++
    "service S { rpc R (M) returns (d.T); }")]

set_option maxRecDepth 100000 in
theorem references_denote_imported :
    ∃ set after l, compiler.build .empty = .ok set after ∧ ("main.proto", l) ∈ set.files ∧
      l.proto.isAddressable = true ∧ (∃ x ∈ l.proto.allFields, x.2.typeName? = some ".d.E" ∧
        x.2.type? = some .enum ∧ l.Denotes ".d.E" .enum) ∧
      ∃ x ∈ l.proto.allMethods, x.2.outputType? = some ".d.T" ∧ l.Denotes ".d.T" .message := by
  have hcheck : (compiler.returned? "main.proto").any (fun l => l.proto.isAddressable &&
      (l.proto.allFields.any fun x => x.2.typeName? == some ".d.E" && x.2.type? == some .enum) &&
      l.proto.allMethods.any fun x => x.2.outputType? == some ".d.T") = true := by
    decide +kernel
  obtain ⟨l, hl, hcheck⟩ := (Option.any_eq_true _ _).mp hcheck
  obtain ⟨hcheck, hmethod⟩ := Bool.and_eq_true_iff.mp hcheck
  obtain ⟨haddressable, hfield⟩ := Bool.and_eq_true_iff.mp hcheck
  obtain ⟨x, hx, hfield⟩ := List.any_eq_true.mp hfield
  obtain ⟨y, hy, hmethod⟩ := List.any_eq_true.mp hmethod
  obtain ⟨hname, htype⟩ := Bool.and_eq_true_iff.mp hfield
  have hname := eq_of_beq hname
  have htype := eq_of_beq htype
  have houtput := eq_of_beq hmethod
  obtain ⟨set, after, hbuild, hmem⟩ := Compiler.mem_of_returned? hl
  have hsources : ∀ x ∈ compiler.inputs, ∃ text, x.2 = .source text := by
    simp [compiler, Compiler.ofTexts]
  obtain ⟨hfields, hmethods, _⟩ :=
    references_denote (Compiler.isAccepted_ofTexts {} (by decide)) rfl hsources
    hbuild hmem (by decide) haddressable
  obtain ⟨⟨type, htype', hnames⟩, _⟩ := hfields x hx
  cases htype.symm.trans htype'
  rw [hname] at hnames
  obtain ⟨_, n, hn, hdenotes⟩ := hmethods y hy
  cases houtput.symm.trans hn
  rcases hnames with ⟨hmessage, _⟩ | ⟨_, henum⟩
  · cases hmessage
  · exact ⟨set, after, l, hbuild, hmem, haddressable, ⟨x, hx, hname, htype, henum⟩, y, hy, hn,
      hdenotes⟩

end Imported

end ProtobufSchema

import ProtobufSchema.Proofs.TypeSites

/-! A name that is not written out in full is looked up among the symbols of its own file first, and
only then in all that the file can use. -/

namespace ProtobufSchema

open Name (join)

variable {x : String × SymbolKind} {m : Mention}

def Mention.slot? (f : FileDescriptor) (m : Mention) : Option String :=
  match m.kind with
  | .fieldType => (f.fieldAt? m.path).bind (·.typeName?)
  | .extendee => (f.fieldAt? m.path).bind (·.extendee?)
  | .methodInput => (f.methodAt? m.path).bind (·.inputType?)
  | .methodOutput => (f.methodAt? m.path).bind (·.outputType?)

/-- One search of all that can be used, from the closest scope outwards. -/
def Mention.search? (p : Pool) (m : Mention) : Option String :=
  (p.resolveWith? m.name m.scope fun d => d.symbolKind?.any m.kind.accepts).map (·.fullName)

def Use.name? : Use → ReferenceKind → Option String
  | field _ typeName? _, .fieldType => typeName?
  | field _ _ extendee?, .extendee => extendee?
  | method inputType? _, .methodInput => inputType?
  | method _ outputType?, .methodOutput => outputType?
  | _, _ => none

theorem Placed.name?_answeredUse {A : Answering} {w : Placed Use} (hm : m ∈ w.useMentions)
    (hx : A m = some x) : m.path = w.path ∧
      (w.answeredUse A).name? m.kind = some (Name.qualify x.1) := by
  obtain ⟨path, scope, written, value⟩ := w
  -- The four kinds of references are alike.
  cases value <;> simp only [useMentions, List.mem_append, Option.mem_toList] at hm <;>
    rcases hm with hm | hm <;> obtain ⟨name, _, rfl⟩ := Option.map_eq_some_iff.mp hm <;>
    exact ⟨rfl, by simp only [answeredUse, Use.name?, hm, Option.bind_some, hx, Option.map_some,
      Option.some_or]⟩

theorem FileDescriptor.slot?_of_mem_sites {f : FileDescriptor} (hf : f.isAddressable = true)
    {u : Use} {name : String} (hu : (m.path, u) ∈ f.sites) (hname : u.name? m.kind = some name) :
    m.slot? f = some name := by
  obtain ⟨path, kind, scope, written⟩ := m
  rw [sites_eq, List.mem_append] at hu
  rcases hu with hu | hu
  · obtain ⟨w, hw, hsite⟩ := List.mem_map.mp hu
    cases hsite
    have hat := (fieldAt?_of_mem hf hw).1
    cases kind with
    | fieldType => exact (congrArg (·.bind FieldDescriptor.typeName?) hat).trans hname
    | extendee => exact (congrArg (·.bind FieldDescriptor.extendee?) hat).trans hname
    | methodInput => cases hname
    | methodOutput => cases hname
  · obtain ⟨w, hw, hsite⟩ := List.mem_map.mp hu
    cases hsite
    have hat := (methodAt?_of_mem hf hw).1
    cases kind with
    | fieldType => cases hname
    | extendee => cases hname
    | methodInput => exact (congrArg (·.bind MethodDescriptor.inputType?) hat).trans hname
    | methodOutput => exact (congrArg (·.bind MethodDescriptor.outputType?) hat).trans hname

namespace Mention

variable {f : FileDescriptor} {p : Pool} {m : Mention}

theorem own?_congr {f' : FileDescriptor} (h : f'.definitions = f.definitions) :
    m.own? f' = m.own? f := by
  have hindex : SymbolIndex.ofFile f' = .ofFile f := by
    rw [SymbolIndex.ofFile, SymbolIndex.ofFile, h]
  simp [own?, FileDescriptor.ownSymbol?, FileDescriptor.symbolKind?, hindex]

theorem answer?_of_relative (hname : Name.absolute? m.name = none) (strict : Bool) :
    (m.answer? f p strict).map Prod.fst = ((m.own? f).map Prod.fst).or (m.search? p) := by
  have hseen : (m.seen? p strict).map Prod.fst = m.search? p := by
    unfold seen? search?
    cases p.resolveWith? m.name m.scope fun d => d.symbolKind?.any m.kind.accepts with
    | some found => rfl
    | none => simp [hname]
  rw [answer?, Option.map_or, hseen]

theorem own?_eq_search? (hindex : p.index = .ofFile f) (hname : Name.absolute? m.name = none)
    (hown : m.own? f = some x) {full : String} (hsearch : m.search? p = some full)
    (hfull : (p.index.get? full).isSome) : full = x.1 := by
  obtain ⟨found, hfound, rfl⟩ := Option.map_eq_some_iff.mp hsearch
  obtain ⟨hsymbol, haccepts⟩ := Option.filter_eq_some_iff.mp hown
  simp only [FileDescriptor.ownSymbol?, hname] at hsymbol
  simp only [Pool.resolveWith?, hname] at hfound
  generalize Name.enclosing m.scope = scopes at hsymbol hfound
  have hlookup {full : String} {d : Definition} (hd : p.index.get? full = some d) :
      p.lookup? full = some (p.file, d) := by rw [Pool.lookup?, hd]
  induction scopes with
  | nil => cases hsymbol
  | cons s scopes ih =>
    rw [List.findSome?_cons] at hsymbol hfound
    cases hkind : f.symbolKind? (join s m.name) with
    | some kind =>
      -- The file has a symbol here, and both searches end.
      rw [hkind] at hsymbol
      cases hsymbol
      obtain ⟨d, hd, hd'⟩ := Option.bind_eq_some_iff.mp hkind
      rw [← hindex] at hd
      simp only [hlookup hd, Option.filter_some, hd', Option.any_some, haccepts, if_true,
        Option.map_some, Option.some.injEq] at hfound
      rw [← hfound]
    | none =>
      rw [hkind] at hsymbol
      cases hhere :
          ((p.lookup? (join s m.name)).filter fun d => d.2.symbolKind?.any m.kind.accepts) with
      | none =>
        rw [hhere] at hfound
        exact ih hsymbol hfound
      | some y =>
        -- What is found here stands in the file, so that the file has a symbol here after all.
        rw [hhere] at hfound
        cases hfound
        obtain ⟨hy, haccepts⟩ := Option.filter_eq_some_iff.mp hhere
        obtain ⟨d, hd⟩ := Option.isSome_iff_exists.mp hfull
        cases (hlookup hd).symm.trans hy
        obtain ⟨kind, hd', _⟩ := (Option.any_eq_true _ _).mp haccepts
        rw [FileDescriptor.symbolKind?, ← hindex, hd, Option.bind_some, hd'] at hkind
        cases hkind

end Mention

/-- The file of a name as its text says it, with no name of a type resolved. -/
def Compiler.written? (c : Compiler) (name : String) : Option FileDescriptor :=
  match c.inputs.lookup name with
  | some (.source text) => (Tree.File.parse text).toOption.bind (·.written? name)
  | _ => none

/-- In what is built from texts, a name of a type that is not written out in full ends up as the
closest symbol of the file itself, if that is of an acceptable kind, and otherwise as what one
search of all that the file can use finds, from the closest scope outwards. It is what this search
finds also where it ends in the file itself: only what other files declare can be passed over. -/
theorem local_symbol_or_search {c : Compiler} (hc : c.IsAccepted)
    (hsources : ∀ x ∈ c.inputs, ∃ text, x.2 = .source text) {set : FileSet} {before after : Log}
    (h : c.build before = .ok set after) {name : String} {l : LinkedFile}
    (hl : (name, l) ∈ set.files) (hname : name ≠ metaSchemaFile)
    (haddressable : l.proto.isAddressable = true) :
    ∃ f, c.written? name = some f ∧ ∀ m ∈ f.mentions, Name.absolute? m.name = none →
      ∃ full, ((m.own? l.proto).map Prod.fst).or (m.search? (Pool.full l)) = some full ∧
        m.slot? l.proto = some (Name.qualify full) ∧
        ∀ found, m.search? (Pool.full l) = some found →
          m.own? l.proto = none ∨ (l.index.get? found).isSome → found = full := by
  have hbuilds := Compiler.builds_of_build hc h hl
  obtain ⟨input, hinput⟩ := hbuilds.exists_input
  obtain ⟨text, rfl⟩ := hsources _ ((Compiler.mem_inputs_iff hc).mp hinput)
  obtain ⟨tree, f, _, hparse, hwritten, _, _, hcompletes⟩ :=
    hbuilds.completes hname hinput haddressable
  refine ⟨f, ?_, ?_⟩
  · simp only [Compiler.written?, hinput, hparse, Except.toOption, Option.bind_some, hwritten]
  intro m hm hrelative
  obtain ⟨x, hx⟩ := Option.isSome_iff_exists.mp (hcompletes.answered m hm)
  obtain ⟨w, hw, hmention⟩ := FileDescriptor.mem_mentions.mp hm
  obtain ⟨hpath, hslot⟩ := Placed.name?_answeredUse hmention hx
  have hsite : (m.path, w.answeredUse (Mention.answer? f (Pool.full l) c.options.strictNames)) ∈
      l.proto.sites := by
    rw [hcompletes.sites, hpath]
    exact List.mem_map_of_mem hw
  have hown : m.own? f = m.own? l.proto := Mention.own?_congr hcompletes.definitions.symm
  have hanswer :=
    Mention.answer?_of_relative (f := f) (p := Pool.full l) hrelative c.options.strictNames
  rw [hx, hown, Option.map_some] at hanswer
  refine ⟨x.1, hanswer.symm, FileDescriptor.slot?_of_mem_sites haddressable hsite hslot, ?_⟩
  intro found hfound hcase
  cases hsymbol : m.own? l.proto with
  | none =>
    rw [hsymbol, hfound] at hanswer
    exact (Option.some.inj hanswer).symm
  | some y =>
    rw [hsymbol] at hanswer hcase
    have hindex : (Pool.full l).index = .ofFile l.proto :=
      (LinkedFile.index_full l).trans hcompletes.index
    rcases hcase with hnone | hfull
    · cases hnone
    · rw [← LinkedFile.index_full] at hfull
      exact (Mention.own?_eq_search? hindex hrelative hsymbol hfound hfull).trans
        (Option.some.inj hanswer).symm

namespace Shadowed

def compiler : Compiler := .ofTexts {} [
  ("dep.proto", "package a.M; message Foo {}"),
  ("main.proto",
    "package a; import \"dep.proto\"; message Foo {} message M { optional Foo f = 1; }")]

def mention : Mention := ⟨[4, 1, 2, 0], .fieldType, "a.M", "Foo"⟩

set_option maxRecDepth 100000 in
theorem exists_built : ∃ l f, compiler.returned? "main.proto" = some l ∧
    compiler.written? "main.proto" = some f ∧ mention ∈ f.mentions ∧ l.proto.isAddressable = true ∧
    mention.search? (.full l) = some "a.M.Foo" ∧ mention.own? l.proto = some ("a.Foo", .message) ∧
    mention.slot? l.proto = some ".a.Foo" := by
  have hcheck : ((compiler.written? "main.proto").any (·.mentions.contains mention) &&
      (compiler.returned? "main.proto").any (fun l => l.proto.isAddressable &&
        decide (mention.search? (.full l) = some "a.M.Foo" ∧
          mention.own? l.proto = some ("a.Foo", .message) ∧
          mention.slot? l.proto = some ".a.Foo"))) = true := by
    decide +kernel
  obtain ⟨hwritten, hcheck⟩ := Bool.and_eq_true_iff.mp hcheck
  obtain ⟨f, hf, hmem⟩ := (Option.any_eq_true _ _).mp hwritten
  obtain ⟨l, hl, hcheck⟩ := (Option.any_eq_true _ _).mp hcheck
  obtain ⟨haddressable, hfound⟩ := Bool.and_eq_true_iff.mp hcheck
  exact ⟨l, f, hl, hf, by simpa using hmem, haddressable, of_decide_eq_true hfound⟩

theorem closer_message_passed_over :
    ∃ set after l f, compiler.build .empty = .ok set after ∧ ("main.proto", l) ∈ set.files ∧
      compiler.written? "main.proto" = some f ∧ mention ∈ f.mentions ∧
      mention.search? (Pool.full l) = some "a.M.Foo" ∧ mention.slot? l.proto = some ".a.Foo" := by
  obtain ⟨l, f, hl, hf, hmention, _, hsearch, _, hslot⟩ := exists_built
  obtain ⟨set, after, hbuild, hmem⟩ := Compiler.mem_of_returned? hl
  exact ⟨set, after, l, f, hbuild, hmem, hf, hmention, hsearch, hslot⟩

theorem local_symbol_or_search_shadowed :
    ∃ set after l f, compiler.build .empty = .ok set after ∧ ("main.proto", l) ∈ set.files ∧
      l.proto.isAddressable = true ∧ compiler.written? "main.proto" = some f ∧
      mention ∈ f.mentions ∧
      mention.own? l.proto = some ("a.Foo", .message) ∧ mention.slot? l.proto = some ".a.Foo" := by
  obtain ⟨l, f, hl, hf, hmention, haddressable, _, hown, _⟩ := exists_built
  obtain ⟨set, after, hbuild, hmem⟩ := Compiler.mem_of_returned? hl
  have hsources : ∀ x ∈ compiler.inputs, ∃ text, x.2 = .source text := by
    simp [compiler, Compiler.ofTexts]
  obtain ⟨f', hf', hall⟩ :=
    local_symbol_or_search (Compiler.isAccepted_ofTexts {} (by decide)) hsources
    hbuild hmem (by decide) haddressable
  cases hf.symm.trans hf'
  obtain ⟨full, hfull, hslot, _⟩ := hall mention hmention (by decide)
  rw [hown] at hfull
  cases hfull
  exact ⟨set, after, l, f, hbuild, hmem, haddressable, hf, hmention, hown, hslot⟩

end Shadowed

end ProtobufSchema

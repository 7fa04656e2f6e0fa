import ProtobufSchema.Proofs.BuildOrder

/-! The files that a compiler can finish are the least set that holds every file finished from
finished imports, and a build returns exactly these. -/

namespace ProtobufSchema

variable {start g : String}

namespace FileSet

variable {s : FileSet} {f : PendingFile}

theorem imported_eq_map {find : String → LinkedFile}
    (h : ∀ d ∈ f.file.dependencies, s.dependency? d = some (find d)) :
    s.isReady f = true ∧ s.imported f = f.file.dependencies.map find := by
  constructor
  · rw [isReady_iff]
    intro d hd
    exact ⟨find d, h d hd⟩
  · rw [← List.filterMap_eq_map]
    exact List.filterMap_congr h

end FileSet

namespace Compiler

variable {c c₁ c₂ : Compiler} {name : String} {l : LinkedFile} {set : FileSet}
variable {reported ds : List Diagnostic} {f : PendingFile} {stuck : Pending}

/-- The files that a compiler can finish, whatever the order. -/
inductive Builds (c : Compiler) : String → LinkedFile → Prop
  | schema {input : SchemaInput} (hinput : c.inputs.lookup metaSchemaFile = some input) :
    Builds c metaSchemaFile MetaSchema.file
  | file {name : String} {input : SchemaInput} {f : PendingFile} {l : LinkedFile}
    {ds : List Diagnostic} {find : String → LinkedFile} (hname : name ≠ metaSchemaFile)
    (hinput : c.inputs.lookup name = some input) (hassembled : input.assembled? name = some f)
    (hschema : find metaSchemaFile = MetaSchema.file)
    (himports : ∀ d ∈ f.file.dependencies, d ≠ metaSchemaFile → Builds c d (find d))
    (hfinish : c.Finishes name f (f.file.dependencies.map find) (some l) ds) : Builds c name l

def IsBuilt (c : Compiler) (s : FileSet) : Prop := ∀ name l, s.get? name = some l → c.Builds name l

theorem IsBuilt.builds (hc : c.IsAccepted) {s : FileSet} (hs : c.IsBuilt s)
    (hf : (name, f) ∈ assembled c.inputs) (hready : s.isReady f = true)
    (hfinish : c.Finishes name f (s.imported f) (some l) ds) : c.Builds name l := by
  obtain ⟨input, hinput, hname, hassembled⟩ := mem_assembled.mp hf
  have hfound : ∀ d ∈ f.file.dependencies, s.dependency? d =
      some ((s.dependency? d).getD MetaSchema.file) := by
    intro d hd
    obtain ⟨dep, hdep⟩ := FileSet.isReady_iff.mp hready d hd
    rw [hdep]
    rfl
  rw [(FileSet.imported_eq_map hfound).2] at hfinish
  refine .file hname ((mem_inputs_iff hc).mpr hinput) hassembled ?_ ?_ hfinish
  · rfl
  · intro d hd hother
    have hget := hfound d hd
    rw [FileSet.dependency?, if_neg hother] at hget ⊢
    exact hs d _ hget

theorem builds_of_mem (hc : c.IsAccepted) {s : Progress} (hsound : c.Sound s) {i : Nat}
    (h : s.finished.files[i]? = some (name, l)) : c.Builds name l := by
  -- The induction is on the position: what a file is linked to was found among those in front.
  induction i using Nat.strong_induction_on generalizing name l with
  | _ i ih =>
    rcases hsound.linked i name l h with ⟨rfl, rfl, hinput⟩ | ⟨f, ds, hf, hready, hfinish⟩
    · obtain ⟨⟨_, input⟩, hmem, rfl⟩ := List.mem_map.mp hinput
      exact .schema ((mem_inputs_iff hc).mpr hmem)
    · have hfront : c.IsBuilt ⟨s.finished.files.take i⟩ := by
        intro d dep hdep
        obtain ⟨j, hj, hfile⟩ := List.mem_take_iff_getElem.mp (FileSet.mem_of_get? hdep)
        obtain ⟨hji, hjset⟩ := Nat.lt_min.mp hj
        exact ih j hji (by rw [List.getElem?_eq_getElem hjset, hfile])
      exact hfront.builds hc hf hready hfinish

theorem get?_of_builds (hc : c.IsAccepted)
    (hsound : c.Sound ⟨set, stuck, reported⟩) (hend : set.ready stuck = []) (h : c.Builds name l) :
    set.get? name = some l := by
  induction h with
  | schema hinput => exact hsound.get?_schema ((mem_inputs_iff hc).mp hinput)
  | @file name input f l ds find hname hinput hassembled hschema _ hfinish ih =>
    have hfound : ∀ d ∈ f.file.dependencies, set.dependency? d = some (find d) := by
      intro d hd
      by_cases hother : d = metaSchemaFile
      · rw [FileSet.dependency?, if_pos hother, hother, hschema]
      · rw [FileSet.dependency?, if_neg hother, ih d hd hother]
    obtain ⟨hready, himported⟩ := FileSet.imported_eq_map hfound
    have hmem : (name, f) ∈ assembled c.inputs :=
      mem_assembled.mpr ⟨input, (mem_inputs_iff hc).mp hinput, hname, hassembled⟩
    rcases hsound.settled _ hmem with hstuck | ⟨_, es, hsettled, _⟩
    · have hwaits : (name, f) ∈ set.ready stuck := List.mem_filter.mpr ⟨hstuck, hready⟩
      rw [hend] at hwaits
      cases hwaits
    · rw [himported] at hsettled
      exact hsettled.unique hfinish

theorem get?_iff_builds (hc : c.IsAccepted)
    (hsound : c.Sound ⟨set, stuck, reported⟩) (hend : set.ready stuck = []) :
    set.get? name = some l ↔ c.Builds name l := by
  constructor
  · intro h
    obtain ⟨i, hi⟩ := List.mem_iff_getElem?.mp (FileSet.mem_of_get? h)
    exact builds_of_mem hc hsound hi
  · exact get?_of_builds hc hsound hend

theorem Finishes.of_options (hoptions : c₁.options = c₂.options)
    {dependencies : List LinkedFile} {done? : Option LinkedFile}
    (h : c₁.Finishes name f dependencies done? ds) : c₂.Finishes name f dependencies done? ds := by
  intro log
  rw [← h log, finish, finish, hoptions]

theorem Builds.transfer (hc : c₁.IsAccepted) (hoptions : c₁.options = c₂.options)
    (h : c₁.Builds name l)
    (hsame : ∀ g, Relation.ReflTransGen c₁.Imports name g →
      c₁.inputs.lookup g = c₂.inputs.lookup g) : c₂.Builds name l := by
  induction h with
  | schema hinput => exact .schema (hsame _ .refl ▸ hinput)
  | @file name input f l ds find hname hinput hassembled hschema _ hfinish ih =>
    refine .file hname (hsame _ .refl ▸ hinput) hassembled hschema ?_ (hfinish.of_options hoptions)
    intro d hd hother
    have hnamed := hc.wellNamed.isNamed _ ((mem_inputs_iff hc).mp hinput)
    have himport : c₁.Imports name d := by
      refine ⟨input, hinput, ?_⟩
      rw [← (SchemaInput.assembled?_heading hnamed hassembled).2]
      exact hd
    exact ih d hd hother fun g hg => hsame g (.head himport hg)

theorem reflTransGen_imports (hsame : ∀ g, Relation.ReflTransGen c₁.Imports start g →
      c₁.inputs.lookup g = c₂.inputs.lookup g)
    (h : Relation.ReflTransGen c₂.Imports start g) : Relation.ReflTransGen c₁.Imports start g := by
  induction h with
  | refl => exact .refl
  | tail _ hstep ih =>
    obtain ⟨input, hinput, htarget⟩ := hstep
    exact ih.tail ⟨input, (hsame _ ih).trans hinput, htarget⟩

/-- A set that a compiler returns without reporting a reserved package. -/
def Returns (c : Compiler) (set : FileSet) : Prop :=
  ∃ before reported, c.build before = .ok set (before.extend reported) ∧
    ∀ d ∈ reported, d.cause? ≠ some .reservedSpaceViolation

theorem Returns.get?_iff (hc : c.IsAccepted) (h : c.Returns set) :
    set.get? name = some l ↔ c.Builds name l := by
  obtain ⟨before, reported, hbuild, hunreserved⟩ := h
  rcases build_cases hc hbuild with ⟨_, ds, hlog, d, hd, hcause⟩ | ⟨stuck, rs, hsound, hend, _⟩
  · rw [Log.extend_injective before hlog] at hunreserved
    exact absurd hcause (hunreserved d hd)
  · exact get?_iff_builds hc hsound hend

theorem lookup_of_subset (hc₁ : c₁.IsAccepted) (hc₂ : c₂.IsAccepted) (hsub : c₁.inputs ⊆ c₂.inputs)
    (h : c₂.hasInput name = true → c₁.hasInput name = true) :
    c₁.inputs.lookup name = c₂.inputs.lookup name := by
  apply Option.ext
  intro input
  rw [mem_inputs_iff hc₁, mem_inputs_iff hc₂]
  constructor
  · exact fun hmem => hsub hmem
  · intro hmem
    obtain ⟨other, hother⟩ := hasInput_iff.mp (h (hasInput_iff.mpr ⟨input, hmem⟩))
    have hboth :=
      ((mem_inputs_iff hc₂).mpr hmem).symm.trans ((mem_inputs_iff hc₂).mpr (hsub hother))
    rw [Option.some.injEq] at hboth
    rwa [hboth]

end Compiler

/-- A file's result depends only on what it imports. Two compilers with the same options, which
agree on every input that imports lead to from a name, return the same under that name: the same
file or none. In particular the order of the inputs makes no difference, and neither do further
inputs that the imports of the file do not lead to. -/
theorem build_local {c₁ c₂ : Compiler} (hc₁ : c₁.IsAccepted) (hc₂ : c₂.IsAccepted)
    (hoptions : c₁.options = c₂.options) {set₁ set₂ : FileSet} (hset₁ : c₁.Returns set₁)
    (hset₂ : c₂.Returns set₂) :
    (∀ name, (∀ g, Relation.ReflTransGen c₁.Imports name g →
      c₁.inputs.lookup g = c₂.inputs.lookup g) → set₁.get? name = set₂.get? name) ∧
    (c₁.inputs.Perm c₂.inputs → ∀ name, set₁.get? name = set₂.get? name) ∧
    (c₁.inputs ⊆ c₂.inputs → ∀ name, (∀ g, Relation.ReflTransGen c₁.Imports name g →
      c₂.hasInput g = true → c₁.hasInput g = true) → set₁.get? name = set₂.get? name) := by
  have hlocal (name : String) (hsame : ∀ g, Relation.ReflTransGen c₁.Imports name g →
      c₁.inputs.lookup g = c₂.inputs.lookup g) : set₁.get? name = set₂.get? name := by
    have hback : ∀ g, Relation.ReflTransGen c₂.Imports name g →
        c₂.inputs.lookup g = c₁.inputs.lookup g :=
      fun g hg => (hsame g (Compiler.reflTransGen_imports hsame hg)).symm
    apply Option.ext
    intro l
    rw [hset₁.get?_iff hc₁, hset₂.get?_iff hc₂]
    exact ⟨fun h => h.transfer hc₁ hoptions hsame, fun h => h.transfer hc₂ hoptions.symm hback⟩
  refine ⟨hlocal, ?_, ?_⟩
  · intro hperm name
    apply hlocal
    intro g _
    apply Compiler.lookup_of_subset hc₁ hc₂ hperm.subset
    rw [Compiler.hasInput_iff, Compiler.hasInput_iff]
    rintro ⟨input, hinput⟩
    exact ⟨input, hperm.symm.subset hinput⟩
  · intro hsub name hunrelated
    apply hlocal
    intro g hg
    exact Compiler.lookup_of_subset hc₁ hc₂ hsub (hunrelated g hg)

namespace Forward

/-- The two files of `Backward` in the other order, and between them a file that imports one. -/
def compiler : Compiler where
  inputs := [("b.proto", .descriptor Backward.imported),
    ("c.proto", .descriptor (.importing "c.proto" ["a.proto"])),
    ("a.proto", .descriptor Backward.importer)]

def set : FileSet :=
  ⟨Backward.set.files ++ [("c.proto", .link (.importing "c.proto" ["a.proto"])
    [.link Backward.importer [.link Backward.imported [], MetaSchema.file]])]⟩

theorem isAccepted : compiler.IsAccepted := by
  have hfirst : ({} : Compiler).addDescriptor Backward.imported =
      .ok { inputs := compiler.inputs.take 1 } := rfl
  have hsecond : Compiler.addDescriptor { inputs := compiler.inputs.take 1 }
      (.importing "c.proto" ["a.proto"]) = .ok { inputs := compiler.inputs.take 2 } := rfl
  have hthird : Compiler.addDescriptor { inputs := compiler.inputs.take 2 } Backward.importer =
      .ok compiler := rfl
  exact .descriptor (.descriptor (.descriptor (.new {}) hfirst) hsecond) hthird

theorem build_eq : compiler.build .empty = .ok set .empty := by with_unfolding_all rfl

theorem hasInput_of_imports (hstart : Backward.compiler.hasInput start = true)
    (hg : Relation.ReflTransGen Backward.compiler.Imports start g)
    (h : compiler.hasInput g = true) : Backward.compiler.hasInput g = true := by
  rcases hg.cases_tail with rfl | ⟨name, _, input, hinput, htarget⟩
  · exact hstart
  · have hmem := (Compiler.mem_inputs_iff Backward.isAccepted).mp hinput
    simp only [Backward.compiler, List.mem_cons, List.not_mem_nil, or_false] at hmem
    rcases hmem with ⟨rfl, rfl⟩ | ⟨rfl, rfl⟩
    · rcases List.mem_pair.mp htarget with rfl | rfl
      · rfl
      · cases h
    · cases htarget

theorem build_local_backward :
    Backward.compiler.build .empty = .ok Backward.set .empty ∧
      compiler.build .empty = .ok set .empty ∧
    Backward.set.get? "a.proto" = set.get? "a.proto" := by
  have hset₁ : Backward.compiler.Returns Backward.set := ⟨.empty, [], Backward.build_eq, by simp⟩
  have hset₂ : compiler.Returns set := ⟨.empty, [], build_eq, by simp⟩
  have hsub : Backward.compiler.inputs ⊆ compiler.inputs := by simp [Backward.compiler, compiler]
  exact ⟨Backward.build_eq, build_eq,
    (build_local Backward.isAccepted isAccepted rfl hset₁ hset₂).2.2 hsub "a.proto"
      fun _ hg => hasInput_of_imports rfl hg⟩

end Forward

end ProtobufSchema

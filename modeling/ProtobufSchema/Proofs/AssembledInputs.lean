import ProtobufSchema.Compiler.Build
import ProtobufSchema.Proofs.AssembledFiles

/-! What is assembled from an input is decided by the input and its name. -/

namespace ProtobufSchema

open List

variable {f : PendingFile} {c : Compiler}
variable {name : String} {input : SchemaInput}

theorem lookup_eq_some_iff_mem {κ α : Type} [BEq κ] [LawfulBEq κ] {xs : List (κ × α)}
    (h : (xs.map Prod.fst).Nodup) {name : κ} {a : α} :
    xs.lookup name = some a ↔ (name, a) ∈ xs := by
  induction xs with
  | nil => simp
  | cons x xs ih =>
    obtain ⟨hx, hxs⟩ := nodup_cons.mp h
    rw [lookup_cons]
    by_cases hname : name = x.1
    · subst hname
      have hother : (x.1, a) ∉ xs := fun hmem => hx (mem_map.mpr ⟨_, hmem, rfl⟩)
      simp only [beq_self_eq_true, mem_cons, hother, or_false, Option.some.injEq]
      constructor
      · rintro rfl
        rfl
      · intro hpair
        rw [← hpair]
    · have hbeq : (name == x.1) = false := by simpa using hname
      have hne : (name, a) ≠ x := fun hpair => hname (by rw [← hpair])
      simp [hbeq, ih hxs, hne]

namespace SchemaInput

/-- The names of the files that an input imports. A text that is no schema imports nothing. -/
def imports : SchemaInput → List String
  | descriptor file => file.dependencies
  | tree t => t.imports.map (·.path)
  | source text =>
    match Tree.File.parse text with
    | .ok t => t.imports.map (·.path)
    | .error _ => []

def IsNamed (name : String) : SchemaInput → Prop
  | descriptor file => file.name = name
  | tree _ | source _ => True

def assembled? (name : String) (input : SchemaInput) : Option PendingFile :=
  match Compiler.assemble name input .empty with
  | .ok f? _ => f?
  | .error _ _ => none

end SchemaInput

namespace Compiler

variable {text : String} {t : Tree.File} (options : BuildOptions)

inductive IsAccepted : Compiler → Prop
  | new (options : BuildOptions) : IsAccepted { options := options }
  | source {c c' : Compiler} {name text : String} (h : IsAccepted c)
    (hadd : c.add name (.source text) = .ok c') : IsAccepted c'
  | tree {c c' : Compiler} {name : String} {t : Tree.File} (h : IsAccepted c)
    (hadd : c.add name (.tree t) = .ok c') : IsAccepted c'
  | descriptor {c c' : Compiler} {file : FileDescriptor} (h : IsAccepted c)
    (hadd : c.addDescriptor file = .ok c') : IsAccepted c'
  | bytes {c c' : Compiler} {bytes : Bytes} (h : IsAccepted c)
    (hadd : c.addBytes bytes = .ok c') : IsAccepted c'
  | text {c c' : Compiler} {text : String} (h : IsAccepted c)
    (hadd : c.addText text = .ok c') : IsAccepted c'

def ofTexts (options : BuildOptions) (texts : List (String × String)) : Compiler :=
  ⟨options, texts.map fun (name, text) => (name, .source text)⟩

structure WellNamed (inputs : List (String × SchemaInput)) : Prop where
  nodup : (inputs.map Prod.fst).Nodup
  isNamed : ∀ x ∈ inputs, x.2.IsNamed x.1

theorem WellNamed.add {c' : Compiler} (h : WellNamed c.inputs) {name : String}
    {i : SchemaInput} (hinput : i.IsNamed name) (hadd : c.add name i = .ok c') :
    WellNamed c'.inputs := by
  unfold Compiler.add at hadd
  split at hadd
  · cases hadd
  · rename_i hnew
    cases hadd
    have hfresh : name ∉ c.inputs.map Prod.fst := by
      intro hmem
      obtain ⟨x, hx, hname⟩ := mem_map.mp hmem
      exact hnew (any_eq_true.mpr ⟨x, hx, by simpa using hname⟩)
    constructor
    · rw [map_append, nodup_append]
      refine ⟨h.nodup, by simp, ?_⟩
      intro a ha b hb
      cases mem_singleton.mp hb
      rintro rfl
      exact hfresh ha
    · exact forall_mem_append.mpr ⟨h.isNamed, forall_mem_singleton.mpr hinput⟩

theorem WellNamed.addBytes {c' : Compiler} (h : WellNamed c.inputs) {bytes : Bytes}
    (hadd : c.addBytes bytes = .ok c') : WellNamed c'.inputs := by
  unfold Compiler.addBytes at hadd
  split at hadd
  · cases hadd
  · exact h.add (i := .descriptor _) rfl hadd

theorem IsAccepted.wellNamed (h : c.IsAccepted) : WellNamed c.inputs := by
  induction h with
  | new options => exact ⟨nodup_nil, by simp⟩
  | source _ hadd ih => exact ih.add (i := .source _) trivial hadd
  | tree _ hadd ih => exact ih.add (i := .tree _) trivial hadd
  | descriptor _ hadd ih => exact ih.add (i := .descriptor _) rfl hadd
  | bytes _ hadd ih => exact ih.addBytes hadd
  | text _ hadd ih =>
    unfold addText at hadd
    split at hadd
    · cases hadd
    · split at hadd
      · cases hadd
      · exact ih.addBytes hadd

theorem isAccepted_of_wellNamed {inputs : List (String × SchemaInput)}
    (h : WellNamed inputs) : IsAccepted ⟨options, inputs⟩ := by
  induction inputs using reverseRecOn with
  | nil => exact .new options
  | append_singleton inputs x ih =>
    obtain ⟨name, input⟩ := x
    obtain ⟨hnodup, hnamed⟩ := h
    rw [map_append, nodup_append] at hnodup
    obtain ⟨hearlier, _, hnew⟩ := hnodup
    have hbefore := ih ⟨hearlier, fun x hx => hnamed x (mem_append_left _ hx)⟩
    have hadd : add ⟨options, inputs⟩ name input = .ok ⟨options, inputs ++ [(name, input)]⟩ := by
      have hfree : hasInput ⟨options, inputs⟩ name = false := by
        simp only [hasInput, any_eq_false, beq_iff_eq]
        intro x hx heq
        exact hnew x.1 (mem_map_of_mem hx) name (by simp) heq
      rw [add, hfree]
      rfl
    have hinput := hnamed (name, input) (by simp)
    cases input with
    | source text => exact .source hbefore hadd
    | tree t => exact .tree hbefore hadd
    | descriptor file =>
      have hname : file.name = name := hinput
      rw [← hname] at hadd ⊢
      exact .descriptor hbefore hadd

theorem isAccepted_ofTexts {texts : List (String × String)}
    (h : (texts.map Prod.fst).Nodup) : (ofTexts options texts).IsAccepted := by
  refine isAccepted_of_wellNamed options ⟨?_, ?_⟩
  · rw [map_map]
    exact h
  · rw [forall_mem_map]
    intro x _
    trivial

def Imports (c : Compiler) (name target : String) : Prop :=
  ∃ input, c.inputs.lookup name = some input ∧ target ∈ input.imports

theorem mem_inputs_iff (h : c.IsAccepted) :
    c.inputs.lookup name = some input ↔ (name, input) ∈ c.inputs :=
  lookup_eq_some_iff_mem h.wellNamed.nodup

theorem hasInput_iff : c.hasInput name = true ↔ ∃ input, (name, input) ∈ c.inputs := by
  simp [hasInput]

variable {name : String} {input : SchemaInput} {log log' : Log}

theorem assemble_source (h : Tree.File.parse text = .ok t) :
    assemble name (.source text) = assemble name (.tree t) := by
  simp only [assemble, h]
  rfl

theorem assemble_unparsed {e : SyntaxError} (h : Tree.File.parse text = .error e) :
    assemble name (.source text) = (do
      .report ((Diagnostic.ofSyntaxError e.span e.fault.message).inFile name)
      return none) := by
  simp [assemble, h]

theorem assembleTree_reports (name : String) (t : Tree.File) :
    Reports (fun _ => True) (assemble name (.tree t)) := by
  obtain ⟨outcome, ds, hds, hrun⟩ := (t.assemble_reports name).run
  cases outcome with
  | error e =>
    refine .of_run (r := .error (.build name e)) hds fun log => ?_
    simp [assemble, hrun log, ended]
  | ok built =>
    refine .of_run (r := .ok (some ⟨built.file, built.unresolved⟩)) hds fun log => ?_
    simp [assemble, hrun log, ended]

theorem assemble_reports (name : String) (input : SchemaInput) :
    Reports (fun _ => True) (assemble name input) := by
  cases input with
  | descriptor file => exact .pure _
  | tree t => exact assembleTree_reports name t
  | source text =>
    cases hparse : Tree.File.parse text with
    | ok t =>
      rw [assemble_source hparse]
      exact assembleTree_reports name t
    | error e =>
      rw [assemble_unparsed hparse]
      apply Reports.bind
      · exact .modify_report (fun _ => trivial) fun _ _ => rfl
      · intro _
        exact .pure none

theorem assemble_extends {f? : Option PendingFile} (h : assemble name input log = .ok f? log') :
    f? = input.assembled? name ∧ ∃ ds, log' = log.extend ds := by
  obtain ⟨outcome, ds, _, hrun⟩ := (assemble_reports name input).run
  rw [hrun log] at h
  cases outcome with
  | error e => cases h
  | ok f?' =>
    cases h
    refine ⟨?_, ds, rfl⟩
    rw [SchemaInput.assembled?, hrun .empty]
    rfl

theorem assemble_none (h : assemble name input log = .ok none log') :
    ∃ d : Diagnostic, d.file? = some name ∧ d.cause? = none ∧ log' = log.extend [d] := by
  have htree (t : Tree.File) : assemble name (.tree t) log ≠ .ok none log' := by
    simp only [assemble]
    split <;> simp
  cases input with
  | descriptor file => cases h
  | tree t => exact absurd h (htree t)
  | source text =>
    cases hparse : Tree.File.parse text with
    | ok t =>
      rw [assemble_source hparse] at h
      exact absurd h (htree t)
    | error e =>
      rw [assemble_unparsed hparse] at h
      cases h
      exact ⟨_, rfl, rfl, rfl⟩

theorem assembleTree_heading (h : assemble name (.tree t) log = .ok (some f) log') :
    f.file.name = name ∧ f.file.dependencies = t.imports.map (·.path) := by
  simp only [assemble] at h
  split at h
  · rename_i hbuilt
    cases h
    have hheading := Tree.File.assemble_heading hbuilt
    exact ⟨FileDescriptor.name_of_heading (f := Assembly.header name t) hheading,
      FileDescriptor.dependencies_of_heading (f := Assembly.header name t) hheading⟩
  · cases h

end Compiler

theorem SchemaInput.assembled?_heading (hnamed : input.IsNamed name)
    (h : input.assembled? name = some f) :
    f.file.name = name ∧ f.file.dependencies = input.imports := by
  unfold assembled? at h
  split at h
  · rename_i hassemble
    subst h
    cases input with
    | descriptor file =>
      cases hassemble
      exact ⟨hnamed, rfl⟩
    | tree t => exact Compiler.assembleTree_heading hassemble
    | source text =>
      cases hparse : Tree.File.parse text with
      | ok t =>
        rw [Compiler.assemble_source hparse] at hassemble
        simp only [imports, hparse]
        exact Compiler.assembleTree_heading hassemble
      | error e =>
        rw [Compiler.assemble_unparsed hparse] at hassemble
        cases hassemble
  · cases h

namespace Compiler

variable {inputs : List (String × SchemaInput)}
variable {finished : FileSet} {pending : Pending}

def given (inputs : List (String × SchemaInput)) : FileSet :=
  ⟨(inputs.filter (·.1 = metaSchemaFile)).map fun x => (x.1, MetaSchema.file)⟩

def assembled (inputs : List (String × SchemaInput)) : Pending :=
  inputs.filterMap fun x =>
    if x.1 = metaSchemaFile then none else (x.2.assembled? x.1).map (x.1, ·)

theorem mem_assembled : (name, f) ∈ assembled inputs ↔
      ∃ input, (name, input) ∈ inputs ∧ name ≠ metaSchemaFile ∧ input.assembled? name = some f := by
  simp only [assembled, mem_filterMap]
  constructor
  · rintro ⟨⟨other, input⟩, hmem, h⟩
    split at h
    · cases h
    · rename_i hother
      obtain ⟨g, hg, hpair⟩ := Option.map_eq_some_iff.mp h
      cases hpair
      exact ⟨input, hmem, hother, hg⟩
  · rintro ⟨input, hmem, hname, h⟩
    refine ⟨(name, input), hmem, ?_⟩
    simp [hname, h]

theorem assembleAll_cons {r : FileSet × Pending} (hname : name ≠ metaSchemaFile)
    (h : assembleAll finished pending ((name, input) :: inputs) log = .ok r log') :
    ∃ es, assembleAll finished (pending ++ ((input.assembled? name).map (name, ·)).toList) inputs
        (log.extend es) = .ok r log' ∧
      (input.assembled? name = none → ∃ d ∈ es, d.file? = some name ∧ d.cause? = none) := by
  rw [assembleAll, if_neg hname] at h
  simp only [bind, EStateM.bind] at h
  cases hassemble : assemble name input log with
  | error e middle =>
    simp only [hassemble] at h
    cases h
  | ok f? middle =>
    obtain ⟨hf, es, rfl⟩ := assemble_extends hassemble
    simp only [hassemble] at h
    rw [← hf]
    refine ⟨es, ?_, ?_⟩
    · cases f? with
      | none => simpa using h
      | some f => exact h
    · rintro rfl
      obtain ⟨d, hfile, hcause, hlog⟩ := assemble_none hassemble
      have hes := Log.extend_injective _ hlog
      exact ⟨d, by simp [hes], hfile, hcause⟩

theorem assembleAll_ok {finished' : FileSet} {pending' : Pending} {log log' : Log}
    (h : assembleAll finished pending inputs log = .ok (finished', pending') log') :
    finished'.files = finished.files ++ (given inputs).files ∧
    pending' = pending ++ assembled inputs ∧
    ∃ ds, log' = log.extend ds ∧ ∀ x ∈ inputs, x.1 ≠ metaSchemaFile → x.2.assembled? x.1 = none →
      ∃ d ∈ ds, d.file? = some x.1 ∧ d.cause? = none := by
  induction inputs generalizing finished pending log with
  | nil =>
    cases h
    exact ⟨by simp [given], by simp [assembled], [], by simp, by simp⟩
  | cons x inputs ih =>
    obtain ⟨name, input⟩ := x
    by_cases hname : name = metaSchemaFile
    · rw [assembleAll, if_pos hname] at h
      obtain ⟨hfinished, hpending, ds, hlog, hreported⟩ := ih h
      refine ⟨?_, ?_, ds, hlog, ?_⟩
      · rw [hfinished]
        simp [given, FileSet.insert, hname]
      · rw [hpending]
        simp [assembled, hname]
      · intro y hy hne hnone
        rcases mem_cons.mp hy with rfl | hy
        · exact absurd hname hne
        · exact hreported y hy hne hnone
    · obtain ⟨es, hrest, hsyntax⟩ := assembleAll_cons hname h
      obtain ⟨hfinished, hpending, ds, hlog, hreported⟩ := ih hrest
      refine ⟨?_, ?_, es ++ ds, ?_, ?_⟩
      · rw [hfinished]
        simp [given, hname]
      · rw [hpending]
        cases hf : input.assembled? name <;> simp [assembled, hname, hf]
      · rw [hlog, Log.extend_extend]
      · intro y hy hne hnone
        rcases mem_cons.mp hy with rfl | hy
        · obtain ⟨d, hd, habout⟩ := hsyntax hnone
          exact ⟨d, mem_append_left ds hd, habout⟩
        · obtain ⟨d, hd, habout⟩ := hreported y hy hne hnone
          exact ⟨d, mem_append_right es hd, habout⟩

theorem assembled_sublist (inputs : List (String × SchemaInput)) :
    ((assembled inputs).map Prod.fst).Sublist (inputs.map Prod.fst) := by
  induction inputs with
  | nil => exact .refl []
  | cons x inputs ih =>
    by_cases hname : x.1 = metaSchemaFile
    · simpa [assembled, hname] using ih.cons metaSchemaFile
    · cases hf : x.2.assembled? x.1 with
      | none => simpa [assembled, hf] using ih.cons x.1
      | some f => simpa [assembled, hname, hf] using ih

theorem names_nodup (h : (inputs.map Prod.fst).Nodup) :
    ((given inputs).names ++ (assembled inputs).map Prod.fst).Nodup := by
  have hgiven : (given inputs).names = (inputs.filter (·.1 = metaSchemaFile)).map Prod.fst := by
    simp [given, FileSet.names]
  rw [nodup_append, hgiven]
  refine ⟨(filter_sublist.map Prod.fst).nodup h, (assembled_sublist inputs).nodup h, ?_⟩
  intro a ha b hb hab
  obtain ⟨x, hx, rfl⟩ := mem_map.mp ha
  obtain ⟨⟨name, f⟩, hf, rfl⟩ := mem_map.mp hb
  obtain ⟨_, _, hname, _⟩ := mem_assembled.mp hf
  have hschema : x.1 = metaSchemaFile := by simpa using (mem_filter.mp hx).2
  exact hname (hab.symm.trans hschema)

end Compiler

end ProtobufSchema

import ProtobufSchema.Proofs.AssembledFiles

/-! Finishing one file is decided by the file, the files it imports and the options of the compiler,
and succeeds exactly if nothing is reported. -/

namespace ProtobufSchema

variable {d : Diagnostic}

/-- The causes for which a file with all its imports is not finished. -/
def Cause.ofFinishing : List Cause :=
  [unresolvedTypeName, unresolvedOptionName, duplicateName, duplicateExtensionNumber]

def Diagnostic.KeepsBack (d : Diagnostic) (file : String) : Prop :=
  d.file? = some file ∧ ∃ cause ∈ Cause.ofFinishing, d.cause? = some cause

namespace Pool

theorem withFallback_file (p : Pool) (f : LinkedFile) : (p.withFallback f).file = p.file := by
  unfold withFallback
  split <;> rfl

theorem resolveReference_reports (p : Pool) (strict : Bool) (file : FileDescriptor)
    (r : Reference) :
    ∃ ds file', (∀ d ∈ ds, d.KeepsBack p.file.name) ∧
      p.resolveReference strict file r = reporting ds file' := by
  unfold resolveReference
  split
  · exact ⟨[], _, by simp, pure_eq_reporting _⟩
  · split
    · exact ⟨[], _, by simp, pure_eq_reporting _⟩
    · refine ⟨[_], file, ?_, report_eq_reporting _ file⟩
      intro d hd
      cases List.mem_singleton.mp hd
      exact ⟨rfl, .unresolvedTypeName, by decide, rfl⟩

theorem resolveReference_untyped (p : Pool) (strict : Bool) (file : FileDescriptor)
    (r : Reference) :
    Yields (fun file' => file'.untyped = file.untyped) (p.resolveReference strict file r) := by
  unfold resolveReference
  split
  · exact .pure (r.untyped_write?_getD file _ _)
  · split
    · exact .pure (r.untyped_write?_getD file _ _)
    · exact .of_state fun _ => rfl

end Pool

variable {dependencies : List LinkedFile} {file : FileDescriptor}

theorem PendingFile.untyped_of_resolve {p : PendingFile} {strict : Bool}
    {ds : List Diagnostic} (h : p.resolve strict dependencies = reporting ds file) :
    file.untyped = p.file.untyped := by
  have hyields :
      Yields (fun file => file.untyped = p.file.untyped) (p.resolve strict dependencies) :=
    .foldlM (fun file r hfile => (Pool.resolveReference_untyped _ strict file r).mono
      fun _ h => h.trans hfile) rfl p.unresolved
  rw [h] at hyields
  exact hyields.state .empty

theorem PendingFile.resolve_reports (p : PendingFile) (strict : Bool)
    (dependencies : List LinkedFile) :
    ∃ ds file, (∀ d ∈ ds, d.KeepsBack p.file.name) ∧ file.heading = p.file.heading ∧
      p.resolve strict dependencies = reporting ds file := by
  have hfile :=
    Pool.withFallback_file (.ofDependencies p.file (.ofFile p.file) dependencies) MetaSchema.file
  obtain ⟨ds, file, hds, hrun⟩ := foldlM_reporting
    (((Pool.ofDependencies p.file (.ofFile p.file) dependencies).withFallback
      MetaSchema.file).resolveReference_reports strict) p.file p.unresolved
  rw [hfile] at hds
  exact ⟨ds, file, hds, FileDescriptor.heading_of_untyped (untyped_of_resolve hrun), hrun⟩

theorem FileDescriptor.duplicateSymbols_keepsBack (h : d ∈ file.duplicateSymbols dependencies) :
    d.KeepsBack file.name := by
  obtain ⟨⟨name, definition⟩, _, h⟩ := List.mem_filterMap.mp h
  dsimp only at h
  split at h
  · cases h
  · obtain ⟨other, _, rfl⟩ := Option.map_eq_some_iff.mp h
    exact ⟨rfl, .duplicateName, by decide, rfl⟩

theorem FileDescriptor.duplicateExtensions_keepsBack
    (h : d ∈ file.duplicateExtensions dependencies) : d.KeepsBack file.name := by
  obtain ⟨⟨rejected, existing⟩, _, rfl⟩ := List.mem_map.mp h
  exact ⟨rfl, .duplicateExtensionNumber, by decide, rfl⟩

theorem Canonicalizer.canonicalize_keepsBack (c : Canonicalizer) (p : FileDescriptor) :
    ∃ (outcome : Except BuildError FileDescriptor) (ds : List Diagnostic),
      (∀ d ∈ ds, d.KeepsBack p.name) ∧ ∀ log, c.canonicalize p log =
        ended outcome (log.extend ds) := by
  obtain ⟨outcome, ds, hds, hrun⟩ := c.canonicalize_reports p
  refine ⟨outcome, c.missingNames p ++ ds, ?_, hrun⟩
  intro d hd
  rcases List.mem_append.mp hd with hd | hd
  · obtain ⟨hfile, hcause⟩ := c.mem_missingNames p hd
    exact ⟨hfile, _, by decide, hcause⟩
  · obtain ⟨hfile, hcause⟩ := hds d hd
    exact ⟨hfile, _, by decide, hcause⟩

namespace Compiler

variable {c : Compiler} {name : String} {f : PendingFile} {dependencies : List LinkedFile}
  {done? : Option LinkedFile} {ds : List Diagnostic} {file : FileDescriptor} {log : Log}

/-- A compiler answers and reports something about a file, whatever was reported before. -/
def Finishes (c : Compiler) (name : String) (f : PendingFile) (dependencies : List LinkedFile)
    (done? : Option LinkedFile) (ds : List Diagnostic) : Prop :=
  ∀ log, c.finish name f dependencies log = .ok done? (log.extend ds)

/-- How finishing a file ends: with a report about it, or with the file linked to its imports. -/
def Answered (f : PendingFile) (dependencies : List LinkedFile) (done? : Option LinkedFile)
    (ds : List Diagnostic) : Prop :=
  done? = none ∧ ds ≠ [] ∨
    ds = [] ∧ ∃ q : FileDescriptor, q.heading = f.file.heading ∧ done? = some (.link q dependencies)

theorem finish_of_unresolved {rs : List Diagnostic}
    (hresolve : f.resolve c.options.strictNames dependencies = reporting rs file) (hrs : rs ≠ [])
    (log : Log) : c.finish name f dependencies log = .ok none (log.extend rs) := by
  have hsize : (log.extend rs).size ≠ log.size := by
    rw [Log.size_extend]
    have hpos := List.length_pos_iff.mpr hrs
    omega
  simp only [finish, hresolve, bind, EStateM.bind, estate_get, reporting, StateT.run, hsize, ne_eq]
  rfl

theorem finish_of_resolved {q : FileDescriptor}
    (hresolve : f.resolve c.options.strictNames dependencies = reporting [] file)
    (hcanonical : (Canonicalizer.ofDependencies dependencies c.options).canonicalize file log =
      .ok q (log.extend ds)) :
    c.finish name f dependencies log =
      .ok (if ds ++ q.duplicateSymbols dependencies ++ q.duplicateExtensions dependencies = [] then
          some (.link q dependencies) else none)
        (log.extend (ds ++ q.duplicateSymbols dependencies ++
          q.duplicateExtensions dependencies)) := by
  simp only [finish, hresolve, bind, EStateM.bind, estate_get,
    reporting, StateT.run, estate_set, Log.extend_nil, ne_eq,
    not_true_eq_false, if_false, hcanonical, Log.foldl_report, Log.extend_extend,
    ← List.append_assoc]
  by_cases hquiet : ds ++ q.duplicateSymbols dependencies ++ q.duplicateExtensions dependencies = []
  · rw [hquiet, Log.extend_nil, if_pos rfl]
    rfl
  · rw [if_neg hquiet, if_neg (by simpa using hquiet)]
    rfl

theorem finish_of_failure {e : BuildError}
    (hresolve : f.resolve c.options.strictNames dependencies = reporting [] file)
    (hcanonical : (Canonicalizer.ofDependencies dependencies c.options).canonicalize file log =
      .error e (log.extend ds)) :
    c.finish name f dependencies log = .error (.build name e) (log.extend ds) := by
  simp only [finish, hresolve, bind, EStateM.bind, estate_get,
    reporting, StateT.run, Log.extend_nil, ne_eq, hcanonical]
  rfl

theorem finish_reports (c : Compiler) (name : String) (f : PendingFile)
    (dependencies : List LinkedFile) :
    ∃ (outcome : Except CompileError (Option LinkedFile)) (ds : List Diagnostic),
      (∀ d ∈ ds, d.KeepsBack f.file.name) ∧
      (∀ log, c.finish name f dependencies log = ended outcome (log.extend ds)) ∧
      ∀ done?, outcome = .ok done? → Answered f dependencies done? ds := by
  obtain ⟨rs, file, hrs, hheading, hresolve⟩ := f.resolve_reports c.options.strictNames dependencies
  by_cases hnone : rs = []
  · subst hnone
    have hname := FileDescriptor.name_of_heading hheading
    obtain ⟨outcome, ds, hds, hcanonical⟩ :=
      (Canonicalizer.ofDependencies dependencies c.options).canonicalize_keepsBack file
    rw [hname] at hds
    cases outcome with
    | error e =>
      refine ⟨.error (.build name e), ds, hds, ?_, by simp⟩
      intro log
      exact finish_of_failure hresolve (hcanonical log)
    | ok q =>
      have hq : q.heading = f.file.heading :=
        (Canonicalizer.canonicalize_heading (hcanonical .empty)).trans hheading
      refine ⟨.ok _, ds ++ q.duplicateSymbols dependencies ++ q.duplicateExtensions dependencies,
        ?_, fun log => finish_of_resolved hresolve (hcanonical log), ?_⟩
      · rw [← FileDescriptor.name_of_heading hq] at hds ⊢
        intro d hd
        rcases List.mem_append.mp hd with hd | hd
        · rcases List.mem_append.mp hd with hd | hd
          · exact hds d hd
          · exact FileDescriptor.duplicateSymbols_keepsBack hd
        · exact FileDescriptor.duplicateExtensions_keepsBack hd
      · rintro _ ⟨⟩
        split
        · rename_i hquiet
          exact .inr ⟨hquiet, q, hq, rfl⟩
        · rename_i hreported
          exact .inl ⟨rfl, hreported⟩
  · refine ⟨.ok none, rs, hrs, finish_of_unresolved hresolve hnone, ?_⟩
    rintro _ ⟨⟩
    exact .inl ⟨rfl, hnone⟩

theorem finishes_of_finish {log' : Log} (h : c.finish name f dependencies log = .ok done? log') :
    ∃ ds, log' = log.extend ds ∧ c.Finishes name f dependencies done? ds := by
  obtain ⟨outcome, ds, _, hrun, _⟩ := c.finish_reports name f dependencies
  have hend := hrun log
  rw [h] at hend
  cases outcome with
  | error e => cases hend
  | ok done? =>
    cases hend
    exact ⟨ds, rfl, hrun⟩

namespace Finishes

theorem answered (h : c.Finishes name f dependencies done? ds) :
    (∀ d ∈ ds, d.KeepsBack f.file.name) ∧ Answered f dependencies done? ds := by
  obtain ⟨outcome, es, hes, hrun, hanswer⟩ := c.finish_reports name f dependencies
  have hend := hrun .empty
  rw [h .empty] at hend
  cases outcome with
  | error e => cases hend
  | ok done?' =>
    injection hend with hdone hlog
    have hsame := Log.extend_injective .empty hlog
    subst hdone hsame
    exact ⟨hes, hanswer _ rfl⟩

theorem some_iff {l : LinkedFile} : c.Finishes name f dependencies (some l) [] ↔
    ∃ file q, f.resolve c.options.strictNames dependencies = reporting [] file ∧
      (∀ log, (Canonicalizer.ofDependencies dependencies c.options).canonicalize file log =
        .ok q log) ∧
      q.duplicateSymbols dependencies = [] ∧ q.duplicateExtensions dependencies = [] ∧
      l = .link q dependencies := by
  obtain ⟨rs, file, _, _, hresolve⟩ := f.resolve_reports c.options.strictNames dependencies
  obtain ⟨outcome, ds, _, hcanonical⟩ :=
    (Canonicalizer.ofDependencies dependencies c.options).canonicalize_keepsBack file
  constructor
  · intro h
    by_cases hrs : rs = []
    · subst hrs
      cases outcome with
      | error e => cases (h .empty).symm.trans (finish_of_failure hresolve (hcanonical .empty))
      | ok q =>
        have hend := (h .empty).symm.trans (finish_of_resolved hresolve (hcanonical .empty))
        injection hend with hdone hlog
        have hquiet := (Log.extend_injective .empty hlog).symm
        rw [if_pos hquiet] at hdone
        obtain ⟨hboth, hextensions⟩ := List.append_eq_nil_iff.mp hquiet
        obtain ⟨rfl, hsymbols⟩ := List.append_eq_nil_iff.mp hboth
        refine ⟨file, q, hresolve, fun log => ?_, hsymbols, hextensions, Option.some.inj hdone⟩
        rw [hcanonical log, Log.extend_nil]
        rfl
    · cases (h .empty).symm.trans (finish_of_unresolved hresolve hrs .empty)
  · rintro ⟨file', q, hresolve', hcanonical', hsymbols, hextensions, rfl⟩ log
    have hquiet : (Canonicalizer.ofDependencies dependencies c.options).canonicalize file' log =
        .ok q (log.extend []) := by rw [hcanonical', Log.extend_nil]
    rw [finish_of_resolved hresolve' hquiet, hsymbols, hextensions]
    rfl

theorem unique {done?' : Option LinkedFile} {es : List Diagnostic}
    (h : c.Finishes name f dependencies done? ds) (h' : c.Finishes name f dependencies done?' es) :
    done? = done?' := by
  have hboth := (h .empty).symm.trans (h' .empty)
  injection hboth

end Finishes

end Compiler

def FileDescriptor.importing (name : String) (imports : List String) : FileDescriptor :=
  { name? := some name, dependencies := imports }

end ProtobufSchema

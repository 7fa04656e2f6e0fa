import ProtobufSchema.Proofs.AssembledInputs
import ProtobufSchema.Proofs.Finishing

/-! The order of a build: each step takes one waiting file whose imports are finished, so the set
that is returned is closed under imports and ordered by them. -/

namespace ProtobufSchema

open List FileSet

variable {stuck : Pending} {other : String}

namespace FileSet

def imported (s : FileSet) (f : PendingFile) : List LinkedFile :=
  f.file.dependencies.filterMap s.dependency?

def insert? (s : FileSet) (name : String) (done? : Option LinkedFile) : FileSet :=
  ⟨s.files ++ (done?.map (name, ·)).toList⟩

variable {s t : FileSet} {name : String} {f : PendingFile} {l : LinkedFile}

theorem mem_of_get? (h : s.get? name = some l) : (name, l) ∈ s.files := by
  obtain ⟨before, after, hfiles, _⟩ := lookup_eq_some_iff.mp h
  simp [hfiles]

theorem dependency?_of_prefix (h : s.files <+: t.files) (hname : s.dependency? name = some l) :
    t.dependency? name = some l := by
  unfold dependency? at hname ⊢
  by_cases hschema : name = metaSchemaFile
  · rw [if_pos hschema] at hname ⊢
    exact hname
  · rw [if_neg hschema] at hname ⊢
    exact h.lookup_eq_some hname

theorem isReady_iff :
    s.isReady f = true ↔ ∀ d ∈ f.file.dependencies, ∃ l, s.dependency? d = some l := by
  simp [isReady, Option.isSome_iff_exists]

theorem isReady_mono (h : s.files <+: t.files) (hready : s.isReady f = true) :
    t.isReady f = true ∧ t.imported f = s.imported f := by
  rw [isReady_iff] at hready
  constructor
  · rw [isReady_iff]
    intro d hd
    obtain ⟨l, hl⟩ := hready d hd
    exact ⟨l, dependency?_of_prefix h hl⟩
  · apply filterMap_congr
    intro d hd
    obtain ⟨l, hl⟩ := hready d hd
    rw [hl, dependency?_of_prefix h hl]

theorem imported_of_isReady (hready : s.isReady f = true) :
    Forall₂ (fun d l => s.dependency? d = some l) f.file.dependencies (s.imported f) := by
  rw [isReady_iff] at hready
  unfold imported
  generalize f.file.dependencies = names at hready ⊢
  induction names with
  | nil => exact .nil
  | cons d names ih =>
    obtain ⟨hd, hnames⟩ := forall_mem_cons.mp hready
    obtain ⟨l, hl⟩ := hd
    rw [filterMap_cons_some hl]
    exact .cons hl (ih hnames)

theorem prefix_insert? (s : FileSet) (name : String) (done? : Option LinkedFile) :
    s.files <+: (s.insert? name done?).files :=
  prefix_append _ _

theorem names_insert? (s : FileSet) (name : String) (done? : Option LinkedFile) :
    (s.insert? name done?).names = s.names ++ (done?.map fun _ => name).toList := by
  cases done? <;> simp [insert?, names]

theorem get?_insert?_self (hnew : name ∉ s.names) (done? : Option LinkedFile) :
    (s.insert? name done?).get? name = done? := by
  have hnone : s.files.lookup name = none := by
    rw [lookup_eq_none_iff]
    intro x hx
    have hne : name ≠ x.1 := fun heq => hnew (heq ▸ mem_map_of_mem hx)
    simpa using hne
  rw [get?, insert?, lookup_append, hnone]
  cases done? <;> simp

theorem get?_insert?_ne (hne : other ≠ name) (done? : Option LinkedFile) :
    (s.insert? name done?).get? other = s.get? other := by
  have hnone : (done?.map (name, ·)).toList.lookup other = none := by
    have hbeq : (other == name) = false := by simpa using hne
    cases done? with
    | none => rfl
    | some l => simp [lookup_cons, hbeq]
  rw [get?, insert?, lookup_append, hnone, Option.or_none]
  rfl

theorem getElem?_insert? {done? : Option LinkedFile} {i : Nat} {x : String × LinkedFile}
    (h : (s.insert? name done?).files[i]? = some x) :
    s.files[i]? = some x ∧ (s.insert? name done?).files.take i = s.files.take i ∨
      ∃ l, done? = some l ∧ x = (name, l) ∧ (s.insert? name done?).files.take i = s.files := by
  unfold insert? at h ⊢
  by_cases hlt : i < s.files.length
  · rw [getElem?_append_left hlt] at h
    exact .inl ⟨h, take_append_of_le_length (le_of_lt hlt)⟩
  · rw [getElem?_append_right (by omega)] at h
    cases done? with
    | none => cases h
    | some l =>
      rw [Option.map_some, Option.toList_some, getElem?_singleton] at h
      split at h
      · have hlast : i = s.files.length := by omega
        cases h
        exact .inr ⟨l, rfl, rfl, by rw [hlast, take_left]⟩
      · cases h

end FileSet

structure Progress where
  finished : FileSet
  pending : Pending
  reported : List Diagnostic

namespace Compiler

variable {f g : PendingFile} {t : Progress}

/-- One waiting file whose imports are finished is taken, and finished or reported. -/
inductive Step (c : Compiler) : Progress → Progress → Prop
  | take {s : Progress} {name : String} {f : PendingFile} {before after : Pending}
    {done? : Option LinkedFile} {ds : List Diagnostic}
    (hpending : s.pending = before ++ (name, f) :: after) (hready : s.finished.isReady f = true)
    (hfinish : c.Finishes name f (s.finished.imported f) done? ds) :
    Step c s ⟨s.finished.insert? name done?, before ++ after, s.reported ++ ds⟩

abbrev Run (c : Compiler) : Progress → Progress → Prop := Relation.ReflTransGen c.Step

variable {c : Compiler}

variable {finished after : FileSet} {pending : Pending} {log log' : Log} {s : Progress}
  {name : String}

theorem finishAll_run {start : FileSet} (before : Pending) (hstart : start.files <+: finished.files)
    (h : c.finishAll finished (start.ready pending) log = .ok after log') :
    ∃ ds, log' = log.extend ds ∧ ∀ reported, c.Run ⟨finished, before ++ pending, reported⟩
      ⟨after, before ++ start.waiting pending, reported ++ ds⟩ := by
  induction pending generalizing finished before log with
  | nil =>
    cases h
    exact ⟨[], by simp, fun reported => by simpa [waiting] using .refl⟩
  | cons x rest ih =>
    obtain ⟨name, f⟩ := x
    by_cases hready : start.isReady f = true
    · have hbatch : start.ready ((name, f) :: rest) = (name, f) :: start.ready rest := by
        simp [ready, hready]
      have hwaiting : start.waiting ((name, f) :: rest) = start.waiting rest := by
        simp [waiting, hready]
      rw [hbatch, finishAll] at h
      simp only [bind, EStateM.bind] at h
      cases hfinish : c.finish name f (f.file.dependencies.filterMap finished.dependency?) log with
      | error e middle =>
        simp only [hfinish] at h
        cases h
      | ok done? middle =>
        obtain ⟨es, rfl, hfinishes⟩ := finishes_of_finish hfinish
        have hrest : c.finishAll (finished.insert? name done?) (start.ready rest) (log.extend es) =
            .ok after log' := by
          simp only [hfinish] at h
          cases done? with
          | none => simpa [insert?] using h
          | some l => exact h
        obtain ⟨ds, rfl, hrun⟩ :=
          ih before (hstart.trans (finished.prefix_insert? name done?)) hrest
        refine ⟨es ++ ds, by rw [Log.extend_extend], ?_⟩
        intro reported
        have hstep : c.Step ⟨finished, before ++ (name, f) :: rest, reported⟩
            ⟨finished.insert? name done?, before ++ rest, reported ++ es⟩ :=
          .take rfl (isReady_mono hstart hready).1 hfinishes
        rw [hwaiting, ← append_assoc]
        exact .head hstep (hrun (reported ++ es))
    · have hbatch : start.ready ((name, f) :: rest) = start.ready rest := by simp [ready, hready]
      have hwaiting : start.waiting ((name, f) :: rest) = (name, f) :: start.waiting rest := by
        simp [waiting, hready]
      rw [hbatch] at h
      obtain ⟨ds, hlog, hrun⟩ := ih (before ++ [(name, f)]) hstart h
      refine ⟨ds, hlog, ?_⟩
      intro reported
      rw [hwaiting]
      simpa using hrun reported

theorem passes_of_stuck (h : finished.ready pending = []) (log : Log) :
    c.passes finished pending log = .ok (finished, pending) log := by
  rw [passes, if_pos h]
  rfl

theorem passes_of_ready (hsome : finished.ready pending ≠ [])
    (h : c.finishAll finished (finished.ready pending) log = .ok after log') :
    c.passes finished pending log = c.passes after (finished.waiting pending) log' := by
  rw [passes, if_neg hsome]
  simp [bind, EStateM.bind, h]

theorem passes_run (h : c.passes finished pending log = .ok (after, stuck) log') :
    after.ready stuck = [] ∧ ∃ ds, log' = log.extend ds ∧
      ∀ reported, c.Run ⟨finished, pending, reported⟩ ⟨after, stuck, reported ++ ds⟩ := by
  induction finished, pending using passes.induct generalizing log with
  | case1 finished pending hnone =>
    rw [passes_of_stuck hnone] at h
    cases h
    exact ⟨hnone, [], by simp, fun reported => by simpa using .refl⟩
  | case2 finished pending hsome ih =>
    cases hbatch : c.finishAll finished (finished.ready pending) log with
    | error e middle =>
      rw [passes, if_neg hsome] at h
      simp only [bind, EStateM.bind, hbatch] at h
      cases h
    | ok grown middle =>
      rw [passes_of_ready hsome hbatch] at h
      obtain ⟨es, rfl, hfirst⟩ := finishAll_run [] (prefix_refl _) hbatch
      obtain ⟨hend, ds, rfl, hrest⟩ := ih grown h
      refine ⟨hend, es ++ ds, by rw [Log.extend_extend], ?_⟩
      intro reported
      rw [← append_assoc]
      exact (hfirst reported).trans (hrest (reported ++ es))

/-- A file that stands for the schema of schemas, or that was finished when the given files were. -/
def Linked (c : Compiler) (earlier : FileSet) (name : String) (l : LinkedFile) : Prop :=
  (name = metaSchemaFile ∧ l = MetaSchema.file ∧ name ∈ c.inputs.map Prod.fst) ∨
    ∃ f ds, (name, f) ∈ assembled c.inputs ∧ earlier.isReady f = true ∧
      c.Finishes name f (earlier.imported f) (some l) ds

def Settled (c : Compiler) (s : Progress) (name : String) (f : PendingFile) : Prop :=
  s.finished.isReady f = true ∧
    ∃ ds, c.Finishes name f (s.finished.imported f) (s.finished.get? name) ds ∧
      ∀ d ∈ ds, d ∈ s.reported

structure Sound (c : Compiler) (s : Progress) : Prop where
  names_nodup : (s.finished.names ++ s.pending.map Prod.fst).Nodup
  pending_assembled : ∀ x ∈ s.pending, x ∈ assembled c.inputs
  linked : ∀ i name l, s.finished.files[i]? = some (name, l) →
    c.Linked ⟨s.finished.files.take i⟩ name l
  given_prefix : (given c.inputs).files <+: s.finished.files
  settled : ∀ x ∈ assembled c.inputs, x ∈ s.pending ∨ c.Settled s x.1 x.2
  unparsed : ∀ x ∈ c.inputs, x.1 ≠ metaSchemaFile → x.2.assembled? x.1 = none →
    ∃ d ∈ s.reported, d.file? = some x.1 ∧ d.cause? = none

theorem sound_initial (hc : c.IsAccepted) {reported : List Diagnostic}
    (hunparsed : ∀ x ∈ c.inputs, x.1 ≠ metaSchemaFile → x.2.assembled? x.1 = none →
      ∃ d ∈ reported, d.file? = some x.1 ∧ d.cause? = none) :
    c.Sound ⟨given c.inputs, assembled c.inputs, reported⟩ where
  names_nodup := names_nodup hc.wellNamed.nodup
  pending_assembled := fun _ hx => hx
  linked := by
    intro i name l hi
    have hmem := mem_of_getElem? hi
    obtain ⟨x, hx, hpair⟩ := mem_map.mp hmem
    obtain ⟨hinput, hschema⟩ := mem_filter.mp hx
    cases hpair
    exact .inl ⟨by simpa using hschema, rfl, mem_map_of_mem hinput⟩
  given_prefix := prefix_refl _
  settled := fun _ hx => .inl hx
  unparsed := hunparsed

theorem Sound.not_mem_names (h : c.Sound s) {x : String × PendingFile}
    (hx : x ∈ s.pending) : x.1 ∉ s.finished.names := by
  intro hmem
  obtain ⟨_, _, hdisjoint⟩ := nodup_append.mp h.names_nodup
  exact hdisjoint _ hmem _ (mem_map_of_mem hx) rfl

theorem Sound.get?_schema (h : c.Sound s) {input : SchemaInput}
    (hinput : (metaSchemaFile, input) ∈ c.inputs) :
    s.finished.get? metaSchemaFile = some MetaSchema.file := by
  have hgiven : (metaSchemaFile, MetaSchema.file) ∈ (given c.inputs).files :=
    mem_map.mpr ⟨_, mem_filter.mpr ⟨hinput, by simp⟩, rfl⟩
  obtain ⟨hnodup, _⟩ := nodup_append.mp h.names_nodup
  exact (lookup_eq_some_iff_mem hnodup).mpr (h.given_prefix.subset hgiven)

theorem assembled_unique (hc : c.IsAccepted)
    (hf : (name, f) ∈ assembled c.inputs) (hg : (name, g) ∈ assembled c.inputs) : f = g := by
  have hnodup := (assembled_sublist c.inputs).nodup hc.wellNamed.nodup
  have hf' := (lookup_eq_some_iff_mem hnodup).mpr hf
  have hg' := (lookup_eq_some_iff_mem hnodup).mpr hg
  exact Option.some.inj (hf'.symm.trans hg')

theorem Settled.insert? (h : c.Settled s other g) (hname : other ≠ name) (done? : Option LinkedFile)
    (pending : Pending)
    (ds : List Diagnostic) :
    c.Settled ⟨s.finished.insert? name done?, pending, s.reported ++ ds⟩ other g := by
  obtain ⟨hready, es, hfinish, hes⟩ := h
  obtain ⟨hready', hsame⟩ := isReady_mono (s.finished.prefix_insert? name done?) hready
  refine ⟨hready', es, ?_, fun d hd => mem_append_left _ (hes d hd)⟩
  rw [hsame, get?_insert?_ne hname]
  exact hfinish

theorem settled_take {done? : Option LinkedFile}
    {ds : List Diagnostic} (hnew : name ∉ s.finished.names) (hready : s.finished.isReady f = true)
    (hfinish : c.Finishes name f (s.finished.imported f) done? ds) (pending : Pending) :
    c.Settled ⟨s.finished.insert? name done?, pending, s.reported ++ ds⟩ name f := by
  obtain ⟨hready', hsame⟩ := isReady_mono (s.finished.prefix_insert? name done?) hready
  refine ⟨hready', ds, ?_, fun d hd => mem_append_right _ hd⟩
  rw [hsame, get?_insert?_self hnew]
  exact hfinish

theorem Sound.step (hc : c.IsAccepted) (h : c.Sound s) (hstep : c.Step s t) : c.Sound t := by
  cases hstep with
  | @take name f before after done? ds hpending hready hfinish =>
    have hmem : (name, f) ∈ s.pending := by
      rw [hpending]
      simp
    have hnew := h.not_mem_names hmem
    have hsub : ∀ x ∈ before ++ after, x ∈ s.pending := by
      intro x hx
      rw [hpending]
      rcases mem_append.mp hx with hx | hx
      · exact mem_append_left _ hx
      · exact mem_append_right _ (mem_cons_of_mem _ hx)
    constructor
    · have hnodup := h.names_nodup
      rw [hpending, map_append, map_cons,
        ((perm_middle).append_left s.finished.names).nodup_iff, ← map_append] at hnodup
      rw [names_insert?, append_assoc]
      cases done? with
      | none => exact ((sublist_cons_self _ _).append_left _).nodup hnodup
      | some l => exact hnodup
    · intro x hx
      exact h.pending_assembled x (hsub x hx)
    · intro i other l hi
      rcases getElem?_insert? hi with ⟨hold, htake⟩ | ⟨done, rfl, hpair, htake⟩
      · rw [htake]
        exact h.linked i other l hold
      · cases hpair
        rw [htake]
        exact .inr ⟨f, ds, h.pending_assembled _ hmem, hready, hfinish⟩
    · exact h.given_prefix.trans (s.finished.prefix_insert? name done?)
    · intro x hx
      by_cases hname : x.1 = name
      · cases hname
        cases assembled_unique hc hx (h.pending_assembled _ hmem)
        exact .inr (settled_take hnew hready hfinish _)
      · rcases h.settled x hx with hwaits | hsettled
        · rw [hpending] at hwaits
          have hother : x ≠ (name, f) := fun heq => hname (by rw [heq])
          left
          simpa [hother] using hwaits
        · exact .inr (hsettled.insert? hname done? _ ds)
    · intro x hx hne hnone
      obtain ⟨d, hd, habout⟩ := h.unparsed x hx hne hnone
      exact ⟨d, mem_append_left _ hd, habout⟩

theorem Sound.run (hc : c.IsAccepted) (h : c.Sound s) (hrun : c.Run s t) : c.Sound t := by
  induction hrun with
  | refl => exact h
  | tail _ hstep ih => exact ih.step hc hstep

theorem build_cases (hc : c.IsAccepted) {set : FileSet} (h : c.build log = .ok set log') :
    (set = .empty ∧ ∃ ds, log' = log.extend ds ∧
      ∃ d ∈ ds, d.cause? = some .reservedSpaceViolation) ∨
    ∃ stuck reported, c.Sound ⟨set, stuck, reported⟩ ∧ set.ready stuck = [] ∧
      log' = log.extend (reported ++ c.diagnoseAll set stuck) := by
  unfold build at h
  simp only [bind, EStateM.bind] at h
  cases hassemble : assembleAll .empty [] c.inputs log with
  | error e middle =>
    simp only [hassemble] at h
    cases h
  | ok r middle =>
    obtain ⟨finished, pending⟩ := r
    obtain ⟨hfinished, hpending, ds, rfl, hunparsed⟩ := assembleAll_ok hassemble
    obtain ⟨files⟩ := finished
    have hstart : files = (given c.inputs).files := hfinished
    rw [nil_append] at hpending
    subst hstart hpending
    simp only [hassemble] at h
    by_cases hreserved : (reservedSpaceViolations (assembled c.inputs)).isEmpty = true
    · rw [if_pos hreserved] at h
      simp only [EStateM.bind] at h
      cases hpasses : c.passes ⟨(given c.inputs).files⟩ (assembled c.inputs) (log.extend ds) with
      | error e middle =>
        simp only [hpasses] at h
        cases h
      | ok r middle =>
        obtain ⟨after, stuck⟩ := r
        obtain ⟨hend, es, rfl, hrun⟩ := passes_run hpasses
        simp only [hpasses] at h
        cases h
        refine .inr ⟨stuck, ds ++ es, (sound_initial hc hunparsed).run hc (hrun ds), hend, ?_⟩
        dsimp only
        rw [Log.foldl_report, Log.extend_extend, Log.extend_extend, append_assoc]
    · rw [if_neg hreserved] at h
      cases h
      refine .inl ⟨rfl, ds ++ reservedSpaceViolations (assembled c.inputs), ?_, ?_⟩
      · dsimp only
        rw [Log.foldl_report, Log.extend_extend]
      · rw [List.isEmpty_iff] at hreserved
        obtain ⟨d, hd⟩ := exists_mem_of_ne_nil _ hreserved
        obtain ⟨x, _, rfl⟩ := mem_map.mp hd
        exact ⟨_, mem_append_right _ hd, rfl⟩

theorem Linked.imports (hc : c.IsAccepted) {earlier : FileSet} {l : LinkedFile}
    (h : c.Linked earlier name l) :
    l.name = name ∧ name ∈ c.inputs.map Prod.fst ∧
      (name ≠ metaSchemaFile → Forall₂ (fun d dep => earlier.dependency? d = some dep)
        l.proto.dependencies l.dependencies) := by
  rcases h with ⟨rfl, rfl, hinput⟩ | ⟨f, ds, hf, hready, hfinish⟩
  · exact ⟨rfl, hinput, fun hne => absurd rfl hne⟩
  · obtain ⟨input, hinput, _, hassembled⟩ := mem_assembled.mp hf
    obtain ⟨hname, _⟩ := SchemaInput.assembled?_heading (hc.wellNamed.isNamed _ hinput) hassembled
    rcases hfinish.answered.2 with ⟨hnone, _⟩ | ⟨_, q, hq, hlink⟩
    · cases hnone
    · cases hlink
      refine ⟨(FileDescriptor.name_of_heading hq).trans hname, mem_map_of_mem hinput, ?_⟩
      intro _
      have hsame : (LinkedFile.link q (earlier.imported f)).proto.dependencies =
        f.file.dependencies := FileDescriptor.dependencies_of_heading hq
      rw [hsame]
      exact imported_of_isReady hready

end Compiler

/-- The set that is returned is closed under imports and ordered by them. It holds inputs only, each
at most once and under its own name; and what a file of it is linked to is, position by position,
the schema of schemas or the very file of the set, further in front, that it imports under that
name. -/
theorem build_ordered {c : Compiler} (hc : c.IsAccepted) {set : FileSet} {log log' : Log}
    (h : c.build log = .ok set log') :
    set.names.Nodup ∧ (∀ name ∈ set.names, c.hasInput name = true) ∧
    ∀ (i : Nat) (name : String) (l : LinkedFile), set.files[i]? = some (name, l) → l.name = name ∧
      (name ≠ metaSchemaFile →
        List.Forall₂ (fun d dep => d = metaSchemaFile ∧ dep = MetaSchema.file ∨
          ∃ j < i, set.files[j]? = some (d, dep)) l.proto.dependencies l.dependencies) := by
  rcases Compiler.build_cases hc h with ⟨rfl, _⟩ | ⟨stuck, reported, hsound, _, _⟩
  · refine ⟨nodup_nil, by simp [FileSet.names, FileSet.empty], ?_⟩
    intro i name l hi
    simp [FileSet.empty] at hi
  · refine ⟨(nodup_append.mp hsound.names_nodup).1, ?_, ?_⟩
    · intro name hname
      obtain ⟨x, hx, rfl⟩ := mem_map.mp hname
      obtain ⟨i, hi⟩ := mem_iff_getElem?.mp hx
      obtain ⟨_, hinput, _⟩ := (hsound.linked i x.1 x.2 hi).imports hc
      obtain ⟨y, hy, hsame⟩ := mem_map.mp hinput
      exact any_eq_true.mpr ⟨y, hy, by simpa using hsame⟩
    · intro i name l hi
      obtain ⟨hname, _, himports⟩ := (hsound.linked i name l hi).imports hc
      refine ⟨hname, fun hne => (himports hne).imp ?_⟩
      intro d dep hdep
      unfold FileSet.dependency? at hdep
      by_cases hschema : d = metaSchemaFile
      · rw [if_pos hschema] at hdep
        exact Or.inl ⟨hschema, (Option.some.inj hdep).symm⟩
      · rw [if_neg hschema] at hdep
        obtain ⟨j, hj, hfile⟩ := mem_take_iff_getElem.mp (FileSet.mem_of_get? hdep)
        obtain ⟨hji, hjset⟩ := Nat.lt_min.mp hj
        exact Or.inr ⟨j, hji, by rw [getElem?_eq_getElem hjset, hfile]⟩

theorem Compiler.build_of_passes {c : Compiler} {finished set : FileSet} {pending : Pending}
    {log log₁ log₂ : Log}
    (hassemble : assembleAll .empty [] c.inputs log = .ok (finished, pending) log₁)
    (hreserved : reservedSpaceViolations pending = [])
    (hpasses : c.passes finished pending log₁ = .ok (set, stuck) log₂) :
    c.build log = .ok set (log₂.extend (c.diagnoseAll set stuck)) := by
  unfold build
  simp only [bind, EStateM.bind, hassemble, hreserved, isEmpty_nil, if_true, hpasses,
    ← Log.foldl_report]
  rfl

namespace Backward

def importer : FileDescriptor := .importing "a.proto" ["b.proto", metaSchemaFile]

def imported : FileDescriptor := .importing "b.proto" []

def compiler : Compiler where
  inputs := [("a.proto", .descriptor importer), ("b.proto", .descriptor imported)]

def set : FileSet :=
  ⟨[("b.proto", .link imported []),
    ("a.proto", .link importer [.link imported [], MetaSchema.file])]⟩

theorem isAccepted : compiler.IsAccepted := by
  have hfirst : ({} : Compiler).addDescriptor importer =
      .ok { inputs := [("a.proto", .descriptor importer)] } := rfl
  have hsecond : Compiler.addDescriptor { inputs := [("a.proto", .descriptor importer)] } imported =
      .ok compiler := rfl
  exact .descriptor (.descriptor (.new {}) hfirst) hsecond

theorem build_eq : compiler.build .empty = .ok set .empty := by with_unfolding_all rfl

theorem build_ordered_importer :
    compiler.build .empty = .ok set .empty ∧
    List.Forall₂ (fun d dep => d = metaSchemaFile ∧ dep = MetaSchema.file ∨
      ∃ j < 1, set.files[j]? = some (d, dep))
      ["b.proto", metaSchemaFile] [.link imported [], MetaSchema.file] :=
  ⟨build_eq, ((build_ordered isAccepted build_eq).2.2 1 "a.proto" _ rfl).2 (by decide)⟩

end Backward

end ProtobufSchema

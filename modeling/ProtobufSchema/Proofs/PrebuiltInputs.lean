import ProtobufSchema.Proofs.LeftoverNames

/-! Texts and the descriptors assembled from them as inputs. Where canonical form completes the
names of a descriptor as references are resolved, two compilers build in step with each other. -/

namespace ProtobufSchema

open List Canonicalizer Compiler

variable {name : String} {p : PendingFile} {f : FileDescriptor}

section EndAlike

variable {ε α β γ δ : Type} {R : α → β → Prop} {x : Reporting ε α} {y : Reporting ε β}

/-- Two computations end alike, whatever was reported before: with related answers, or with the same
failure. -/
def EndAlike (R : α → β → Prop) (x : Reporting ε α) (y : Reporting ε β) : Prop :=
  ∀ log log', (∃ a b after after', x log = .ok a after ∧ y log' = .ok b after' ∧ R a b) ∨
    ∃ e after after', x log = .error e after ∧ y log' = .error e after'

namespace EndAlike

theorem pure {a : α} {b : β} (h : R a b) :
    EndAlike R (pure a : Reporting ε α) (pure b : Reporting ε β) :=
  fun log log' => .inl ⟨a, b, log, log', rfl, rfl, h⟩

theorem of_run {r : Except ε α} {ds : List Diagnostic}
    (hrun : ∀ log, x log = ended r (log.extend ds)) : EndAlike Eq x x := by
  intro log log'
  cases r with
  | ok a => exact .inl ⟨a, a, _, _, hrun log, hrun log', rfl⟩
  | error e => exact .inr ⟨e, _, _, hrun log, hrun log'⟩

theorem bind {S : γ → δ → Prop} {f : α → Reporting ε γ} {g : β → Reporting ε δ} (h : EndAlike R x y)
    (hnext : ∀ a b, R a b → EndAlike S (f a) (g b)) : EndAlike S (x >>= f) (y >>= g) := by
  intro log log'
  simp only [Bind.bind, EStateM.bind]
  rcases h log log' with ⟨a, b, after, after', hx, hy, hab⟩ | ⟨e, after, after', hx, hy⟩
  · rw [hx, hy]
    exact hnext a b hab after after'
  · rw [hx, hy]
    exact .inr ⟨e, after, after', rfl, rfl⟩

theorem mono {S : α → β → Prop} (h : EndAlike R x y) (hRS : ∀ a b, R a b → S a b) :
    EndAlike S x y := by
  intro log log'
  rcases h log log' with ⟨a, b, after, after', hx, hy, hab⟩ | hfailure
  · exact .inl ⟨a, b, after, after', hx, hy, hRS a b hab⟩
  · exact .inr hfailure

theorem strengthen {P : α → Prop} (h : EndAlike R x y)
    (hx : ∀ log a after, x log = .ok a after → P a) : EndAlike (fun a b => R a b ∧ P a) x y := by
  intro log log'
  rcases h log log' with ⟨a, b, after, after', hfirst, hsecond, hab⟩ | hfailure
  · exact .inl ⟨a, b, after, after', hfirst, hsecond, hab, hx log a after hfirst⟩
  · exact .inr hfailure

end EndAlike

end EndAlike

namespace PendingFile

def forgotten (p : PendingFile) : PendingFile := ⟨p.file, []⟩

theorem file_forgotten (p : PendingFile) (b : Bool) :
    (if b then p.forgotten else p).file = p.file := by
  cases b <;> rfl

/-- The references that are left over, each with the scope of the place where it stands. -/
def leftovers (p : PendingFile) : List (String × Mention) :=
  p.file.standing.filter fun x => x.2 ∈ p.unresolved.map Reference.mention

/-- All that is left over is found, and canonical form finds the same. -/
def FindsAlike (p : PendingFile) (options : BuildOptions) (dependencies : List LinkedFile) : Prop :=
  ∀ x ∈ p.leftovers, (x.2.seen? (p.pool dependencies) options.strictNames).isSome ∧
    x.2.canonical? (p.pool dependencies) x.1 = x.2.seen? (p.pool dependencies) options.strictNames

instance (p : PendingFile) (options : BuildOptions) (dependencies : List LinkedFile) :
    Decidable (p.FindsAlike options dependencies) :=
  inferInstanceAs (Decidable (∀ x ∈ p.leftovers, _ ∧ _))

/-- Something that is left over is not found. Canonical form misses a relative name too, and does
not fail over an option. -/
def MissesAlike (p : PendingFile) (options : BuildOptions) (dependencies : List LinkedFile) :
    Prop :=
  (∃ x ∈ p.leftovers, x.2.seen? (p.pool dependencies) options.strictNames = none) ∧
  (∃ x ∈ p.leftovers, Name.absolute? x.2.name = none ∧
    x.2.canonical? (p.pool dependencies) x.1 = none) ∧
  ∃ q log, (Canonicalizer.ofDependencies dependencies options).canonicalize p.file .empty =
    .ok q log

end PendingFile

theorem Canonicalizer.canonicalize_congr {c : Canonicalizer} {f' : FileDescriptor}
    (h : c.qualifyNames f = c.qualifyNames f') : c.canonicalize f = c.canonicalize f' := by
  unfold canonicalize
  rw [h]

theorem Ledger.Describes.relative?_of_known {l : Ledger} (hl : l.Describes f)
    {w : Placed FieldDescriptor} (hw : w ∈ f.placedFields) (hknown : w.value.type? ≠ none) :
    Name.relative? w.value.typeName? = none := by
  have hsettled := hl.settled (w.map FieldDescriptor.use) (mem_append_left _ (mem_map_of_mem hw))
  unfold Placed.map FieldDescriptor.use at hsettled
  generalize w.value.type? = type? at hsettled hknown
  generalize w.value.typeName? = typeName? at hsettled
  cases hsettled with
  | named => exact absurd rfl hknown
  | scalar => rfl
  | made => exact Name.relative?_qualify _

namespace PendingFile

theorem canonicalizer_pool (hname : p.file.name ≠ metaSchemaFile)
    (dependencies : List LinkedFile) (options : BuildOptions) :
    (ofDependencies dependencies options).pool p.file = p.pool dependencies := by
  have hother : p.file.name ≠ MetaSchema.file.name := hname
  unfold Canonicalizer.pool ofDependencies
  dsimp only
  rw [if_neg hother, pool]

section Source

variable {p : PendingFile} {l : Ledger} {f : FileDescriptor} (hl : l.Describes f)
  (hf : f.isAddressable = true) (hfile : p.file = f.answered (Mention.own? f))
  (hunresolved : p.unresolved = l.unresolved f) {m : Mention} {dependencies : List LinkedFile}
  {c : Compiler}
variable {site : String}

include hl hunresolved in
theorem mem_unresolved :
    m ∈ p.unresolved.map Reference.mention ↔ m ∈ f.mentions ∧ m.own? f = none := by
  rw [hunresolved, hl.perm_unresolved.mem_iff, mem_filter, Option.isNone_iff_eq_none]

include hl hfile hunresolved

theorem mem_leftovers (h : (site, m) ∈ f.standing) (hown : m.own? f = none) :
    (site, m) ∈ p.leftovers := by
  rw [leftovers, mem_filter, decide_eq_true_eq, mem_unresolved hl hunresolved, hfile]
  exact ⟨FileDescriptor.mem_standing_answered h hown,
    FileDescriptor.mem_mentions_of_standing h, hown⟩

theorem of_mem_leftovers (h : (site, m) ∈ p.leftovers) : m ∈ f.mentions ∧ m.own? f = none ∧
      (Name.absolute? m.name = none ∨ m.kind = .fieldType → (site, m) ∈ f.standing) := by
  rw [leftovers, mem_filter, decide_eq_true_eq, mem_unresolved hl hunresolved, hfile] at h
  obtain ⟨hstanding, hmention, hown⟩ := h
  exact ⟨hmention, hown, fun hname => (FileDescriptor.mem_standing_of_answered hstanding hname).1⟩

/-- Canonical form that finds what the references denote makes the file with all names answered. -/
theorem qualified_of_findsAlike {options : BuildOptions} (hname : p.file.name ≠ metaSchemaFile)
    (h : p.FindsAlike options dependencies) :
    (∀ m ∈ f.mentions, (m.answer? f (p.pool dependencies) options.strictNames).isSome) ∧
      (ofDependencies dependencies options).qualifyNames p.file =
        reporting []
          (f.answered (Mention.answer? f (p.pool dependencies) options.strictNames)) := by
  have hcompleted : ∀ x ∈ f.standing, x.2.Completed (p.pool dependencies) x.1 (Mention.own? f)
      (Mention.answer? f (p.pool dependencies) options.strictNames) := by
    rintro ⟨site, m⟩ hm
    cases hown : m.own? f with
    | some x => exact ⟨x, by rw [Mention.answer?, hown, Option.some_or], Or.inl hown⟩
    | none =>
      obtain ⟨hsome, hsame⟩ := h _ (mem_leftovers hl hfile hunresolved hm hown)
      obtain ⟨x, hx⟩ := Option.isSome_iff_exists.mp hsome
      exact ⟨x, by rw [Mention.answer?, hown, Option.none_or, hx], Or.inr ⟨hown, hsame.trans hx⟩⟩
  constructor
  · intro m hm
    obtain ⟨site, hsite⟩ := FileDescriptor.exists_standing hm
    obtain ⟨x, hx, _⟩ := hcompleted _ hsite
    rw [hx]
    rfl
  · rw [← canonicalizer_pool hname dependencies options] at hcompleted ⊢
    rw [hfile] at hcompleted ⊢
    obtain ⟨hqualified, hmissing⟩ :=
      qualified_answered (fun w hw => hl.relative?_of_known hw) hcompleted
    rw [qualifyNames_eq, hqualified, hmissing]

include hf

variable (hname : p.file.name ≠ metaSchemaFile)
include hname

theorem finish_forgotten (h : p.FindsAlike c.options dependencies) :
    c.finish name p.forgotten dependencies = c.finish name p dependencies := by
  obtain ⟨hall, hqualify⟩ := qualified_of_findsAlike hl hfile hunresolved hname h
  obtain ⟨ds, hresolve, hds⟩ :=
    resolve_answered hl hf hfile hunresolved c.options.strictNames dependencies
  obtain rfl := hds.mpr hall
  have hforgotten : p.forgotten.resolve c.options.strictNames dependencies = reporting [] p.file :=
    pure_eq_reporting _
  have hcanonical := canonicalize_congr (hqualify.trans ((pure_eq_reporting _).symm.trans
    (qualifyNames_of_isQualified (hl.isQualified_answered hall)).symm))
  obtain ⟨outcome, es, _, hrun⟩ := canonicalize_keepsBack (ofDependencies dependencies c.options)
    (f.answered (Mention.answer? f (p.pool dependencies) c.options.strictNames))
  funext log
  have hfirst := hrun log
  have hsecond := (congrFun hcanonical log).trans hfirst
  cases outcome with
  | ok q => rw [finish_of_resolved hforgotten hsecond, finish_of_resolved hresolve hfirst]
  | error e => rw [finish_of_failure hforgotten hsecond, finish_of_failure hresolve hfirst]

theorem finish_of_missesAlike
    (h : p.MissesAlike c.options dependencies) (name : String) (log : Log) :
    (∃ after, c.finish name p dependencies log = .ok none after) ∧
      ∃ after, c.finish name p.forgotten dependencies log = .ok none after := by
  obtain ⟨⟨⟨site, m⟩, hm, hunseen⟩, ⟨⟨site', m'⟩, hm', hrelative, hunfound⟩, q, after,
    hcanonical⟩ := h
  constructor
  · obtain ⟨ds, hresolve, hds⟩ :=
      resolve_answered hl hf hfile hunresolved c.options.strictNames dependencies
    obtain ⟨hmention, hown, _⟩ := of_mem_leftovers hl hfile hunresolved hm
    have hreported : ds ≠ [] := by
      intro hnone
      have hsome := hds.mp hnone m hmention
      rw [Mention.answer?, hown, hunseen] at hsome
      cases hsome
    exact ⟨_, finish_of_unresolved hresolve hreported log⟩
  · have hmissing : (ofDependencies dependencies c.options).missingNames p.file ≠ [] := by
      intro hnone
      obtain ⟨x, hx⟩ := exists_canonical? hnone (mem_filter.mp hm').1 hrelative
      rw [canonicalizer_pool hname, hunfound] at hx
      cases hx
    obtain ⟨outcome, ds, _, hrun⟩ :=
      canonicalize_reports (ofDependencies dependencies c.options) p.file
    cases outcome with
    | error e => cases hcanonical.symm.trans (hrun .empty)
    | ok q =>
      have hforgotten : p.forgotten.resolve c.options.strictNames dependencies =
          reporting [] p.file :=
        pure_eq_reporting _
      exact ⟨_,
        (finish_of_resolved hforgotten (hrun log)).trans (by rw [if_neg (by simp [hmissing])])⟩

theorem findsAlike_of_finishes {done : LinkedFile}
    (h : c.Finishes name p dependencies (some done) [])
    (h' : c.Finishes name p.forgotten dependencies (some done) []) :
    p.FindsAlike c.options dependencies := by
  obtain ⟨file, q, hresolve, hcanonical, _, _, rfl⟩ := Finishes.some_iff.mp h
  obtain ⟨file', q', hresolve', hcanonical', _, _, hsame⟩ := Finishes.some_iff.mp h'
  obtain rfl : q = q' := congrArg LinkedFile.proto hsame
  obtain rfl : p.file = file' := congrArg Prod.fst (congrFun hresolve' .empty)
  obtain ⟨ds, hrun, hds⟩ :=
    resolve_answered hl hf hfile hunresolved c.options.strictNames dependencies
  have hends := congrFun (hresolve.symm.trans hrun) .empty
  obtain rfl : file = f.answered _ := congrArg Prod.fst hends
  have hall := hds.mp (Log.extend_injective .empty (congrArg Prod.snd hends)).symm
  -- Both say about types what the finished file says.
  have hsites := (canonicalize_alike (hcanonical .empty)).sites
  rw [(qualified_of_isQualified _ (hl.isQualified_answered hall)).1] at hsites
  have hsites' := (canonicalize_alike (hcanonical' .empty)).sites.symm.trans hsites
  have hmissing := missingNames_of_quiet (hcanonical' .empty)
  rintro ⟨site, m⟩ hm
  obtain ⟨hmention, hown, hstanding⟩ := of_mem_leftovers hl hfile hunresolved hm
  have hsome := hall m hmention
  rw [Mention.answer?, hown, Option.none_or] at hsome
  obtain ⟨x, hx⟩ := Option.isSome_iff_exists.mp hsome
  refine ⟨hsome, ?_⟩
  dsimp only
  rw [hx]
  by_cases hcompleted : Name.absolute? m.name = none ∨ m.kind = .fieldType
  · rw [← canonicalizer_pool hname dependencies c.options, hfile]
    rw [hfile] at hmissing hsites'
    refine canonical?_of_qualified hmissing hsites' (hstanding hcompleted) hcompleted hown ?_
      (Mention.seen?_eq_some hx).1
    rw [Mention.answer?, hown, Option.none_or, hx]
  · obtain ⟨hfull, hkind⟩ := not_or.mp hcompleted
    obtain ⟨full, hfull⟩ := Option.ne_none_iff_exists'.mp hfull
    exact Mention.canonical?_of_seen? hfull hkind hx

end Source

end PendingFile

/-- What is assembled from an input, in place of the input. -/
def SchemaInput.prebuilt (name : String) (input : SchemaInput) : SchemaInput :=
  match input.assembled? name with
  | some p => .descriptor p.file
  | none => input

def Pending.forgetting (chosen : String → Bool) (pending : Pending) : Pending :=
  pending.map fun x => (x.1, if chosen x.1 then x.2.forgotten else x.2)

namespace Compiler

/-- A compiler with descriptors in place of the inputs they are assembled from, under chosen
names. -/
def prebuilt (c : Compiler) (chosen : String → Bool) : Compiler :=
  { c with inputs := c.inputs.map fun x => (x.1, if chosen x.1 then x.2.prebuilt x.1 else x.2) }

/-- Some files are what the imports of another are built into. -/
def Supplies (c : Compiler) (p : PendingFile) (dependencies : List LinkedFile) : Prop :=
  List.Forall₂ (fun d l => d = metaSchemaFile ∧ l = MetaSchema.file ∨
    d ≠ metaSchemaFile ∧ c.Builds d l) p.file.dependencies dependencies

section Accepted

variable {c : Compiler} {chosen : String → Bool}

theorem isAccepted_prebuilt (hc : c.IsAccepted) (chosen : String → Bool) :
    (c.prebuilt chosen).IsAccepted := by
  obtain ⟨hnodup, hnamed⟩ := hc.wellNamed
  refine isAccepted_of_wellNamed c.options ⟨?_, ?_⟩
  · rw [map_map]
    exact hnodup
  · rw [forall_mem_map]
    intro x hx
    split
    · unfold SchemaInput.prebuilt
      split
      · rename_i p hassembled
        exact (SchemaInput.assembled?_heading (hnamed x hx) hassembled).1
      · exact hnamed x hx
    · exact hnamed x hx

end Accepted

section Step

variable {c : Compiler} {chosen : String → Bool}
variable (s : FileSet) (pending : Pending)

theorem assemble_prebuilt (name : String) (input : SchemaInput) :
    EndAlike (fun f? f?' => f?' = f?.map fun p => if chosen name then p.forgotten else p)
      (assemble name input)
        (assemble name (if chosen name then input.prebuilt name else input)) := by
  obtain ⟨outcome, ds, _, hrun⟩ := (assemble_reports name input).run
  have hself := EndAlike.of_run hrun
  cases hchosen : chosen name with
  | false => exact hself.mono fun a b hab => by simp [hab]
  | true =>
    cases hassembled : input.assembled? name with
    | none =>
      have hsame : input.prebuilt name = input := by rw [SchemaInput.prebuilt, hassembled]
      have hnone : ∀ log f? after, assemble name input log = .ok f? after → f? = none :=
        fun log f? after h => (assemble_extends h).1.trans hassembled
      rw [hsame]
      exact (hself.strengthen hnone).mono fun a b hab => by simp [← hab.1, hab.2]
    | some p =>
      have hdescriptor : input.prebuilt name = .descriptor p.file := by
        rw [SchemaInput.prebuilt, hassembled]
      rw [hdescriptor]
      rw [SchemaInput.assembled?, hrun .empty] at hassembled
      cases outcome with
      | error e => cases hassembled
      | ok f? =>
        obtain rfl : f? = some p := hassembled
        exact fun log log' => .inl ⟨some p, some p.forgotten, _, log', hrun log, rfl, rfl⟩

theorem assembleAll_prebuilt (chosen : String → Bool) (finished : FileSet) (pending : Pending)
    (inputs : List (String × SchemaInput)) :
    EndAlike (fun r r' => r'.1 = r.1 ∧ r'.2 = r.2.forgetting chosen)
      (assembleAll finished pending inputs)
      (assembleAll finished (pending.forgetting chosen)
        (inputs.map fun x => (x.1, if chosen x.1 then x.2.prebuilt x.1 else x.2))) := by
  induction inputs generalizing finished pending with
  | nil => exact .pure ⟨rfl, rfl⟩
  | cons x inputs ih =>
    obtain ⟨name, input⟩ := x
    simp only [map_cons, assembleAll]
    by_cases hname : name = metaSchemaFile
    · rw [if_pos hname, if_pos hname]
      exact ih _ _
    · rw [if_neg hname, if_neg hname]
      refine .bind (assemble_prebuilt name input) ?_
      rintro f? _ rfl
      cases f? with
      | none => exact ih _ _
      | some p =>
        have hlater := ih finished (pending ++ [(name, p)])
        rw [Pending.forgetting, map_append] at hlater
        exact hlater

theorem ready_forgetting :
    s.ready (pending.forgetting chosen) = .forgetting chosen (s.ready pending) := by
  simp [FileSet.ready, FileSet.isReady, Pending.forgetting, filter_map, Function.comp_def,
    PendingFile.file_forgotten]

theorem waiting_forgetting :
    s.waiting (pending.forgetting chosen) = .forgetting chosen (s.waiting pending) := by
  simp [FileSet.waiting, FileSet.isReady, Pending.forgetting, filter_map, Function.comp_def,
    PendingFile.file_forgotten]

theorem reservedSpaceViolations_forgetting :
    reservedSpaceViolations (pending.forgetting chosen) = reservedSpaceViolations pending := by
  simp [reservedSpaceViolations, Pending.forgetting, filter_map, Function.comp_def,
    PendingFile.file_forgotten]

theorem IsBuilt.supplies {s : FileSet} (hs : c.IsBuilt s) (hready : s.isReady p = true) :
    c.Supplies p (s.imported p) := by
  refine (FileSet.imported_of_isReady hready).imp ?_
  intro d l hd
  unfold FileSet.dependency? at hd
  by_cases hschema : d = metaSchemaFile
  · rw [if_pos hschema] at hd
    exact .inl ⟨hschema, (Option.some.inj hd).symm⟩
  · rw [if_neg hschema] at hd
    exact .inr ⟨hschema, hs d l hd⟩

theorem IsBuilt.insert? {s : FileSet} (hs : c.IsBuilt s) {done? : Option LinkedFile}
    (hdone : ∀ l, done? = some l → c.Builds name l) : c.IsBuilt (s.insert? name done?) := by
  intro other l h
  by_cases hname : other = name
  · subst hname
    unfold FileSet.get? FileSet.insert? at h
    rw [lookup_append, Option.or_eq_some_iff] at h
    rcases h with h | ⟨_, h⟩
    · exact hs _ l h
    · cases done? with
      | none => cases h
      | some done =>
        have hsame : some done = some l := by simpa using h
        exact hdone l hsame
  · rw [FileSet.get?_insert?_ne hname] at h
    exact hs other l h

end Step

section Lockstep

variable {c : Compiler} {chosen : String → Bool}
variable {finished : FileSet}

/-- Under the chosen names stand texts that are schemas and are assembled. -/
def IsWritten (c : Compiler) (chosen : String → Bool) : Prop :=
  ∀ x ∈ c.inputs, chosen x.1 = true → ∃ text p, x.2 = .source text ∧ x.2.assembled? x.1 = some p ∧
    p.file.isAddressable = true

/-- The chosen files whose imports are built find or miss their names alike. -/
def ReadsAlike (c : Compiler) (chosen : String → Bool) : Prop :=
  ∀ name p dependencies, chosen name = true → (name, p) ∈ assembled c.inputs →
    c.Supplies p dependencies → p.FindsAlike c.options dependencies ∨
    p.MissesAlike c.options dependencies

theorem IsWritten.source (h : c.IsWritten chosen) (hname : chosen name = true)
    (hp : (name, p) ∈ assembled c.inputs) :
    p.file.name ≠ metaSchemaFile ∧ ∃ (f : FileDescriptor) (l : Ledger), l.Describes f ∧
      f.isAddressable = true ∧ p.file = f.answered (Mention.own? f) ∧
      p.unresolved = l.unresolved f := by
  obtain ⟨input, hinput, hother, hassembled⟩ := mem_assembled.mp hp
  obtain ⟨text, p', rfl, hassembled', haddressable⟩ := h _ hinput hname
  obtain rfl : p = p' := Option.some.inj (hassembled.symm.trans hassembled')
  obtain ⟨_, f, l, _, _, hparts⟩ := SchemaInput.assembled?_source hassembled haddressable
  have hnamed : (SchemaInput.source text).IsNamed name := trivial
  exact ⟨(SchemaInput.assembled?_heading hnamed hassembled).1 ▸ hother, f, l, hparts⟩

variable (hwritten : c.IsWritten chosen) (halike : c.ReadsAlike chosen)
include hwritten halike

theorem finish_prebuilt {dependencies : List LinkedFile}
    (hp : (name, p) ∈ assembled c.inputs) (hsupplies : c.Supplies p dependencies) :
    EndAlike Eq (c.finish name p dependencies)
      (c.finish name (if chosen name then p.forgotten else p) dependencies) := by
  obtain ⟨outcome, ds, _, hrun, _⟩ := c.finish_reports name p dependencies
  cases hchosen : chosen name with
  | false => exact .of_run hrun
  | true =>
    obtain ⟨hname, f, l, hl, hf, hfile, hunresolved⟩ := hwritten.source hchosen hp
    rcases halike name p dependencies hchosen hp hsupplies with hfinds | hmisses
    · rw [if_pos rfl, PendingFile.finish_forgotten hl hf hfile hunresolved hname hfinds]
      exact .of_run hrun
    · intro log log'
      obtain ⟨⟨after, hfirst⟩, _⟩ :=
        PendingFile.finish_of_missesAlike hl hf hfile hunresolved hname hmisses name log
      obtain ⟨_, after', hsecond⟩ :=
        PendingFile.finish_of_missesAlike hl hf hfile hunresolved hname hmisses name log'
      exact .inl ⟨none, none, after, after', hfirst, hsecond, rfl⟩

variable (hc : c.IsAccepted)
include hc

theorem finishAll_prebuilt {start : FileSet} (hstart : start.files <+: finished.files)
    (hbuilt : c.IsBuilt finished) {batch : Pending}
    (hbatch : ∀ x ∈ batch, x ∈ assembled c.inputs ∧ start.isReady x.2 = true) :
    EndAlike (fun s s' => s = s' ∧ c.IsBuilt s) (c.finishAll finished batch)
      ((c.prebuilt chosen).finishAll finished (batch.forgetting chosen)) := by
  induction batch generalizing finished with
  | nil => exact .pure ⟨rfl, hbuilt⟩
  | cons x batch ih =>
    obtain ⟨name, p⟩ := x
    obtain ⟨⟨hp, hready⟩, hrest⟩ := forall_mem_cons.mp hbatch
    have hready' := (FileSet.isReady_mono hstart hready).1
    simp only [Pending.forgetting, map_cons, finishAll, p.file_forgotten]
    have hstep := (finish_prebuilt hwritten halike hp (hbuilt.supplies hready')).strengthen
      (P := fun done? => ∀ l, done? = some l → c.Builds name l) (by
        rintro log _ after hfinish l rfl
        obtain ⟨ds, _, hfinish⟩ := finishes_of_finish hfinish
        exact hbuilt.builds hc hp hready' hfinish)
    refine .bind hstep ?_
    rintro done? _ ⟨rfl, hdone⟩
    have hlater :=
      ih (hstart.trans (finished.prefix_insert? name done?)) (hbuilt.insert? hdone) hrest
    cases done? with
    | none =>
      have hsame : finished.insert? name none = finished := by simp [FileSet.insert?]
      rwa [hsame] at hlater
    | some l => exact hlater

theorem passes_prebuilt {pending : Pending} (hbuilt : c.IsBuilt finished)
    (hpending : ∀ x ∈ pending, x ∈ assembled c.inputs) :
    EndAlike (fun r r' => r.1 = r'.1) (c.passes finished pending)
      ((c.prebuilt chosen).passes finished (pending.forgetting chosen)) := by
  induction finished, pending using passes.induct with
  | case1 finished pending hnone =>
    have hnone' : finished.ready (pending.forgetting chosen) = [] := by
      rw [ready_forgetting, hnone]
      rfl
    rw [passes, passes, if_pos hnone, if_pos hnone']
    exact .pure rfl
  | case2 finished pending hsome ih =>
    have hsome' : finished.ready (pending.forgetting chosen) ≠ [] := by
      rw [ready_forgetting]
      simpa [Pending.forgetting] using hsome
    rw [passes, passes, if_neg hsome, if_neg hsome', ready_forgetting, waiting_forgetting]
    refine .bind (finishAll_prebuilt hwritten halike hc (prefix_refl _) hbuilt ?_) ?_
    · intro x hx
      obtain ⟨hmem, hready⟩ := mem_filter.mp hx
      exact ⟨hpending x hmem, hready⟩
    · rintro grown _ ⟨rfl, hgrown⟩
      exact ih grown hgrown fun x hx => hpending x (mem_filter.mp hx).1

theorem build_prebuilt : EndAlike Eq c.build (c.prebuilt chosen).build := by
  have hassemble := (assembleAll_prebuilt chosen .empty [] c.inputs).strengthen
    (P := fun r => c.IsBuilt r.1 ∧ ∀ x ∈ r.2, x ∈ assembled c.inputs) (by
      rintro log ⟨finished, pending⟩ after h
      obtain ⟨hfinished, hpending, _⟩ := assembleAll_ok h
      refine ⟨?_, by simp [hpending]⟩
      intro name l hl
      have hmem := FileSet.mem_of_get? hl
      rw [hfinished] at hmem
      obtain ⟨x, hx, hpair⟩ := mem_map.mp hmem
      obtain ⟨hinput, hschema⟩ := mem_filter.mp hx
      cases hpair
      obtain ⟨_, input⟩ := x
      obtain rfl := of_decide_eq_true hschema
      exact .schema ((mem_inputs_iff hc).mpr hinput))
  refine .bind hassemble ?_
  rintro ⟨finished, pending⟩ ⟨finished', pending'⟩ ⟨⟨hsame, hforgetting⟩, hbuilt, hpending⟩
  dsimp only at hsame hforgetting hbuilt hpending ⊢
  subst hsame hforgetting
  rw [reservedSpaceViolations_forgetting]
  split
  · refine .bind (passes_prebuilt hwritten halike hc hbuilt hpending) ?_
    rintro ⟨set, stuck⟩ ⟨_, stuck'⟩ rfl log log'
    exact .inl ⟨set, set, _, _, rfl, rfl, rfl⟩
  · intro log log'
    exact .inl ⟨.empty, .empty, _, _, rfl, rfl, rfl⟩

end Lockstep

section Returned

variable {c : Compiler} {chosen : String → Bool} {name : String} {p : PendingFile}
  {dependencies : List LinkedFile} {l : LinkedFile}

theorem Builds.finishes_of_supplies (hc : c.IsAccepted) (h : c.Builds name l)
    (hp : (name, p) ∈ assembled c.inputs) (hsupplies : c.Supplies p dependencies) :
    c.Finishes name p dependencies (some l) [] := by
  obtain ⟨input, hinput, hname, hassembled⟩ := mem_assembled.mp hp
  cases h with
  | schema _ => exact absurd rfl hname
  | @file _ input' p' _ ds find _ hinput' hassembled' hschema himports hfinish =>
    obtain rfl : input' = input :=
      Option.some.inj (hinput'.symm.trans ((mem_inputs_iff hc).mpr hinput))
    obtain rfl : p' = p := Option.some.inj (hassembled'.symm.trans hassembled)
    have hdependencies : p'.file.dependencies.map find = dependencies := by
      unfold Supplies at hsupplies
      generalize p'.file.dependencies = names at hsupplies himports
      induction hsupplies with
      | nil => rfl
      | cons hd _ ih =>
        obtain ⟨hfirst, hrest⟩ := forall_mem_cons.mp himports
        rw [map_cons, ih hrest]
        rcases hd with ⟨rfl, rfl⟩ | ⟨hother, hd⟩
        · rw [hschema]
        · rw [(hfirst hother).unique hd]
    rw [hdependencies] at hfinish
    rcases hfinish.answered.2 with ⟨hnone, _⟩ | ⟨rfl, _⟩
    · cases hnone
    · exact hfinish

theorem Builds.dependencies_eq (hc : c.IsAccepted) (h : c.Builds name l)
    (hp : (name, p) ∈ assembled c.inputs) (hsupplies : c.Supplies p dependencies) :
    l.dependencies = dependencies := by
  obtain ⟨_, q, _, hlink⟩ :=
    (h.finishes_of_supplies hc hp hsupplies).answered.2.resolve_left (by simp)
  exact congrArg LinkedFile.dependencies (Option.some.inj hlink)

theorem assembled_prebuilt (hname : chosen name = true) (hp : (name, p) ∈ assembled c.inputs) :
    (name, p.forgotten) ∈ assembled (c.prebuilt chosen).inputs := by
  obtain ⟨input, hinput, hother, hassembled⟩ := mem_assembled.mp hp
  have hdescriptor : input.prebuilt name = .descriptor p.file := by
    rw [SchemaInput.prebuilt, hassembled]
  refine mem_assembled.mpr ⟨.descriptor p.file, mem_map.mpr ⟨_, hinput, ?_⟩, hother, rfl⟩
  rw [if_pos hname, hdescriptor]

theorem findsAlike_of_builds (hc : c.IsAccepted) (hwritten : c.IsWritten chosen)
    (hname : chosen name = true) (hp : (name, p) ∈ assembled c.inputs)
    (hsupplies : c.Supplies p dependencies) (h : c.Builds name l)
    (h' : (c.prebuilt chosen).Builds name l) : p.FindsAlike c.options dependencies := by
  obtain ⟨hother, f, ledger, hledger, hf, hfile, hunresolved⟩ := hwritten.source hname hp
  have hfinish := h.finishes_of_supplies hc hp hsupplies
  rcases h'.linked with ⟨_, rfl⟩ |
    ⟨p', q, dependencies', _, hlink, hfinish', input, hinput, hassembled, hne, _⟩
  · obtain ⟨_, _, hne, _⟩ := mem_assembled.mp hp
    exact absurd rfl hne
  · have hc' := isAccepted_prebuilt hc chosen
    have hp' : (name, p') ∈ assembled (c.prebuilt chosen).inputs :=
      mem_assembled.mpr ⟨input, (mem_inputs_iff hc').mp hinput, hne, hassembled⟩
    obtain rfl := assembled_unique hc' hp' (assembled_prebuilt hname hp)
    obtain rfl : dependencies' = dependencies :=
      (congrArg LinkedFile.dependencies hlink).symm.trans (h.dependencies_eq hc hp hsupplies)
    exact PendingFile.findsAlike_of_finishes hledger hf hfile hunresolved hother hfinish
      (hfinish'.of_options rfl)

end Returned

end Compiler

/-- Texts and the descriptors assembled from them. Where the descriptors are given in place of the
texts, under any names, a compiler returns the same files or fails alike, if in each of these files
whose imports are built canonical form finds for every reference that is left over what the
reference denotes (or misses a name where a reference denotes nothing). If all these files are
built, it returns the same only then. -/
theorem prebuilt_inputs_agree {c : Compiler} (hc : c.IsAccepted) {chosen : String → Bool}
    (hwritten : c.IsWritten chosen) :
    (c.prebuilt chosen).IsAccepted ∧
    (c.ReadsAlike chosen → ∀ before, ∃ outcome after after', c.build before = ended outcome after ∧
      (c.prebuilt chosen).build before = ended outcome after') ∧
    ∀ set before after, c.build before = .ok set after →
      (∀ x ∈ c.inputs, chosen x.1 = true → set.contains x.1 = true) →
      ((∃ after', (c.prebuilt chosen).build before = .ok set after') ↔ c.ReadsAlike chosen) := by
  have hsame (halike : c.ReadsAlike chosen) (before : Log) : ∃ outcome after after',
      c.build before = ended outcome after ∧ (c.prebuilt chosen).build before =
          ended outcome after' := by
    rcases Compiler.build_prebuilt hwritten halike hc before before with
      ⟨set, _, after, after', hfirst, hsecond, rfl⟩ | ⟨e, after, after', hfirst, hsecond⟩
    · exact ⟨.ok set, after, after', hfirst, hsecond⟩
    · exact ⟨.error e, after, after', hfirst, hsecond⟩
  refine ⟨Compiler.isAccepted_prebuilt hc chosen, hsame, ?_⟩
  intro set before after hbuild hreturned
  constructor
  · rintro ⟨after', hbuild'⟩ name p dependencies hname hp hsupplies
    obtain ⟨input, hinput, _, _⟩ := Compiler.mem_assembled.mp hp
    obtain ⟨l, hl⟩ := Option.isSome_iff_exists.mp (hreturned _ hinput hname)
    have hmem := FileSet.mem_of_get? hl
    exact Or.inl (Compiler.findsAlike_of_builds hc hwritten hname hp hsupplies
      (Compiler.builds_of_build hc hbuild hmem)
      (Compiler.builds_of_build (Compiler.isAccepted_prebuilt hc chosen) hbuild' hmem))
  · intro halike
    obtain ⟨outcome, _, after', hfirst, hsecond⟩ := hsame halike before
    rw [hbuild] at hfirst
    cases outcome with
    | error e => cases hfirst
    | ok set' =>
      cases hfirst
      exact ⟨after', hsecond⟩

namespace Dotted

def compiler : Compiler := .ofTexts {} [
  ("dep.proto", "message T {}"),
  ("main.proto", "import \"dep.proto\"; message M { optional .T f = 1; }")]

def types (l : LinkedFile) : List (Option FieldType) := l.proto.allFields.map (·.2.type?)

set_option maxRecDepth 100000 in
/-- The descriptor is built, but its field has no type. -/
theorem type_left_unknown : ∃ set set' after after' l l', compiler.build .empty = .ok set after ∧
    (compiler.prebuilt (· == "main.proto")).build .empty = .ok set' after' ∧
    ("main.proto", l) ∈ set.files ∧ ("main.proto", l') ∈ set'.files ∧
    types l = [some .message] ∧ types l' = [none] := by
  have hcheck :
      ((compiler.returned? "main.proto").any fun l => types l == [some .message]) = true := by
    decide +kernel
  have hcheck' : (((compiler.prebuilt (· == "main.proto")).returned? "main.proto").any fun l =>
      types l == [none]) = true := by decide +kernel
  obtain ⟨l, hl, htypes⟩ := (Option.any_eq_true _ _).mp hcheck
  obtain ⟨l', hl', htypes'⟩ := (Option.any_eq_true _ _).mp hcheck'
  obtain ⟨set, after, hbuild, hmem⟩ := Compiler.mem_of_returned? hl
  obtain ⟨set', after', hbuild', hmem'⟩ := Compiler.mem_of_returned? hl'
  exact ⟨set, set', after, after', l, l', hbuild, hbuild', hmem, hmem', eq_of_beq htypes,
    eq_of_beq htypes'⟩

end Dotted

namespace Relative

/-- Names of all four kinds that are left to another file. Those of the types of fields are
relative. -/
def text : String :=
  "import \"dep.proto\"; message M { optional T t = 1; map<string, E> es = 2; }
  extend .T { optional T u = 9; } service S { rpc Call (T) returns (.T); }"

def compiler : Compiler := .ofTexts {} [
  ("dep.proto", "message T { extensions 9; } enum E { A = 0; }"), ("main.proto", text)]

def chosen (name : String) : Bool := name == "main.proto"

theorem isAccepted : compiler.IsAccepted := isAccepted_ofTexts {} (by decide)

set_option maxRecDepth 100000 in
theorem exists_built : ∃ l p, compiler.returned? "main.proto" = some l ∧
    (SchemaInput.source text).assembled? "main.proto" = some p ∧ p.file.isAddressable = true ∧
    p.FindsAlike {} l.dependencies := by
  have hcheck : ((compiler.returned? "main.proto").any fun l =>
      ((SchemaInput.source text).assembled? "main.proto").any fun p =>
        p.file.isAddressable && decide (p.FindsAlike {} l.dependencies)) = true := by decide +kernel
  obtain ⟨l, hl, hcheck⟩ := (Option.any_eq_true _ _).mp hcheck
  obtain ⟨p, hp, hcheck⟩ := (Option.any_eq_true _ _).mp hcheck
  obtain ⟨haddressable, hfinds⟩ := Bool.and_eq_true_iff.mp hcheck
  exact ⟨l, p, hl, hp, haddressable, of_decide_eq_true hfinds⟩

theorem isWritten : compiler.IsWritten chosen := by
  obtain ⟨_, p, _, hp, haddressable, _⟩ := exists_built
  intro x hx hchosen
  simp only [compiler, ofTexts, map_cons, map_nil, mem_cons, not_mem_nil, or_false] at hx
  rcases hx with rfl | rfl
  · cases hchosen
  · exact ⟨text, p, rfl, hp, haddressable⟩

theorem readsAlike : compiler.ReadsAlike chosen := by
  obtain ⟨l, p, hl, hassembled, _, hfinds⟩ := exists_built
  obtain ⟨set, after, hbuild, hmem⟩ := mem_of_returned? hl
  have hmain : ("main.proto", p) ∈ assembled compiler.inputs :=
    mem_assembled.mpr ⟨.source text, by simp [compiler, ofTexts], by decide, hassembled⟩
  intro name p' dependencies hname hp hsupplies
  obtain rfl : name = "main.proto" := eq_of_beq hname
  obtain rfl := assembled_unique isAccepted hp hmain
  have hbuilds := builds_of_build isAccepted hbuild hmem
  rw [hbuilds.dependencies_eq isAccepted hp hsupplies] at hfinds
  exact .inl hfinds

theorem prebuilt_inputs_agree_relative : compiler.IsAccepted ∧ compiler.IsWritten chosen ∧
    compiler.ReadsAlike chosen ∧ ∃ set after after', compiler.build .empty = .ok set after ∧
      (compiler.prebuilt chosen).build .empty = .ok set after' ∧
      set.contains "main.proto" = true := by
  obtain ⟨l, _, hl, _⟩ := exists_built
  obtain ⟨set, after, hbuild, _⟩ := Compiler.mem_of_returned? hl
  have hmain : set.contains "main.proto" = true := by
    rw [Compiler.returned?, hbuild] at hl
    exact Option.isSome_of_eq_some hl
  have hall : ∀ x ∈ compiler.inputs, chosen x.1 = true → set.contains x.1 = true := by
    intro x _ hname
    rwa [eq_of_beq hname]
  obtain ⟨_, _, hreturned⟩ := prebuilt_inputs_agree isAccepted isWritten
  obtain ⟨after', hbuild'⟩ := (hreturned set .empty after hbuild hall).mpr readsAlike
  exact ⟨isAccepted, isWritten, readsAlike, set, after, after', hbuild, hbuild', hmain⟩

end Relative

end ProtobufSchema

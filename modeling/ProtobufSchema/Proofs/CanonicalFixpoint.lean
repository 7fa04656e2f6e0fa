import ProtobufSchema.Proofs.InterpretedOptions
import ProtobufSchema.Proofs.Traversals

/-! Canonical form is reached in one step: a second run finds nothing to change, and reports the
names that denote nothing once more. -/

namespace ProtobufSchema

open List FileDescriptor

variable (f : FileDescriptor) (scope : String)

section Slots

theorem OptionsKind.slot_snd (kind : OptionsKind) (o? : Option Options) :
    (kind.slot o?).map Prod.snd = o?.toList := by
  cases o? <;> rfl

theorem EnumDescriptor.slots_snd (e : EnumDescriptor) : e.slots.map Prod.snd = e.optionsList := by
  simp [slots, optionsList, EnumValueDescriptor.slots, map_flatMap, OptionsKind.slot_snd]

theorem ServiceDescriptor.optionsList_snd (s : ServiceDescriptor) :
    (s.optionsList scope).map Prod.snd = s.slots.map Prod.snd := by
  simp [slots, optionsList, MethodDescriptor.slots, map_flatMap, OptionsKind.slot_snd]

theorem MessageDescriptor.optionsWithin_snd (m : MessageDescriptor) :
    (m.optionsWithin scope).map Prod.snd = m.slots.map Prod.snd := by
  induction m using nesting generalizing scope with
  | _ _ nested ih =>
    have hnested (inner : String) :
        (nested.flatMap (optionsWithin inner)).map Prod.snd =
            (nested.flatMap slots).map Prod.snd := by
      rw [map_flatMap, map_flatMap]
      exact flatMap_congr fun x hx => ih x hx inner
    simp [optionsWithin, slots, nestedOptionsWithin_eq, nestedSlots_eq, hnested,
      FieldDescriptor.slots, OneofDescriptor.slots, ExtensionRange.slots, map_flatMap,
      EnumDescriptor.slots_snd, OptionsKind.slot_snd]

theorem FileDescriptor.allOptions_snd : f.allOptions.map Prod.snd = f.slots.map Prod.snd := by
  simp [allOptions, slots, MessageDescriptor.nestedOptionsWithin_eq,
    MessageDescriptor.nestedSlots_eq, FieldDescriptor.slots, map_flatMap,
    MessageDescriptor.optionsWithin_snd, EnumDescriptor.slots_snd,
    ServiceDescriptor.optionsList_snd, OptionsKind.slot_snd]

theorem FileDescriptor.exists_slot {f : FileDescriptor} {x : String × Options}
    (hx : x ∈ f.allOptions) : ∃ s ∈ f.slots, s.2 = x.2 := by
  refine mem_map.mp ?_
  rw [← allOptions_snd]
  exact mem_map_of_mem hx

end Slots

instance : Logged OptionState := ⟨fun s log => { s with log := log }⟩

namespace OptionResolver

variable {r : OptionResolver} {scope : String}
variable {o' o : Options} (type : MessageDescriptor)

def IsNameReport (r : OptionResolver) (d : Diagnostic) : Prop :=
  d.file? = some r.file ∧ d.cause? = some .unresolvedOptionName

theorem interpretOne_reports (raw : RawOption) :
    Reports r.IsNameReport (r.interpretOne type scope raw) := by
  apply Reports.get_bind
  · intro s log
    rfl
  · intro s
    dsimp only
    split
    · apply Reports.bind
      · exact .modify_report (fun _ => ⟨rfl, rfl⟩) fun _ _ => rfl
      · intro _
        exact .pure none
    · split
      · exact .throw _
      · apply Reports.bind
        · exact .modify fun _ _ => rfl
        · intro _
          exact .pure _

theorem interpretEach_reports (raws : List RawOption) :
    Reports r.IsNameReport (r.interpretEach type scope raws) := by
  induction raws with
  | nil => exact .pure _
  | cons raw more ih =>
    apply (interpretOne_reports type raw).bind
    intro path?
    apply ih.bind
    intro outcome
    exact .pure _

theorem reread_reports (extended : Bool) : Reports r.IsNameReport (r.reread extended) := by
  cases extended with
  | false => exact .pure ()
  | true =>
    apply Reports.get_bind
    · intro s log
      rfl
    · intro s
      split
      · exact .throw _
      · exact .modify fun _ _ => rfl

theorem interpretAll_reports (r : OptionResolver) (scope : String) :
    Reports r.IsNameReport (r.interpretAll scope) := by
  apply Reports.get_bind
  · intro s log
    rfl
  · intro s
    dsimp only
    split
    · exact .pure false
    · split
      · exact .throw _
      · apply Reports.bind
        · exact .modify fun _ _ => rfl
        · intro _
          apply (interpretEach_reports _ _).bind
          intro flags
          exact (reread_reports flags.2).bind fun _ => .pure _

theorem interpretOptions_reports (r : OptionResolver) (scope : String) (o : Options) :
    Reports r.IsNameReport (r.interpretOptions scope o) := by
  obtain ⟨outcome, s, ds, hds, hrun⟩ := interpretAll_reports r scope ⟨o, .empty⟩
  cases outcome with
  | ok stored =>
    refine .of_run (r := .ok s.options) hds fun log => ?_
    have hall : r.interpretAll scope ⟨o, log⟩ = _ := hrun log
    rw [interpretOptions, hall]
    rfl
  | error e =>
    refine .of_run (r := .error e) hds fun log => ?_
    have hall : r.interpretAll scope ⟨o, log⟩ = _ := hrun log
    rw [interpretOptions, hall]
    rfl

theorem reserialize_uninterpreted (h : r.reserialize o = .ok o') :
    o'.uninterpreted = o.uninterpreted := by
  unfold reserialize at h
  split at h
  · cases h
  · dsimp only at h
    split at h
    · cases h
    · cases h
      rfl

theorem interpretOptions_uninterpreted {log log' : Log}
    (h : r.interpretOptions scope o log = .ok o' log') : o'.uninterpreted = [] := by
  unfold interpretOptions at h
  split at h
  · rename_i stored s hall
    cases h
    rcases interpretAll_cases hall with ⟨hsame, hnone⟩ | ⟨type, extended, t, _, heach, hcases⟩
    · rw [hsame, hnone]
    · obtain ⟨_, hnone, _⟩ := interpretEach_keeps (P := fun _ => True) heach (by simp)
      rcases hcases with ⟨_, hsame⟩ | ⟨_, hread⟩
      · rw [hsame, hnone]
      · rw [reserialize_uninterpreted hread, hnone]
  · cases h

end OptionResolver

theorem FileDescriptor.isQualified_bare : f.bare.isQualified = f.isQualified := by
  rw [Bool.eq_iff_iff, isQualified_iff, isQualified_iff, allFields_mapOptions,
    allMethods_mapOptions, forall_mem_map, forall_mem_map]
  rfl

namespace Canonicalizer

variable {c : Canonicalizer} {p q : FileDescriptor} {log log' : Log}

/-- A file that differs from another in its options only, which are those there, interpreted. -/
abbrev Interprets (c : Canonicalizer) (f f' : FileDescriptor) : Prop :=
  Revises (fun scope o o' => ∃ before after, (c.resolver f).interpretOptions scope o before =
    .ok o' after) FileDescriptor.slots FileDescriptor.allOptions FileDescriptor.bare f f'

theorem interpretOptions_answers (c : Canonicalizer) (f : FileDescriptor) :
    Delivers (c.resolver f).IsNameReport (c.Interprets f) (c.interpretOptions f) := by
  unfold interpretOptions
  cases hleft : f.hasLeftovers false with
  | true => exact traverseOptions_answers (fun scope o =>
      ⟨(c.resolver f).interpretOptions_reports scope o, fun hrun => ⟨_, _, hrun⟩⟩) f
  | false =>
    -- No assignment waits anywhere, so each visit would leave its options as they are.
    have hnone (scope : String) : ∀ o ∈ f.allOptions.map Prod.snd, ∃ before after,
        (c.resolver f).interpretOptions scope o before = .ok o after := by
      intro o ho
      obtain ⟨x, hx, rfl⟩ := mem_map.mp ho
      rw [OptionResolver.interpretOptions_eq_pure (hasLeftovers_iff.mp hleft x hx)]
      exact ⟨.empty, .empty, rfl⟩
    refine .pure ⟨rfl, forall₂_same.mpr fun s hs => ⟨rfl, "", hnone _ _ ?_⟩,
      forall₂_same.mpr fun x hx => ⟨rfl, hnone _ _ (mem_map_of_mem hx)⟩⟩
    rw [f.allOptions_snd]
    exact mem_map_of_mem hs

theorem canonicalize_reports (c : Canonicalizer) (p : FileDescriptor) :
    ∃ (outcome : Except BuildError FileDescriptor) (ds : List Diagnostic),
      (∀ d ∈ ds, d.file? = some p.name ∧ d.cause? = some .unresolvedOptionName) ∧
      ∀ log, c.canonicalize p log = ended outcome (log.extend (c.missingNames p ++ ds)) := by
  have hdefaults (f : FileDescriptor) : Reports (c.resolver (c.qualified p)).IsNameReport
      (if c.options.normalizeDefaults then ofExcept (normalizeDefaults f) else return f :
        Reporting BuildError FileDescriptor) := by
    split
    · cases normalizeDefaults f with
      | ok q => exact .pure q
      | error e => exact .throw e
    · exact .pure f
  have hrest := (c.interpretOptions_answers (c.qualified p)).reports.bind hdefaults
  obtain ⟨outcome, ds, hds, hrun⟩ := hrest.run
  refine ⟨outcome, ds, hds, ?_⟩
  intro log
  rw [canonicalize_steps, qualifyNames_eq, ← Log.extend_extend]
  exact hrun (log.extend (c.missingNames p))

theorem normalizeDefaults_ok {f : FileDescriptor}
    (h : (ofExcept (normalizeDefaults f) : Reporting BuildError FileDescriptor) log = .ok q log') :
    (∀ x ∈ f.allFields, x.2.overflows = []) ∧ q = f.mapFields fun _ x => x.normalized := by
  rw [normalizeDefaults_eq] at h
  cases hes : f.allFields.flatMap fun x => x.2.overflows with
  | nil =>
    rw [hes] at h
    cases h
    exact ⟨flatMap_eq_nil_iff.mp hes, rfl⟩
  | cons e es =>
    rw [hes] at h
    cases h

/-- A file is brought into canonical form by interpreting the options of the qualified file, where
all else stays, and then writing default values in their usual form if that is asked for. -/
theorem canonicalize_cases (h : c.canonicalize p log = .ok q log') :
    ∃ file, c.Interprets (c.qualified p) file ∧
      (q = file ∨ q = file.mapFields fun _ x => x.normalized) := by
  rw [canonicalize_steps, qualifyNames_eq] at h
  obtain ⟨file, _, hrun, hq⟩ := bind_ok h
  refine ⟨file, (c.interpretOptions_answers _).holds hrun, ?_⟩
  split at hq
  · exact .inr (normalizeDefaults_ok hq).2
  · cases hq
    exact .inl rfl

variable (hdefaults : c.options.normalizeDefaults = false)
include hdefaults

theorem canonicalize_interprets (h : c.canonicalize p log = .ok q log') :
    c.Interprets (c.qualified p) q := by
  rw [canonicalize_eq hdefaults, qualifyNames_eq] at h
  exact (c.interpretOptions_answers _).holds h

theorem canonicalize_done (h : c.canonicalize p log = .ok q log') :
    q.bare = (c.qualified p).bare ∧ ∀ x ∈ q.allOptions, x.2.uninterpreted = [] := by
  have hinterprets := canonicalize_interprets hdefaults h
  refine ⟨hinterprets.bare_eq, ?_⟩
  intro x hx
  obtain ⟨_, _, _, _, _, hrun⟩ := exists_of_forall₂ hinterprets.within hx
  exact OptionResolver.interpretOptions_uninterpreted hrun

theorem canonicalize_of_interpreted
    (hnone : ∀ x ∈ q.allOptions, x.2.uninterpreted = []) {ds : List Diagnostic}
    (hnames : c.qualifyNames q = reporting ds q) (log : Log) :
    c.canonicalize q log = .ok q (log.extend ds) := by
  rw [canonicalize_eq hdefaults, hnames]
  have hoptions : c.interpretOptions q = pure q := by
    rw [interpretOptions, hasLeftovers_iff.mpr hnone]
    rfl
  simp only [reporting, hoptions]
  rfl

theorem canonicalize_of_isCanonical
    (h : p.isCanonical { c.options with typedExtensions := false } = true) (log : Log) :
    c.canonicalize p log = .ok p log := by
  obtain ⟨hqualified, hleft⟩ := Bool.and_eq_true_iff.mp h
  have hnone := hasLeftovers_iff.mp (by simpa using hleft)
  have hnames := qualifyNames_of_isQualified (c := c) hqualified
  rw [pure_eq_reporting] at hnames
  simpa using canonicalize_of_interpreted hdefaults hnone hnames log

theorem canonicalize_again {before after : Log} (h : c.canonicalize p before = .ok q after) :
    ∃ reported, after = before.extend reported ∧ ∀ log, c.canonicalize q log =
        .ok q (log.extend (reported.filter (·.cause? == some .unresolvedTypeName))) := by
  obtain ⟨outcome, ds, hds, hrun⟩ := c.canonicalize_reports p
  obtain ⟨hbare, hnone⟩ := canonicalize_done hdefaults h
  rw [hrun] at h
  cases outcome with
  | error e => cases h
  | ok q' =>
    cases h
    refine ⟨c.missingNames p ++ ds, rfl, ?_⟩
    have hsame : (c.missingNames p ++ ds).filter (·.cause? == some .unresolvedTypeName) =
        c.missingNames p := by
      rw [filter_append, filter_eq_self.mpr, filter_eq_nil_iff.mpr, append_nil]
      · intro d hd
        rw [(hds d hd).2]
        decide
      · intro d hd
        rw [(c.mem_missingNames p hd).2]
        decide
    rw [hsame]
    exact canonicalize_of_interpreted hdefaults hnone (qualifyNames_again hbare)

omit hdefaults in
theorem missingNames_of_quiet (h : c.canonicalize p log = .ok q log) : c.missingNames p = [] := by
  obtain ⟨outcome, ds, _, hrun⟩ := c.canonicalize_reports p
  rw [hrun] at h
  cases outcome with
  | error e => cases h
  | ok q' =>
    have hlog : log.extend (c.missingNames p ++ ds) = log.extend [] := by
      rw [Log.extend_nil]
      injection h
    exact (append_eq_nil_iff.mp (log.extend_injective hlog)).1

theorem isCanonical_of_canonicalize (h : c.canonicalize p log = .ok p log) :
    p.isCanonical { c.options with typedExtensions := false } = true := by
  obtain ⟨hbare, hnone⟩ := canonicalize_done hdefaults h
  have hqualified := isQualified_qualified (missingNames_of_quiet h)
  rw [← isQualified_bare, ← hbare, isQualified_bare] at hqualified
  have hleft := hasLeftovers_iff.mpr hnone
  rw [isCanonical, hqualified, hleft]
  rfl

end Canonicalizer

/-- Canonical form is reached in one step: a second run leaves the file, and reports those of the
first run's diagnostics that are about names of types, and no others. A file is left as it is
without a report exactly if it is in canonical form, bytes that nobody explains allowed. -/
theorem canonicalize_idempotent {c : Canonicalizer}
    (hdefaults : c.options.normalizeDefaults = false) (p : FileDescriptor) :
    (∀ q before after, c.canonicalize p before = .ok q after →
      ∃ reported, after = before.extend reported ∧
        ∀ log, c.canonicalize q log =
          .ok q (log.extend (reported.filter (·.cause? == some .unresolvedTypeName)))) ∧
    ∀ log, c.canonicalize p log = .ok p log ↔
      p.isCanonical { c.options with typedExtensions := false } = true := by
  constructor
  · intro q before after h
    exact Canonicalizer.canonicalize_again hdefaults h
  · intro log
    constructor
    · exact Canonicalizer.isCanonical_of_canonicalize hdefaults
    · intro h
      exact Canonicalizer.canonicalize_of_isCanonical hdefaults h log

/-- A file whose message has a field of its own type and one of a type that nobody defines. -/
def FileDescriptor.dangling (type? : Option FieldType) (own : String) (raws : List RawOption) :
    FileDescriptor where
  name? := some "a.proto"
  messageTypes := [{
    name? := some "M"
    fields := [{ name? := some "a", number? := some 1, type? := type?, typeName? := some own },
      { name? := some "b", number? := some 2, typeName? := some "N" }]
    options := some { Options.empty .message with uninterpreted := raws } }]

def danglingOption : RawOption := { name := [⟨"nope", false⟩], positiveInt := some 1 }

def danglingTypeName : Diagnostic where
  file? := some "a.proto"
  message := "type \"N\" is not defined (referenced from \"M\")"
  cause? := some .unresolvedTypeName

def danglingOptionName : Diagnostic where
  file? := some "a.proto"
  message := "option \"nope\" unknown in \"google.protobuf.MessageOptions\""
  cause? := some .unresolvedOptionName

set_option maxRecDepth 10000 in
theorem canonicalize_idempotent_dangling :
    (Canonicalizer.ofDependencies [] {}).canonicalize (.dangling none "M" [danglingOption]) .empty =
      .ok (.dangling (some .message) ".M" []) ⟨[danglingTypeName, danglingOptionName]⟩ ∧
    ∀ log,
      (Canonicalizer.ofDependencies [] {}).canonicalize (.dangling (some .message) ".M" []) log =
      .ok (.dangling (some .message) ".M" []) (log.extend [danglingTypeName]) := by
  have hfirst :
      (Canonicalizer.ofDependencies [] {}).canonicalize (.dangling none "M" [danglingOption])
      .empty =
          .ok (.dangling (some .message) ".M" []) ⟨[danglingTypeName, danglingOptionName]⟩ := by
    rw [Canonicalizer.canonicalize_eq rfl, Canonicalizer.qualifyNames_eq]
    rfl
  obtain ⟨reported, hlog, hagain⟩ := (canonicalize_idempotent rfl _).1 _ _ _ hfirst
  have hreported : reported = [danglingTypeName, danglingOptionName] :=
    Log.extend_injective .empty hlog.symm
  subst hreported
  exact ⟨hfirst, hagain⟩

end ProtobufSchema

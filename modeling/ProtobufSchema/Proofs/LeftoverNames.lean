import ProtobufSchema.Proofs.TypeSites

/-! Names left over when a file is assembled, where nobody remembers that they are references:
canonical form completes each from the scope of its place, or the file is another one. -/

namespace ProtobufSchema

open List FileDescriptor Name Pool Placed

variable {x : String × SymbolKind} {m : Mention}

theorem ReferenceKind.accepts_of_ne {k : ReferenceKind} (hk : k ≠ .fieldType) :
    k.accepts = (· == .message) := by
  cases k with
  | fieldType => exact absurd rfl hk
  | extendee | methodInput | methodOutput => rfl

theorem SymbolKind.eq_of_isType {k k' : SymbolKind} (hk : k.isType = true)
    (hk' : k'.isType = true)
    (h : (if k = .enum then FieldType.enum else .message) = if k' =
      .enum then .enum else .message) : k = k' := by
  cases k <;> cases k' <;> simp_all [isType]

theorem Name.relative?_of_absolute? {name : String} (h : absolute? name = none) :
    relative? (some name) = some name := by
  simp [relative?, isAbsolute, h]

theorem Name.qualify_injective {full full' : String} (h : qualify full = qualify full') :
    full = full' := by
  have habsolute := congrArg absolute? h
  rw [absolute?_qualify, absolute?_qualify] at habsolute
  exact Option.some.inj habsolute

namespace Mention

variable {p : Pool} {m : Mention} {site full : String} {x : String × SymbolKind}
variable {strict : Bool}

/-- What canonical form makes of a mention in a place. A name that is written out in full stays, and
does for anything but the type of a field, which is still not known. -/
def canonical? (p : Pool) (site : String) (m : Mention) : Option (String × SymbolKind) :=
  match Name.absolute? m.name with
  | some full => if m.kind = .fieldType then none else some (full, .message)
  | none => (p.resolve? m.name site).filter fun x => m.kind.accepts x.2

theorem canonical?_of_relative (h : absolute? m.name = none) :
    m.canonical? p site = p.qualified? (some m.name) site m.kind.accepts := by
  simp [canonical?, h, qualified?, relative?_of_absolute? h]

theorem accepts_of_canonical? (h : m.canonical? p site = some x) : m.kind.accepts x.2 = true := by
  unfold canonical? at h
  split at h
  · split at h
    · cases h
    · rename_i hkind
      cases h
      rw [ReferenceKind.accepts_of_ne hkind]
      rfl
  · exact (Option.filter_eq_some_iff.mp h).2

theorem seen?_of_absolute (hname : absolute? m.name = some full)
    (h : m.seen? p strict = some x) : x.1 = full := by
  unfold seen? at h
  split at h
  · rename_i found hfound
    simp only [resolveWith?, hname] at hfound
    obtain ⟨_, _, rfl⟩ := Option.map_eq_some_iff.mp hfound
    cases h
    rfl
  · obtain ⟨full', hfull, rfl⟩ := Option.map_eq_some_iff.mp h
    cases strict with
    | true => cases hfull
    | false => exact Option.some.inj (hfull.symm.trans hname)

theorem canonical?_of_seen? (hname : absolute? m.name = some full) (hkind : m.kind ≠ .fieldType)
    (h : m.seen? p strict = some x) : m.canonical? p site = some x := by
  have hmessage : x.2 = .message := ReferenceKind.eq_message_of_accepts hkind (seen?_eq_some h).1
  simp [canonical?, hname, hkind, ← seen?_of_absolute hname h, ← hmessage]

/-- Answers complete others: they keep them, and give what canonical form gives where there was
none. -/
def Completed (p : Pool) (site : String) (A B : Answering) (m : Mention) : Prop :=
  ∃ x, B m = some x ∧ (A m = some x ∨ A m = none ∧ m.canonical? p site = some x)

end Mention

namespace Pool

variable {p : Pool} {name? : Option String} {scope what : String} {accepts : SymbolKind → Bool}
  {x : String × SymbolKind}

theorem settled_of_qualified? (h : p.qualified? name? scope accepts = some x) :
    p.settled name? scope accepts = some (qualify x.1) := by
  simp [settled, h]

theorem missing_of_qualified? (h : p.qualified? name? scope accepts = some x) :
    p.missing name? scope what accepts = [] := by
  unfold missing
  split
  · rename_i hnone
    cases h.symm.trans hnone
  · rfl

theorem missing_eq_nil_iff (hname : absolute? m.name = none) :
    p.missing (some m.name) scope what m.kind.accepts = [] ↔
      ∃ x, m.canonical? p scope = some x ∧ p.settled (some m.name) scope m.kind.accepts =
        some (qualify x.1) := by
  rw [Mention.canonical?_of_relative hname]
  constructor
  · intro h
    cases hfound : p.qualified? (some m.name) scope m.kind.accepts with
    | none => simp [missing, relative?_of_absolute? hname, hfound] at h
    | some x => exact ⟨x, rfl, settled_of_qualified? hfound⟩
  · rintro ⟨x, hfound, _⟩
    exact missing_of_qualified? hfound

end Pool

namespace Placed

section Name

variable {p : Pool} {A B : Answering} {α : Type} {w : Placed α} {kind : ReferenceKind}
  {name? : Option String} {m : Mention}

def answeredName (w : Placed α) (kind : ReferenceKind) (name? : Option String) (A : Answering) :
    Option String :=
  (((w.mention? kind name?).bind A).map fun x => Name.qualify x.1).or name?

section

variable (hm : w.mention? kind name? = some m)
include hm

theorem answeredName_of_some
    (hx : A m = some x) : w.answeredName kind name? A = some (qualify x.1) := by
  simp [answeredName, hm, hx]

theorem answeredName_of_none (hx : A m = none) : w.answeredName kind name? A = some m.name := by
  obtain ⟨name, rfl, rfl⟩ := Option.map_eq_some_iff.mp hm
  simp [answeredName, hm, hx]

theorem kind_of_mention? : m.kind = kind := by
  obtain ⟨_, _, rfl⟩ := Option.map_eq_some_iff.mp hm
  rfl

theorem mention?_answeredName (hA : A m = none) :
    w.mention? kind (w.answeredName kind name? A) = some m := by
  rw [answeredName_of_none hm hA]
  obtain ⟨name, rfl, rfl⟩ := Option.map_eq_some_iff.mp hm
  rfl

end

theorem mention?_of_answeredName (hm : w.mention? kind (w.answeredName kind name? A) = some m)
    (hname : absolute? m.name = none) : w.mention? kind name? = some m ∧ A m = none := by
  cases hwritten : w.mention? kind name? with
  | none =>
    obtain rfl : name? = none := Option.map_eq_none_iff.mp hwritten
    cases hm
  | some m' =>
    cases hA : A m' with
    | none =>
      cases (mention?_answeredName hwritten hA).symm.trans hm
      exact ⟨rfl, hA⟩
    | some x =>
      rw [answeredName_of_some hwritten hA] at hm
      cases hm
      rw [absolute?_qualify] at hname
      cases hname

theorem settled_answeredName (hkind : kind ≠ .fieldType)
    (h : ∀ m ∈ w.mention? kind name?, m.Completed p w.scope A B) (what : String) :
    p.settled (w.answeredName kind name? A) w.scope (· == .message) = w.answeredName kind name? B ∧
      p.missing (w.answeredName kind name? A) w.scope what (· == .message) = [] := by
  cases hm : w.mention? kind name? with
  | none =>
    obtain rfl : name? = none := Option.map_eq_none_iff.mp hm
    exact ⟨rfl, rfl⟩
  | some m =>
    obtain ⟨x, hB, hA⟩ := h m hm
    have hstays (full : String) :
        p.settled (some (qualify full)) w.scope (· == .message) = some (qualify full) ∧
          p.missing (some (qualify full)) w.scope what (· == .message) = [] :=
      ⟨settled_of_absolute (relative?_qualify full), missing_of_absolute (relative?_qualify full)⟩
    rw [answeredName_of_some hm hB]
    rcases hA with hA | ⟨hA, hcanonical⟩
    · rw [answeredName_of_some hm hA]
      exact hstays x.1
    · obtain ⟨name, rfl, rfl⟩ := Option.map_eq_some_iff.mp hm
      rw [answeredName_of_none hm hA, ← ReferenceKind.accepts_of_ne hkind]
      cases hname : absolute? name with
      | some full =>
        simp only [Mention.canonical?, hname, hkind, if_false, Option.some.injEq] at hcanonical
        subst hcanonical
        rw [eq_qualify_of_absolute? hname, ReferenceKind.accepts_of_ne hkind]
        exact hstays full
      | none =>
        rw [Mention.canonical?_of_relative hname] at hcanonical
        exact ⟨settled_of_qualified? hcanonical, missing_of_qualified? hcanonical⟩

theorem canonical?_of_answeredName {what : String} (hkind : kind ≠ .fieldType)
    (hm : w.mention? kind name? = some m) (hname : absolute? m.name = none) (hA : A m = none)
    (hB : B m = some x) (haccepts : m.kind.accepts x.2 = true)
    (hmissing : p.missing (w.answeredName kind name? A) w.scope what (· == .message) = [])
    (h : p.settled (w.answeredName kind name? A) w.scope (· == .message) =
      w.answeredName kind name? B) : m.canonical? p w.scope = some x := by
  rw [answeredName_of_none hm hA] at hmissing h
  rw [answeredName_of_some hm hB] at h
  obtain ⟨name, rfl, rfl⟩ := Option.map_eq_some_iff.mp hm
  rw [← ReferenceKind.accepts_of_ne hkind] at hmissing h
  obtain ⟨y, hy, hsettled⟩ := (missing_eq_nil_iff hname).mp hmissing
  have hsame : y.1 = x.1 := qualify_injective (Option.some.inj (hsettled.symm.trans h))
  have hkinds : y.2 = x.2 :=
    (ReferenceKind.eq_message_of_accepts hkind (Mention.accepts_of_canonical? hy)).trans
      (ReferenceKind.eq_message_of_accepts hkind haccepts).symm
  rw [hy, Prod.ext hsame hkinds]

end Name

section Field

variable {p : Pool} {A B : Answering} {w : Placed FieldDescriptor} {m : Mention}

theorem mem_fieldMentions : m ∈ w.fieldMentions ↔
    w.mention? .fieldType w.value.waiting? = some m ∨
      w.mention? .extendee w.value.extendee? = some m := by
  rw [fieldMentions, mem_append, Option.mem_toList, Option.mem_toList]

section Waiting

variable {x : String × SymbolKind} (hm : w.mention? .fieldType w.value.waiting? = some m)
include hm

theorem typeName?_of_waiting :
    w.value.type? = none ∧ w.value.typeName? = some m.name ∧ m.kind = .fieldType := by
  obtain ⟨name, hname, rfl⟩ := Option.map_eq_some_iff.mp hm
  obtain ⟨htype, hname⟩ := FieldDescriptor.waiting?_eq_some hname
  exact ⟨htype, hname, rfl⟩

theorem answeredField_of_none (hA : A m = none) : w.answeredField A = { w.value with
    extendee? := w.answeredName .extendee w.value.extendee? A } := by
  unfold answeredField FieldDescriptor.answered
  rw [hm, Option.bind_some, hA]
  rfl

theorem answeredField_of_some (hA : A m = some x) :
    w.answeredField A = { w.value.withType x.1 x.2 with
    extendee? := w.answeredName .extendee w.value.extendee? A } := by
  unfold answeredField FieldDescriptor.answered
  rw [hm, Option.bind_some, hA]
  rfl

end Waiting

theorem qualifiedField_answeredField
    (hknown : w.value.type? ≠ none → relative? w.value.typeName? = none)
    (h : ∀ m ∈ w.fieldMentions, m.Completed p w.scope A B) :
    p.qualifiedField w.scope (w.answeredField A) = w.answeredField B ∧
      p.missingInField w.scope (w.answeredField A) = [] := by
  simp only [fieldMentions, forall_mem_append, Option.mem_toList] at h
  obtain ⟨htype, hextendee⟩ := h
  obtain ⟨hsettled, hquiet⟩ := settled_answeredName (by decide) hextendee "extendee"
  have hfield (C : Answering) : w.answeredField C =
      { ((w.mention? .fieldType w.value.waiting?).bind C).elim w.value
      fun x => w.value.withType x.1 x.2
        with extendee? := w.answeredName .extendee w.value.extendee? C } := rfl
  rw [hfield A, hfield B, qualifiedField, missingInField]
  rw [hsettled, hquiet, append_nil]
  cases hm : w.mention? .fieldType w.value.waiting? with
  | none =>
    have hrelative : relative? w.value.typeName? = none := by
      by_cases hnone : w.value.type? = none
      · have hname := Option.map_eq_none_iff.mp hm
        simp only [FieldDescriptor.waiting?, hnone, Option.isNone_none, if_true] at hname
        rw [hname]
        rfl
      · exact hknown hnone
    exact ⟨by rw [Option.bind_none, Option.elim_none, qualified?_of_absolute hrelative]; rfl,
      missing_of_absolute hrelative⟩
  | some m =>
    obtain ⟨x, hB, hA⟩ := htype m hm
    obtain ⟨_, hname, hkind⟩ := typeName?_of_waiting hm
    rw [Option.bind_some, Option.bind_some, hB]
    rcases hA with hA | ⟨hA, hcanonical⟩
    · rw [hA]
      have hrelative : relative? (w.value.withType x.1 x.2).typeName? = none :=
        relative?_qualify x.1
      exact ⟨by rw [Option.elim_some, qualified?_of_absolute hrelative]; rfl,
        missing_of_absolute hrelative⟩
    · rw [hA, Option.elim_none, hname]
      have hfound : p.qualified? (some m.name) w.scope SymbolKind.isType = some x := by
        cases habsolute : absolute? m.name with
        | some full => simp [Mention.canonical?, habsolute, hkind] at hcanonical
        | none =>
          rw [Mention.canonical?_of_relative habsolute, hkind] at hcanonical
          exact hcanonical
      rw [hfound]
      exact ⟨rfl, missing_of_qualified? hfound⟩

theorem mem_fieldMentions_answered (hm : m ∈ w.fieldMentions) (hA : A m = none) :
    m ∈ (w.put (w.answeredField A)).fieldMentions := by
  refine mem_fieldMentions.mpr
    ((mem_fieldMentions.mp hm).imp (fun hm => ?_) (mention?_answeredName · hA))
  simp only [answeredField_of_none hm hA]
  exact hm

theorem mem_fieldMentions_of_answered (hm : m ∈ (w.put (w.answeredField A)).fieldMentions)
    (hname : absolute? m.name = none ∨ m.kind = .fieldType) : m ∈ w.fieldMentions ∧ A m = none := by
  rcases mem_fieldMentions.mp hm with hm | hm
  · have hm : w.mention? .fieldType (w.answeredField A).waiting? = some m := hm
    cases hwritten : w.mention? .fieldType w.value.waiting? with
    | none =>
      have hsame : (w.answeredField A).waiting? = w.value.waiting? := by
        unfold answeredField FieldDescriptor.answered
        rw [hwritten]
        rfl
      rw [hsame, hwritten] at hm
      cases hm
    | some m' =>
      cases hA : A m' with
      | none =>
        rw [answeredField_of_none hwritten hA] at hm
        cases hwritten.symm.trans hm
        exact ⟨mem_fieldMentions.mpr (.inl hwritten), hA⟩
      | some x =>
        rw [answeredField_of_some hwritten hA] at hm
        simp [FieldDescriptor.waiting?, FieldDescriptor.withType, (typeName?_of_waiting hwritten).1,
          mention?] at hm
  · obtain ⟨hm, hA⟩ :=
      mention?_of_answeredName hm (hname.resolve_right (by simp [kind_of_mention? hm]))
    exact ⟨mem_fieldMentions.mpr (.inr hm), hA⟩

theorem canonical?_of_qualifiedField (hm : m ∈ w.fieldMentions)
    (hname : absolute? m.name = none ∨ m.kind = .fieldType) (hA : A m = none) (hB : B m = some x)
    (haccepts : m.kind.accepts x.2 = true)
    (hmissing : p.missingInField w.scope (w.answeredField A) = [])
    (h : (p.qualifiedField w.scope (w.answeredField A)).use = (w.answeredField B).use) :
    m.canonical? p w.scope = some x := by
  obtain ⟨htyped, hextended⟩ := append_eq_nil_iff.mp hmissing
  simp only [FieldDescriptor.use, Use.field.injEq] at h
  obtain ⟨htype, htypeName, hextendee⟩ := h
  rcases mem_fieldMentions.mp hm with hm | hm
  · obtain ⟨hnone, hwritten, hkind⟩ := typeName?_of_waiting hm
    have hbefore := answeredField_of_none hm hA
    have hafter := answeredField_of_some hm hB
    rw [qualifiedField_typeName?] at htypeName
    rw [hbefore, qualifiedField, hafter] at htype
    rw [hbefore] at htyped htypeName
    rw [hafter] at htypeName
    simp only [hwritten, FieldDescriptor.withType, hnone] at htyped htype htypeName
    cases habsolute : absolute? m.name with
    | some full =>
      -- The type of the field stays unknown then.
      have hrelative : relative? (some m.name) = none := by simp [relative?, isAbsolute, habsolute]
      rw [qualified?_of_absolute hrelative] at htype
      cases htype
    | none =>
      have haccept : m.kind.accepts = SymbolKind.isType := by
        rw [hkind]
        rfl
      rw [← haccept] at htyped htypeName htype
      obtain ⟨y, hy, hsettled⟩ := (missing_eq_nil_iff habsolute).mp htyped
      have hsame : y.1 = x.1 := qualify_injective (Option.some.inj (hsettled.symm.trans htypeName))
      have hyAccepts := Mention.accepts_of_canonical? hy
      rw [haccept] at haccepts hyAccepts
      rw [← Mention.canonical?_of_relative habsolute, hy] at htype
      have hkinds : y.2 = x.2 := SymbolKind.eq_of_isType hyAccepts haccepts (Option.some.inj htype)
      rw [hy, Prod.ext hsame hkinds]
  · have habsolute := hname.resolve_right (by simp [kind_of_mention? hm])
    exact canonical?_of_answeredName (by decide) hm habsolute hA hB haccepts hextended hextendee

end Field

section Method

variable {p : Pool} {A B : Answering} {w : Placed MethodDescriptor} {m : Mention}

theorem qualifiedMethod_answeredMethod (h : ∀ m ∈ w.methodMentions, m.Completed p w.scope A B) :
    p.qualifiedMethod w.scope (w.answeredMethod A) = w.answeredMethod B ∧
      p.missingInMethod w.scope (w.answeredMethod A) = [] := by
  simp only [methodMentions, forall_mem_append, Option.mem_toList] at h
  obtain ⟨hinput, hinputQuiet⟩ := settled_answeredName (by decide) h.1 "message type"
  obtain ⟨houtput, houtputQuiet⟩ := settled_answeredName (by decide) h.2 "message type"
  have hmethod (C : Answering) : w.answeredMethod C = { w.value with
      inputType? := w.answeredName .methodInput w.value.inputType? C
      outputType? := w.answeredName .methodOutput w.value.outputType? C } := rfl
  rw [hmethod A, qualifiedMethod, missingInMethod]
  rw [hinput, houtput, hinputQuiet, houtputQuiet]
  exact ⟨rfl, rfl⟩

theorem mem_methodMentions :
    m ∈ w.methodMentions ↔ w.mention? .methodInput w.value.inputType? = some m ∨
      w.mention? .methodOutput w.value.outputType? = some m := by
  rw [methodMentions, mem_append, Option.mem_toList, Option.mem_toList]

theorem kind_of_mem_methodMentions (hm : m ∈ w.methodMentions) : m.kind ≠ .fieldType := by
  rcases mem_methodMentions.mp hm with hm | hm <;> simp [kind_of_mention? hm]

theorem mem_methodMentions_answered (hm : m ∈ w.methodMentions) (hA : A m = none) :
    m ∈ (w.put (w.answeredMethod A)).methodMentions :=
  mem_methodMentions.mpr
    ((mem_methodMentions.mp hm).imp (mention?_answeredName · hA) (mention?_answeredName · hA))

theorem mem_methodMentions_of_answered (hm : m ∈ (w.put (w.answeredMethod A)).methodMentions)
    (hname : absolute? m.name = none) : m ∈ w.methodMentions ∧ A m = none := by
  rw [mem_methodMentions]
  rcases mem_methodMentions.mp hm with hm | hm
  · exact (mention?_of_answeredName hm hname).imp_left .inl
  · exact (mention?_of_answeredName hm hname).imp_left .inr

theorem canonical?_of_qualifiedMethod (hm : m ∈ w.methodMentions) (hname : absolute? m.name = none)
    (hA : A m = none) (hB : B m = some x) (haccepts : m.kind.accepts x.2 = true)
    (hmissing : p.missingInMethod w.scope (w.answeredMethod A) = [])
    (h : (p.qualifiedMethod w.scope (w.answeredMethod A)).use = (w.answeredMethod B).use) :
    m.canonical? p w.scope = some x := by
  obtain ⟨hinputQuiet, houtputQuiet⟩ := append_eq_nil_iff.mp hmissing
  simp only [MethodDescriptor.use, Use.method.injEq] at h
  rcases mem_methodMentions.mp hm with hm | hm
  · exact canonical?_of_answeredName (by decide) hm hname hA hB haccepts hinputQuiet h.1
  · exact canonical?_of_answeredName (by decide) hm hname hA hB haccepts houtputQuiet h.2

end Method

end Placed

namespace FileDescriptor

/-- The names of types that a file mentions, each with the scope of the place where it stands. -/
def standing (f : FileDescriptor) : List (String × Mention) :=
  (f.placedFields.flatMap fun w => w.fieldMentions.map (w.scope, ·)) ++
    f.placedMethods.flatMap fun w => w.methodMentions.map (w.scope, ·)

variable {f : FileDescriptor} {A : Answering} {site : String} {m : Mention}

theorem mem_standing :
    (site, m) ∈ f.standing ↔ (∃ w ∈ f.placedFields, w.scope = site ∧ m ∈ w.fieldMentions) ∨
      ∃ w ∈ f.placedMethods, w.scope = site ∧ m ∈ w.methodMentions := by
  simp only [standing, mem_append, mem_flatMap, mem_map, Prod.mk.injEq]
  constructor
  · rintro (⟨w, hw, _, hm, rfl, rfl⟩ | ⟨w, hw, _, hm, rfl, rfl⟩)
    · exact .inl ⟨w, hw, rfl, hm⟩
    · exact .inr ⟨w, hw, rfl, hm⟩
  · rintro (⟨w, hw, rfl, hm⟩ | ⟨w, hw, rfl, hm⟩)
    · exact .inl ⟨w, hw, m, hm, rfl, rfl⟩
    · exact .inr ⟨w, hw, m, hm, rfl, rfl⟩

theorem mem_mentions_of_standing (h : (site, m) ∈ f.standing) : m ∈ f.mentions := by
  rw [mentions, mem_append, mem_flatMap, mem_flatMap]
  rcases mem_standing.mp h with ⟨w, hw, _, hm⟩ | ⟨w, hw, _, hm⟩
  · exact .inl ⟨w, hw, hm⟩
  · exact .inr ⟨w, hw, hm⟩

theorem exists_standing (hm : m ∈ f.mentions) : ∃ site, (site, m) ∈ f.standing := by
  rw [mentions, mem_append, mem_flatMap, mem_flatMap] at hm
  rcases hm with ⟨w, hw, hm⟩ | ⟨w, hw, hm⟩
  · exact ⟨w.scope, mem_standing.mpr (.inl ⟨w, hw, rfl, hm⟩)⟩
  · exact ⟨w.scope, mem_standing.mpr (.inr ⟨w, hw, rfl, hm⟩)⟩

theorem mem_standing_answered (h : (site, m) ∈ f.standing) (hA : A m = none) :
    (site, m) ∈ (f.answered A).standing := by
  rw [mem_standing] at h ⊢
  rw [placedFields_answered, placedMethods_answered]
  rcases h with ⟨w, hw, rfl, hm⟩ | ⟨w, hw, rfl, hm⟩
  · exact .inl ⟨_, mem_map_of_mem hw, rfl, mem_fieldMentions_answered hm hA⟩
  · exact .inr ⟨_, mem_map_of_mem hw, rfl, mem_methodMentions_answered hm hA⟩

theorem mem_standing_of_answered (h : (site, m) ∈ (f.answered A).standing)
    (hname : absolute? m.name = none ∨ m.kind = .fieldType) :
    (site, m) ∈ f.standing ∧ A m = none := by
  rw [mem_standing] at h ⊢
  rw [placedFields_answered, placedMethods_answered] at h
  rcases h with ⟨_, hanswered, rfl, hm⟩ | ⟨_, hanswered, rfl, hm⟩
  · obtain ⟨w, hw, rfl⟩ := mem_map.mp hanswered
    obtain ⟨hwritten, hA⟩ := mem_fieldMentions_of_answered hm hname
    exact ⟨.inl ⟨w, hw, rfl, hwritten⟩, hA⟩
  · obtain ⟨w, hw, rfl⟩ := mem_map.mp hanswered
    have hrelative := hname.resolve_right (kind_of_mem_methodMentions hm)
    obtain ⟨hwritten, hA⟩ := mem_methodMentions_of_answered hm hrelative
    exact ⟨.inr ⟨w, hw, rfl, hwritten⟩, hA⟩

end FileDescriptor

namespace Canonicalizer

variable {c : Canonicalizer} {f : FileDescriptor} {A B : Answering}
variable {site : String}

theorem placedFields_qualified : (c.qualified f).placedFields =
    f.placedFields.map fun w => w.put ((c.pool f).qualifiedField w.scope w.value) := by
  rw [qualified, mapMethods_eq_mapPlacedMethods, placedFields_mapPlacedMethods,
    mapFields_eq_mapPlacedFields, placedFields_mapPlacedFields]

theorem placedMethods_qualified : (c.qualified f).placedMethods =
    f.placedMethods.map fun w => w.put ((c.pool f).qualifiedMethod w.scope w.value) := by
  rw [qualified, mapMethods_eq_mapPlacedMethods, placedMethods_mapPlacedMethods]
  rfl

theorem missingNames_eq_nil : c.missingNames f = [] ↔
    (∀ w ∈ f.placedFields, (c.pool f).missingInField w.scope w.value = []) ∧
      ∀ w ∈ f.placedMethods, (c.pool f).missingInMethod w.scope w.value = [] := by
  rw [missingNames, append_eq_nil_iff, flatMap_eq_nil_iff, flatMap_eq_nil_iff,
    ← map_placedFields, ← map_placedMethods, forall_mem_map,
    forall_mem_map]

theorem exists_canonical? (hmissing : c.missingNames f = [])
    (hm : (site, m) ∈ f.standing) (hname : absolute? m.name = none) :
    ∃ x, m.canonical? (c.pool f) site = some x := by
  have hfound {what : String} (hquiet : (c.pool f).missing (some m.name) site what m.kind.accepts =
      []) : ∃ x, m.canonical? (c.pool f) site = some x := by
    obtain ⟨x, hx, _⟩ := (missing_eq_nil_iff hname).mp hquiet
    exact ⟨x, hx⟩
  obtain ⟨hfields, hmethods⟩ := missingNames_eq_nil.mp hmissing
  rcases mem_standing.mp hm with ⟨w, hw, rfl, hplaced⟩ | ⟨w, hw, rfl, hplaced⟩
  · obtain ⟨htype, hextendee⟩ := append_eq_nil_iff.mp (hfields w hw)
    rcases mem_fieldMentions.mp hplaced with hplaced | hplaced
    · obtain ⟨_, hwritten, hkind⟩ := typeName?_of_waiting hplaced
      exact hfound (by rwa [hkind, ← hwritten])
    · obtain ⟨name, hwritten, rfl⟩ := Option.map_eq_some_iff.mp hplaced
      exact hfound (by rwa [← hwritten])
  · obtain ⟨hinput, houtput⟩ := append_eq_nil_iff.mp (hmethods w hw)
    rcases mem_methodMentions.mp hplaced with hplaced | hplaced <;>
      obtain ⟨name, hwritten, rfl⟩ := Option.map_eq_some_iff.mp hplaced
    · exact hfound (by rwa [← hwritten])
    · exact hfound (by rwa [← hwritten])

theorem qualified_answered
    (hknown : ∀ w ∈ f.placedFields, w.value.type? ≠ none → relative? w.value.typeName? = none)
    (h : ∀ x ∈ f.standing, x.2.Completed (c.pool (f.answered A)) x.1 A B) :
    c.qualified (f.answered A) = f.answered B ∧ c.missingNames (f.answered A) = [] := by
  have hfield {w : Placed FieldDescriptor} (hw : w ∈ f.placedFields) :=
    qualifiedField_answeredField (hknown w hw) fun m hm =>
      h (w.scope, m) (mem_standing.mpr (.inl ⟨w, hw, rfl, hm⟩))
  have hmethod {w : Placed MethodDescriptor} (hw : w ∈ f.placedMethods) :=
    qualifiedMethod_answeredMethod fun m hm =>
      h (w.scope, m) (mem_standing.mpr (.inr ⟨w, hw, rfl, hm⟩))
  constructor
  · rw [qualified, mapMethods_eq_mapPlacedMethods, mapFields_eq_mapPlacedFields]
    have hcommute (visit : Placed FieldDescriptor → FieldDescriptor) :
          (f.answered A).mapPlacedFields visit =
          ((f.mapPlacedFields (answeredField A)).mapPlacedFields visit).mapPlacedMethods
            (answeredMethod A) := rfl
    rw [hcommute, mapPlacedFields_mapPlacedFields, mapPlacedMethods_mapPlacedMethods]
    exact (congrArg (mapPlacedMethods _) (mapPlacedFields_congr fun w hw => (hfield hw).1)).trans
      (mapPlacedMethods_congr fun w hw => (hmethod hw).1)
  · rw [missingNames_eq_nil, placedFields_answered, placedMethods_answered, forall_mem_map,
      forall_mem_map]
    exact ⟨fun w hw => (hfield hw).2, fun w hw => (hmethod hw).2⟩

theorem canonical?_of_qualified (hmissing : c.missingNames (f.answered A) = [])
    (hsites : (c.qualified (f.answered A)).sites = (f.answered B).sites)
    (hm : (site, m) ∈ f.standing) (hname : absolute? m.name = none ∨ m.kind = .fieldType)
    (hA : A m = none) (hB : B m = some x) (haccepts : m.kind.accepts x.2 = true) :
    m.canonical? (c.pool (f.answered A)) site = some x := by
  rw [sites_eq, sites_eq, placedFields_qualified, placedMethods_qualified] at hsites
  rw [missingNames_eq_nil] at hmissing
  generalize c.pool (f.answered A) = p at hsites hmissing
  simp only [placedFields_answered, placedMethods_answered, map_map] at hsites hmissing
  obtain ⟨hfields, hmethods⟩ := append_inj hsites (by simp)
  rw [forall_mem_map, forall_mem_map] at hmissing
  rcases mem_standing.mp hm with ⟨w, hw, rfl, hplaced⟩ | ⟨w, hw, rfl, hplaced⟩
  · have hsame := map_inj_left.mp hfields w hw
    exact canonical?_of_qualifiedField hplaced hname hA hB haccepts (hmissing.1 w hw)
      (Prod.mk.inj hsame).2
  · have hsame := map_inj_left.mp hmethods w hw
    have hrelative := hname.resolve_right (kind_of_mem_methodMentions hplaced)
    exact canonical?_of_qualifiedMethod hplaced hrelative hA hB haccepts (hmissing.2 w hw)
      (Prod.mk.inj hsame).2

end Canonicalizer

end ProtobufSchema

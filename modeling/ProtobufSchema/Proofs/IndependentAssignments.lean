import ProtobufSchema.Proofs.LateExtensions

/-! Storing a value only touches the entries on the way to it, so assignments whose paths part may
be made in any order. -/

namespace ProtobufSchema

open List Entry

variable {raw : RawOption} {t : Target}
variable {ts : List Target}

section Alter

variable {n : UInt32} {f g : Option Entry → Option Entry}

namespace Entry

theorem alter_alter (hg : Fills n g) (f : Option Entry → Option Entry) (es : List Entry) :
    alter n f (alter n g es) = alter n (fun e? => f (g e?)) es := by
  obtain ⟨x, hx, rfl⟩ := hg.of_none
  induction es with
  | nil => grind [alter]
  | cons e es ih =>
    have hnew : x.number = e.number → ∃ z, g (some e) = some z ∧ z.number = x.number :=
      fun h => hg.of_some h.symm
    grind [alter]

theorem find?_alter_self (hf : Fills n f) (es : List Entry) :
    ∃ e?, (alter n f es).find? (·.number == n) = f e? := by
  obtain ⟨x, hx, rfl⟩ := hf.of_none
  induction es with
  | nil => exact ⟨none, by simp [alter, hx]⟩
  | cons e es ih =>
    have hnew : x.number = e.number → ∃ z, f (some e) = some z ∧ z.number = x.number :=
      fun h => hf.of_some h.symm
    rw [alter]
    split
    · exact ⟨none, by simp [hx]⟩
    · split
      · next hnumber =>
        obtain ⟨z, hz, hznumber⟩ := hnew hnumber
        exact ⟨some e, by simp [hz, hznumber]⟩
      · next hnumber =>
        have hskip : (e.number == x.number) = false := by simpa using Ne.symm hnumber
        simpa only [find?_cons, hskip] using ih

def entering (number : UInt32) (type : FieldType) (typeName : String) (f : Message → Message) :
    Option Entry → Option Entry
  | .none => .some ⟨number, type, false, .message (f (.empty typeName))⟩
  | .some ⟨n, t, p, .message inner⟩ => .some ⟨n, t, p, .message (f inner)⟩
  | .some ⟨n, t, p, _⟩ => .some ⟨n, t, p, .message (f (.empty typeName))⟩

variable {number : UInt32} {type : FieldType} {typeName : String}

theorem entering_cases (number : UInt32) (type : FieldType) (typeName : String)
    (e? : Option Entry) :
    ∃ (e : Entry) (m : Message),
      (∀ f, entering number type typeName f e? = some { e with value := .message (f m) }) ∧
      ((∀ x ∈ e?, x.number = number) → e.number = number) := by
  cases e? with
  | none => exact ⟨⟨number, type, false, .bool true⟩, .empty typeName, fun _ => rfl, fun _ => rfl⟩
  | some e =>
    obtain ⟨n, t, p, value⟩ := e
    have hnumber (h : ∀ x ∈ some (⟨n, t, p, value⟩ : Entry), x.number = number) :
      n = number := h _ rfl
    cases value with
    | message m => exact ⟨⟨n, t, p, .message m⟩, m, fun _ => rfl, hnumber⟩
    | _ => exact ⟨⟨n, t, p, .bool true⟩, .empty typeName, fun _ => rfl, hnumber⟩

theorem entering_fills (f : Message → Message) :
    Fills number (entering number type typeName f) := by
  constructor
  · obtain ⟨e, m, he, hnumber⟩ := entering_cases number type typeName none
    exact ⟨_, he f, hnumber (by simp)⟩
  · intro x hx
    obtain ⟨e, m, he, hnumber⟩ := entering_cases number type typeName (some x)
    exact ⟨_, he f, hnumber (by simpa using hx)⟩

theorem entering_entering (f g : Message → Message) (e? : Option Entry) :
    entering number type typeName f (entering number type typeName g e?) =
      entering number type typeName (fun m => f (g m)) e? := by
  obtain ⟨e, m, he, -⟩ := entering_cases number type typeName e?
  rw [he, he]
  rfl

end Entry

namespace Message

variable {type : FieldType} {typeName : String}
variable (m : Message)

theorem modifyMessage_modifyMessage (f g : Message → Message) :
    (m.modifyMessage n type typeName g).modifyMessage n type typeName f =
      m.modifyMessage n type typeName fun inner => f (g inner) := by
  change (m.alter n (entering n type typeName g)).alter n (entering n type typeName f) =
    m.alter n (entering n type typeName fun inner => f (g inner))
  simp [alter, alter_alter (entering_fills g), entering_entering]

theorem get?_modifyMessage (type : FieldType) (typeName : String) (f : Message → Message) :
    ∃ inner, (m.modifyMessage n type typeName f).get? n = some (.message (f inner)) := by
  have hfills : Fills n (entering n type typeName f) := entering_fills f
  obtain ⟨e?, he⟩ := find?_alter_self hfills m.entries
  obtain ⟨e, inner, hentering, -⟩ := entering_cases n type typeName e?
  refine ⟨inner, ?_⟩
  change Option.map _ (find? _ (Entry.alter n (entering n type typeName f) m.entries)) = _
  rw [he, hentering]
  rfl

theorem get?_set (v : Value) : (m.set n type v).get? n = some v := by
  obtain ⟨e?, he⟩ := find?_alter_self (Holding.storing_fills ⟨false, n, type, false⟩ v) m.entries
  exact congrArg (Option.map _) he

end Message

end Alter

namespace OptionSegment

def numbers (path : List OptionSegment) : List Int32 := path.map (·.field.number)

def endsSingle (path : List OptionSegment) : Bool :=
  path.getLast?.any fun last => last.field.type?.isSome && !last.field.isRepeated

/-- Neither path goes on from the end of the other, and as long as they have the same numbers they
have the same fields. -/
structure Apart (path path' : List OptionSegment) : Prop where
  left : ¬ numbers path <+: numbers path'
  right : ¬ numbers path' <+: numbers path
  fields : ∀ k, (numbers path).take k = (numbers path').take k →
    (path.take k).map (·.field) = (path'.take k).map (·.field)

variable {a b : OptionSegment} {path path' : List OptionSegment}

theorem Apart.tail (h : Apart (a :: path) (b :: path'))
    (hnumber : a.field.number = b.field.number) : a.field = b.field ∧ Apart path path' := by
  have hfield := h.fields 1 (by simp [numbers, hnumber])
  refine ⟨by simpa using hfield, ?_, ?_, fun k hk => ?_⟩
  · exact fun hprefix => h.left (cons_prefix_cons.mpr ⟨hnumber, hprefix⟩)
  · exact fun hprefix => h.right (cons_prefix_cons.mpr ⟨hnumber.symm, hprefix⟩)
  · have hmore := h.fields (k + 1) (by simpa [numbers, hnumber] using hk)
    exact (cons.inj hmore).2

theorem endsSingle_of_cons (h : endsSingle (a :: b :: path) = true) :
    endsSingle (b :: path) = true := by
  rwa [endsSingle, getLast?_cons_cons] at h

end OptionSegment

open OptionSegment

/-- The value at the end of a path of numbers through messages. -/
def Message.valueAt? : List Int32 → Message → Option Value
  | [], _ => none
  | [number], m => m.get? number.toUInt32
  | number :: more, m => ((m.get? number.toUInt32).bind Value.asMessage?).bind (valueAt? more)

namespace Message

variable {outer : OptionSegment} {more path path' : List OptionSegment} {v w : Value}

theorem storeAt_singleton (h : endsSingle [outer] = true) : ∃ type, ∀ (v : Value) (m : Message),
    storeAt v [outer] m = m.set outer.field.number.toUInt32 type v := by
  simp only [endsSingle, getLast?_singleton, Option.any_some, Bool.and_eq_true, Bool.not_eq_true',
    Option.isSome_iff_exists] at h
  obtain ⟨⟨type, htype⟩, hrepeated⟩ := h
  refine ⟨type, fun v m => ?_⟩
  simp only [storeAt, FieldDescriptor.store, htype, hrepeated]
  rfl

theorem storeAt_cons (h : endsSingle (outer :: more) = true) (v : Value) :
    ∃ f, Fills outer.field.number.toUInt32 f ∧
      ∀ m, storeAt v (outer :: more) m = m.alter outer.field.number.toUInt32 f := by
  cases more with
  | nil =>
    obtain ⟨type, hstore⟩ := storeAt_singleton h
    exact ⟨_, Holding.storing_fills ⟨false, _, type, false⟩ v, hstore v⟩
  | cons next more => exact ⟨_, entering_fills (storeAt v (next :: more)), fun m => rfl⟩

theorem storeAt_comm (hpath : endsSingle path = true) (hpath' : endsSingle path' = true)
    (h : Apart path path') (m : Message) :
    storeAt w path' (storeAt v path m) = storeAt v path (storeAt w path' m) := by
  induction path generalizing path' m with
  | nil => exact absurd nil_prefix h.left
  | cons a path ih =>
    cases path' with
    | nil => exact absurd nil_prefix h.right
    | cons b path' =>
      by_cases hnumber : a.field.number = b.field.number
      · obtain ⟨hfield, htail⟩ := h.tail hnumber
        cases path with
        | nil => exact absurd nil_prefix htail.left
        | cons a' path =>
          cases path' with
          | nil => exact absurd nil_prefix htail.right
          | cons b' path' =>
            have hswap (inner : Message) :=
              ih (endsSingle_of_cons hpath) (endsSingle_of_cons hpath') htail inner
            simp [storeAt, ← hfield, modifyMessage_modifyMessage, hswap]
      · obtain ⟨f, hf, hv⟩ := storeAt_cons hpath v
        obtain ⟨g, hg, hw⟩ := storeAt_cons hpath' w
        have hne : b.field.number.toUInt32 ≠ a.field.number.toUInt32 :=
          fun heq => hnumber (congrArg Int32.ofUInt32 heq).symm
        simp [hv, hw, alter, alter_comm hg hf hne]

theorem valueAt?_storeAt (hpath : endsSingle path = true) (m : Message) :
    (storeAt v path m).valueAt? (numbers path) = some v := by
  induction path generalizing m with
  | nil => cases hpath
  | cons outer more ih =>
    cases more with
    | nil =>
      obtain ⟨type, hstore⟩ := storeAt_singleton hpath
      rw [hstore]
      exact get?_set m v
    | cons next more =>
      obtain ⟨inner, hget⟩ :=
        get?_modifyMessage m (outer.field.type?.getD .message) outer.field.typeName
        (storeAt v (next :: more))
      change bind (bind (get? _ _) _) _ = _
      rw [storeAt, hget]
      · exact ih (endsSingle_of_cons hpath) inner
      · exact cons_ne_nil next more

end Message

structure Target where
  path : List OptionSegment
  value : Value

def Target.store (m : Message) (t : Target) : Message := Message.storeAt t.value t.path m

theorem Target.foldl_store_perm {us : List Target} (hsingle : ∀ t ∈ ts, endsSingle t.path = true)
    (hapart : ts.Pairwise fun t u => Apart t.path u.path) (hperm : ts.Perm us) (m : Message) :
    ts.foldl store m = us.foldl store m := by
  have hswap : ts.Pairwise fun t u => ∀ m, store (store m t) u = store (store m u) t :=
    hapart.imp_of_mem fun ht hu h => Message.storeAt_comm (hsingle _ ht) (hsingle _ hu) h
  exact hperm.foldl_eq' (fun t ht u hu =>
    hswap.forall_of_forall_of_flip (fun _ _ _ => rfl) (hswap.imp fun h m => (h m).symm) ht hu) m

/-- The order of assignments that keep apart is free, so that each may be taken for the last one. -/
theorem Target.valueAt?_foldl_store (hsingle : ∀ t ∈ ts, endsSingle t.path = true)
    (hapart : ts.Pairwise fun t u => Apart t.path u.path) (m : Message) :
    ∀ t ∈ ts, (ts.foldl store m).valueAt? (numbers t.path) = some t.value := by
  intro t ht
  obtain ⟨before, after, rfl⟩ := append_of_mem ht
  have hlast : (before ++ t :: after).Perm ((before ++ after) ++ [t]) := by
    rw [append_assoc]
    exact (perm_append_singleton t after).symm.append_left before
  rw [foldl_store_perm hsingle hapart hlast, foldl_append]
  exact Message.valueAt?_storeAt (hsingle t ht) _

namespace OptionResolver

variable {r : OptionResolver} {scope : String} {type : MessageDescriptor} {typeName : String}
  {o : Options}
variable {log : Log}

/-- Where an assignment leads, if its name does and its value fits there. -/
def target? (r : OptionResolver) (scope : String) (type : MessageDescriptor) (typeName : String)
    (raw : RawOption) : Option Target := do
  let path ← (r.segments raw.nameText scope type typeName raw.name).toOption
  let value ← (r.value raw (path.getLast?.map (·.field))).toOption
  return ⟨path, value⟩

def targets (r : OptionResolver) (scope : String) (type : MessageDescriptor) (typeName : String)
    (raws : List RawOption) : List Target := raws.filterMap (r.target? scope type typeName)

theorem target?_eq_some (h : r.target? scope type typeName raw = some t) :
    r.segments raw.nameText scope type typeName raw.name = .ok t.path ∧
      r.value raw (t.path.getLast?.map (·.field)) = .ok t.value := by
  simp only [target?, Option.bind_eq_bind, Option.bind_eq_some_iff] at h
  obtain ⟨path, hpath, v, hv, ⟨⟩⟩ := h
  exact ⟨ok_of_toOption hpath, ok_of_toOption hv⟩

theorem endsSingle_of_target? (h : r.target? scope type typeName raw = some t)
    (hsingle : ∀ last ∈ t.path.getLast?, last.field.isRepeated = false) :
    endsSingle t.path = true := by
  obtain ⟨f, hfield, hf⟩ := value_cases (target?_eq_some h).2
  obtain ⟨last, hlast, rfl⟩ := Option.map_eq_some_iff.mp hfield
  have htype : last.field.type?.isSome = true := by
    rcases hf with hmessage | ⟨type, htype, -⟩
    · exact Option.isSome_of_any hmessage
    · rw [htype]
      rfl
  rw [endsSingle, hlast, Option.any_some, htype, hsingle last hlast]
  rfl

theorem interpretOne_target (h : r.target? scope type o.kind.typeName raw = some t) :
    r.interpretOne type scope raw ⟨o, log⟩ =
      .ok (some t.path) ⟨{ o with message := t.store o.message }, log⟩ := by
  obtain ⟨hpath, hv⟩ := target?_eq_some h
  refine (bind_run rfl).trans ?_
  simp only [hpath, hv]
  rfl

theorem interpretEach_targets {raws : List RawOption} (log : Log)
    (h : ∀ raw ∈ raws, (r.target? scope type o.kind.typeName raw).isSome = true) :
    r.interpretEach type scope raws ⟨o, log⟩ = .ok
      (!raws.isEmpty,
        (r.targets scope type o.kind.typeName raws).any fun t => t.path.any (·.isExtension))
      ⟨{ o with message := (r.targets scope type o.kind.typeName raws).foldl Target.store o.message
        }, log⟩ := by
  induction raws generalizing o with
  | nil => rfl
  | cons raw raws ih =>
    obtain ⟨hraw, hraws⟩ := forall_mem_cons.mp h
    obtain ⟨t, ht⟩ := Option.isSome_iff_exists.mp hraw
    have hmore := ih (o := { o with message := t.store o.message }) hraws
    refine (bind_run (interpretOne_target ht)).trans ((bind_run hmore).trans ?_)
    simp only [targets, filterMap_cons, ht]
    rfl

/-- Assignments whose paths keep apart and end in single fields may be made in any order, whatever
the options held before: the outcome is the same, and until the options are read again each value
stands at the end of its path. -/
theorem interpretAll_perm (r : OptionResolver) (scope : String) {o : Options}
    {type : MessageDescriptor} (htype : r.pool.types.message? o.kind.typeName = some type)
    (hall : ∀ raw ∈ o.uninterpreted, (r.target? scope type o.kind.typeName raw).isSome = true)
    (hsingle : ∀ t ∈ r.targets scope type o.kind.typeName o.uninterpreted, ∀ last ∈ t.path.getLast?,
      last.field.isRepeated = false)
    (hapart : (r.targets scope type o.kind.typeName o.uninterpreted).Pairwise
      fun t u => Apart t.path u.path)
    {raws : List RawOption} (hperm : raws.Perm o.uninterpreted) (log : Log) :
    r.interpretAll scope ⟨{ o with uninterpreted := raws }, log⟩ = r.interpretAll scope ⟨o, log⟩ ∧
      ∃ flags s, r.interpretEach type scope raws ⟨{ o with uninterpreted := [] }, log⟩ =
        .ok flags s ∧
        ∀ t ∈ r.targets scope type o.kind.typeName o.uninterpreted,
          s.options.message.valueAt? (numbers t.path) = some t.value := by
  have hends : ∀ t ∈ r.targets scope type o.kind.typeName o.uninterpreted,
      endsSingle t.path = true := by
    intro t ht
    obtain ⟨raw, -, hraw⟩ := mem_filterMap.mp ht
    exact endsSingle_of_target? hraw (hsingle t ht)
  have htargets := hperm.symm.filterMap (r.target? scope type o.kind.typeName)
  have hstored := Target.foldl_store_perm hends hapart htargets o.message
  have heach := interpretEach_targets (o := { o with uninterpreted := [] }) log
    fun raw hraw => hall raw (hperm.mem_iff.mp hraw)
  have heach' := interpretEach_targets (o := { o with uninterpreted := [] }) log hall
  have hsame : r.interpretEach type scope raws ⟨{ o with uninterpreted := [] }, log⟩ =
      r.interpretEach type scope o.uninterpreted ⟨{ o with uninterpreted := [] }, log⟩ := by
    rw [heach, heach']
    simp only [targets] at hstored ⊢
    rw [hstored, htargets.any_eq, hperm.isEmpty_eq]
  refine ⟨?_, _, _, hsame.trans heach', Target.valueAt?_foldl_store hends hapart _⟩
  cases hempty : raws.isEmpty with
  | true =>
    have hraws := List.isEmpty_iff.mp hempty
    subst hraws
    rw [hperm.nil_eq]
  | false =>
    have hempty' := hperm.isEmpty_eq.symm.trans hempty
    have hother : r.interpretAll scope ⟨{ o with uninterpreted := raws }, log⟩ = _ :=
      interpretAll_eq hempty htype
    rw [hother, interpretAll_eq hempty' htype]
    simp only [bind, EStateM.bind, hsame]

end OptionResolver

namespace SharedMessage

def width : FieldDescriptor := { name? := some "width", number? := some 1, type? := some .int32 }

def digest : FieldDescriptor := { name? := some "digest", number? := some 2, type? := some .bytes }

def layout : FieldDescriptor :=
  { name? := some "layout", extendee? := some ".google.protobuf.FileOptions", number? := some 50000,
    type? := some .message, typeName? := some ".google.protobuf.Layout" }

def file : FileDescriptor where
  name? := some "a.proto"
  package? := some "google.protobuf"
  messageTypes :=
    [{ name? := some "FileOptions" }, { name? := some "Layout", fields := [width, digest] }]
  extensions := [layout]

def resolver : OptionResolver where
  pool := .ofFile (.link file [])
  registry := (LinkedFile.registryOf file []).1
  asExtensions := true
  file := "a.proto"

/-- File options with a layout. -/
def message (entries : List Entry) : Message :=
  ⟨OptionsKind.file.typeName, [⟨50000, .message, false, .message ⟨layout.typeName, entries, []⟩⟩],
    []⟩

def options : Options where
  kind := .file
  message := message [⟨1, .int32, false, .int32 3⟩]
  uninterpreted := [{ name := [⟨"layout", true⟩, ⟨"width", false⟩], positiveInt := some 7 },
    { name := [⟨"layout", true⟩, ⟨"digest", false⟩], string := some [1, 2] }]

theorem targets_options :
    resolver.targets "google.protobuf" { name? := some "FileOptions" } options.kind.typeName
    options.uninterpreted = [⟨[⟨layout, true⟩, ⟨width, false⟩], .int32 7⟩,
      ⟨[⟨layout, true⟩, ⟨digest, false⟩], .bytes [1, 2]⟩] := by
  with_unfolding_all rfl

theorem apart_options :
    Apart [⟨layout, true⟩, ⟨width, false⟩] [⟨layout, true⟩, ⟨digest, false⟩] := by
  refine ⟨by decide, by decide, fun k hk => ?_⟩
  rcases k with _ | _ | k
  · rfl
  · rfl
  · simp only [numbers] at hk
    exact absurd hk (by simp [width, digest, FieldDescriptor.number])

theorem interpretAll_perm_shared :
    resolver.interpretAll "google.protobuf"
        ⟨{ options with uninterpreted := options.uninterpreted.reverse }, .empty⟩ =
      resolver.interpretAll "google.protobuf" ⟨options, .empty⟩ ∧
    resolver.interpretAll "google.protobuf" ⟨options, .empty⟩ = .ok true
      ⟨⟨.file, message [⟨1, .int32, false, .int32 7⟩, ⟨2, .bytes, false, .bytes [1, 2]⟩], []⟩,
        .empty⟩ ∧
    ∃ flags s, resolver.interpretEach { name? := some "FileOptions" } "google.protobuf"
      options.uninterpreted.reverse ⟨{ options with uninterpreted := [] }, .empty⟩ = .ok flags s ∧
      s.options.message.valueAt? [50000, 1] = some (.int32 7) ∧
      s.options.message.valueAt? [50000, 2] = some (.bytes [1, 2]) := by
  have htype : resolver.pool.types.message? options.kind.typeName =
      some { name? := some "FileOptions" } := by
    with_unfolding_all rfl
  obtain ⟨hsame, flags, s, heach, hvalues⟩ :=
    resolver.interpretAll_perm "google.protobuf" htype (by decide +kernel)
      (by rw [targets_options]; decide)
      (by rw [targets_options]; exact pairwise_pair.mpr apart_options) (reverse_perm _) .empty
  rw [targets_options, forall_mem_cons, forall_mem_singleton] at hvalues
  refine ⟨hsame, ?_, flags, s, heach, hvalues⟩
  with_unfolding_all rfl

end SharedMessage

end ProtobufSchema

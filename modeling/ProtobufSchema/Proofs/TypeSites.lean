import ProtobufSchema.Proofs.ResolvedReferences
import ProtobufSchema.Proofs.VisibleFiles

/-! A file that is built from a text says in every place about types what the text says there, with
each name answered. -/

namespace ProtobufSchema

open List FileDescriptor FieldDescriptor

variable {Denotes : String → SymbolKind → Prop} {p : Pool} (g : Option Options → Option Options)
  (A : Answering) (f : FileDescriptor)

def Placed.answeredUse (A : Answering) (w : Placed Use) : Use :=
  match w.value with
  | .field type? typeName? extendee? =>
    let typed := (w.mention? .fieldType (if type?.isNone then typeName? else none)).bind A
    let extended := (w.mention? .extendee extendee?).bind A
    .field (typed.elim type? fun x => some (if x.2 = .enum then .enum else .message))
      ((typed.map fun x => Name.qualify x.1).or typeName?)
      ((extended.map fun x => Name.qualify x.1).or extendee?)
  | .method inputType? outputType? =>
    .method
      ((((w.mention? .methodInput inputType?).bind A).map fun x => Name.qualify x.1).or inputType?)
      ((((w.mention? .methodOutput outputType?).bind A).map fun x => Name.qualify x.1).or
      outputType?)

theorem Placed.use_answeredField (w : Placed FieldDescriptor) :
    (w.answeredField A).use = (w.map use).answeredUse A := by
  cases htyped : (w.mention? .fieldType w.value.waiting?).bind A with
  | none =>
    rw [answeredField, htyped]
    simp only [answeredUse, map, use]
    unfold waiting? mention? at htyped
    unfold mention?
    rw [htyped]
    rfl
  | some x =>
    -- The name of a type is answered only where the type was not known.
    obtain ⟨_, hm, _⟩ := Option.bind_eq_some_iff.mp htyped
    obtain ⟨_, hname, _⟩ := Option.map_eq_some_iff.mp hm
    obtain ⟨htype, _⟩ := waiting?_eq_some hname
    rw [answeredField, htyped]
    simp only [answeredUse, map, use]
    unfold waiting? mention? at htyped
    unfold mention?
    rw [htyped]
    simp only [FieldDescriptor.answered, withType, htype]
    rfl

namespace FileDescriptor

/-- What a file says about types, with the paths of the fields and methods that say it. -/
def sites (f : FileDescriptor) : List (Path × Use) := f.uses.map fun w => (w.path, w.value)

theorem sites_eq : f.sites = f.placedFields.map (fun w => (w.path, w.value.use)) ++
      f.placedMethods.map fun w => (w.path, w.value.use) := by
  have huses : f.uses = f.placedFields.map (.map use) ++
      f.placedMethods.map (.map MethodDescriptor.use) := rfl
  rw [sites, huses, map_append, map_map, map_map]
  rfl

theorem sites_answered : (f.answered A).sites = f.uses.map fun w => (w.path, w.answeredUse A) := by
  have huses : f.uses = f.placedFields.map (.map use) ++
      f.placedMethods.map (.map MethodDescriptor.use) := rfl
  rw [sites_eq, placedFields_answered, placedMethods_answered, huses]
  simp only [map_append, map_map]
  congr 1
  refine map_congr_left fun w _ => ?_
  exact congrArg (Prod.mk w.path) (w.use_answeredField A)

end FileDescriptor

section Invariance

variable {scope scope' written written' : String} {path : Path} {tag : Tag}

theorem Placed.map_path_listed {α β : Type} {h : α → β} {xs ys : List α}
    (hsame : xs.map h = ys.map h) :
    (listed scope written path tag xs).map (fun w => (w.path, h w.value)) =
      (listed scope' written' path tag ys).map fun w => (w.path, h w.value) := by
  apply ext_getElem?
  intro i
  have hi := congrArg (fun us => us[i]?.map (Prod.mk (path ++ [tag.step, .ofNat i]))) hsame
  simp only [getElem?_map, Option.map_map] at hi
  simp only [getElem?_map, getElem?_listed, Option.map_map]
  exact hi

theorem MessageDescriptor.map_path_placedFieldsFrom {h : FieldDescriptor → Use}
    {change : MessageDescriptor → MessageDescriptor} {ms : List MessageDescriptor}
    (hms : ∀ m ∈ ms, ∀ path, ((change m).placedFields scope path).map
      (fun w => (w.path, h w.value)) = (m.placedFields scope path).map fun w => (w.path, h w.value))
    (i : Nat) :
    (placedFieldsFrom scope path tag i (ms.map change)).map (fun w => (w.path, h w.value)) =
      (placedFieldsFrom scope path tag i ms).map fun w => (w.path, h w.value) := by
  induction ms generalizing i with
  | nil => rfl
  | cons m ms ih =>
    obtain ⟨hm, hrest⟩ := forall_mem_cons.mp hms
    simp [placedFieldsFrom, hm, ih hrest]

theorem FieldDescriptor.map_use_mapOptions
    (xs : List FieldDescriptor) : (xs.map (·.mapOptions g)).map use = xs.map use := by
  rw [map_map]
  rfl

theorem MessageDescriptor.sites_mapOptions (m : MessageDescriptor) :
    ((m.mapOptions g).placedFields scope path).map (fun w => (w.path, w.value.use)) =
      (m.placedFields scope path).map fun w => (w.path, w.value.use) := by
  induction m using nesting generalizing scope path with
  | _ _ _ ih fields extensions =>
    simp only [mapOptions, placedFields, map_append, mapNestedOptions_eq]
    rw [map_path_placedFieldsFrom fun m hm path => ih m hm]
    exact congrArg₂ (· ++ · ++ _) (Placed.map_path_listed (map_use_mapOptions g fields))
      (Placed.map_path_listed (map_use_mapOptions g extensions))

end Invariance

theorem FileDescriptor.sites_mapOptions : (f.mapOptions g).sites = f.sites := by
  have hmethods : (f.mapOptions g).placedMethods.map (fun w => (w.path, w.value.use)) =
      f.placedMethods.map fun w => (w.path, w.value.use) := by
    simp only [placedMethods, map_flatten]
    refine congrArg flatten (ext_getElem? fun i => ?_)
    simp only [getElem?_map, getElem?_mapIdx, mapOptions, Option.map_map]
    refine Option.map_congr fun s _ => Placed.map_path_listed ?_
    simp only [ServiceDescriptor.mapOptions, map_map]
    rfl
  rw [sites_eq, sites_eq, hmethods]
  simp only [placedFields, mapOptions, map_append]
  rw [MessageDescriptor.map_path_placedFieldsFrom fun m _ path => m.sites_mapOptions g]
  exact congrArg (· ++ _ ++ _) (Placed.map_path_listed (map_use_mapOptions g f.extensions))

theorem FileDescriptor.sites_mapFields {g : String → FieldDescriptor → FieldDescriptor}
    (hg : ∀ scope x, (g scope x).use = x.use) (f : FileDescriptor) :
    (f.mapFields g).sites = f.sites := by
  rw [mapFields_eq_mapPlacedFields, sites_eq, sites_eq, placedFields_mapPlacedFields, map_map]
  congr 1
  exact map_congr_left fun w _ => congrArg (Prod.mk w.path) (hg w.scope w.value)

namespace FileDescriptor

/-- A file that declares the same names and says the same about types in the same places. -/
structure Alike (f f' : FileDescriptor) : Prop where
  sites : f'.sites = f.sites
  definitions : f'.definitions = f.definitions
  isAddressable : f'.isAddressable = f.isAddressable

namespace Alike

variable {f f' f'' : FileDescriptor}

theorem trans (h : f.Alike f') (h' : f'.Alike f'') : f.Alike f'' :=
  ⟨h'.sites.trans h.sites, h'.definitions.trans h.definitions,
    h'.isAddressable.trans h.isAddressable⟩

theorem of_bare (h : f'.bare = f.bare) : f.Alike f' where
  sites := by
    rw [← sites_mapOptions (fun _ => none) f', ← sites_mapOptions (fun _ => none) f]
    exact congrArg FileDescriptor.sites h
  definitions := by
    rw [← definitions_mapOptions (fun _ => none) f', ← definitions_mapOptions (fun _ => none) f]
    exact congrArg FileDescriptor.definitions h
  isAddressable := by
    rw [← isAddressable_mapOptions (fun _ => none),
      ← isAddressable_mapOptions (f := f) (fun _ => none)]
    exact congrArg FileDescriptor.isAddressable h

end Alike

end FileDescriptor

namespace Canonicalizer

open FileDescriptor (Alike)

variable {c : Canonicalizer} {p q : FileDescriptor} {log log' : Log}

theorem normalizeDefaults_alike : f.Alike (f.mapFields fun _ x => x.normalized) := by
  have hfield (x : FieldDescriptor) : x.normalized.use = x.use ∧ x.normalized.name = x.name := by
    obtain ⟨_, hx⟩ := x.exists_normalized
    rw [hx]
    exact ⟨rfl, rfl⟩
  refine ⟨sites_mapFields (fun _ x => (hfield x).1) f,
    definitions_mapFields (fun _ x => (hfield x).2) f, ?_⟩
  rw [mapFields_eq_mapPlacedFields, isAddressable_mapPlacedFields]

theorem canonicalize_alike (h : c.canonicalize p log = .ok q log') : (c.qualified p).Alike q := by
  obtain ⟨file, hinterprets, hq⟩ := canonicalize_cases h
  have hfile : (c.qualified p).Alike file := .of_bare hinterprets.bare_eq
  rcases hq with rfl | rfl
  · exact hfile
  · exact hfile.trans (normalizeDefaults_alike file)

theorem qualified_of_isQualified (c : Canonicalizer) (h : p.isQualified = true) :
    c.qualified p = p ∧ c.missingNames p = [] := by
  have hrun := congrFun (c.qualifyNames_eq p) .empty
  rw [qualifyNames_of_isQualified h] at hrun
  exact ⟨(congrArg Prod.fst hrun).symm,
    (Log.extend_injective .empty ((Log.extend_nil _).trans (congrArg Prod.snd hrun))).symm⟩

theorem isAddressable_qualified : (c.qualified p).isAddressable = p.isAddressable := by
  rw [qualified, mapMethods_eq_mapPlacedMethods, isAddressable_mapPlacedMethods,
    mapFields_eq_mapPlacedFields, isAddressable_mapPlacedFields]

end Canonicalizer

/-- What is said about types is right: a field has a type, a name exactly if the type is no scalar,
and names denote what they are used for. -/
inductive Use.IsResolved (Denotes : String → SymbolKind → Prop) : Use → Prop
  | scalar {type : FieldType} {extendee? : Option String} (htype : type.isScalar = true)
    (hextendee : ∀ x ∈ extendee?, ∃ full, x = Name.qualify full ∧ Denotes full .message) :
    IsResolved Denotes (.field (some type) none extendee?)
  | message {type : FieldType} {full : String} {extendee? : Option String}
    (htype : type.isMessage = true) (hname : Denotes full .message)
    (hextendee : ∀ x ∈ extendee?, ∃ full, x = Name.qualify full ∧ Denotes full .message) :
    IsResolved Denotes (.field (some type) (some (Name.qualify full)) extendee?)
  | enum {full : String} {extendee? : Option String} (hname : Denotes full .enum)
    (hextendee : ∀ x ∈ extendee?, ∃ full, x = Name.qualify full ∧ Denotes full .message) :
    IsResolved Denotes (.field (some .enum) (some (Name.qualify full)) extendee?)
  | method {input output : String} (hinput : Denotes input .message)
    (houtput : Denotes output .message) :
    IsResolved Denotes (.method (some (Name.qualify input)) (some (Name.qualify output)))

theorem ReferenceKind.eq_message_of_accepts {k : ReferenceKind} {kind : SymbolKind}
    (hk : k ≠ .fieldType) (h : k.accepts kind = true) : kind = .message := by
  unfold accepts at h
  split at h
  · exact absurd rfl hk
  · exact eq_of_beq h

theorem Placed.isResolved_answeredUse {t : SymbolTable}
    {A : Answering} {w : Placed Use} (hw : w.value.IsSettled t)
    (hmade : ∀ node, t.kind? node = some .message → Denotes (t.fullName node) .message)
    (hA : ∀ m ∈ w.useMentions, ∃ full kind, A m = some (full, kind) ∧ m.kind.accepts kind = true ∧
      Denotes full kind) : (w.answeredUse A).IsResolved Denotes := by
  obtain ⟨path, scope, written, value⟩ := w
  have hmessage (k : ReferenceKind) (name : String) (hk : k ≠ .fieldType)
      (hm : ⟨path, k, written, name⟩ ∈ useMentions ⟨path, scope, written, value⟩) :
      ∃ full, A ⟨path, k, written, name⟩ = some (full, .message) ∧ Denotes full .message := by
    obtain ⟨full, kind, hanswer, haccepts, hfull⟩ := hA _ hm
    have hsame := ReferenceKind.eq_message_of_accepts hk haccepts
    exact ⟨full, hsame ▸ hanswer, hsame ▸ hfull⟩
  have hextendee (extendee? : Option String)
      (hm : ∀ name ∈ extendee?, ⟨path, .extendee, written, name⟩ ∈
      useMentions ⟨path, scope, written, value⟩) :
      ∀ x ∈ (((mention? ⟨path, scope, written, value⟩ .extendee extendee?).bind A).map fun x =>
          Name.qualify x.1).or extendee?, ∃ full, x = Name.qualify full ∧
              Denotes full .message := by
    intro x hx
    cases extendee? with
    | none => cases hx
    | some name =>
      obtain ⟨full, hanswer, hfull⟩ := hmessage .extendee name (by decide) (hm name rfl)
      simp only [mention?, Option.map_some, Option.bind_some, hanswer, Option.some_or,
        Option.mem_some_iff] at hx
      exact ⟨full, hx.symm, hfull⟩
  cases hw with
  | named name extendee? =>
    obtain ⟨full, kind, hanswer, haccepts, hfull⟩ := hA ⟨path, .fieldType, written, name⟩ (by
      simp [useMentions, mention?])
    have hextendee := hextendee extendee? fun x hx => by
      simp [useMentions, mention?, Option.mem_def.mp hx]
    simp only [answeredUse]
    have hname : (mention? ⟨path, scope, written, Use.field none (some name) extendee?⟩ .fieldType
        (if (none : Option FieldType).isNone then some name else none)).bind A =
        some (full, kind) := hanswer
    rw [hname]
    cases kind with
    | message => exact .message rfl hfull hextendee
    | enum => exact .enum hfull hextendee
    | package => cases haccepts
    | service => cases haccepts
  | scalar htype extendee? =>
    exact .scalar htype
      (hextendee extendee? fun x hx => by simp [useMentions, mention?, Option.mem_def.mp hx])
  | made htype hnode extendee? =>
    exact .message htype (hmade _ hnode)
      (hextendee extendee? fun x hx => by simp [useMentions, mention?, Option.mem_def.mp hx])
  | method input output =>
    obtain ⟨full, hinput, hfull⟩ := hmessage .methodInput input (by decide) (by
      simp [useMentions, mention?])
    obtain ⟨full', houtput, hfull'⟩ := hmessage .methodOutput output (by decide) (by
      simp [useMentions, mention?])
    simp only [answeredUse, mention?, Option.map_some, Option.bind_some, hinput, houtput]
    exact .method hfull hfull'

def Use.names : Use → List String
  | field _ typeName? extendee? => typeName?.toList ++ extendee?.toList
  | method inputType? outputType? => inputType?.toList ++ outputType?.toList

theorem Use.IsResolved.exists_qualify {u : Use} (h : u.IsResolved Denotes) :
    ∀ x ∈ u.names, ∃ full kind, x = Name.qualify full ∧ Denotes full kind := by
  intro x hx
  cases h <;> simp only [names, Option.toList_none, Option.toList_some, nil_append,
    cons_append, mem_cons, Option.mem_toList, not_mem_nil, or_false] at hx
  case scalar hextendee =>
    obtain ⟨full, hfull⟩ := hextendee x hx
    exact ⟨full, _, hfull⟩
  case message hname hextendee =>
    rcases hx with rfl | hx
    · exact ⟨_, _, rfl, hname⟩
    · obtain ⟨full, hfull⟩ := hextendee x hx
      exact ⟨full, _, hfull⟩
  case enum hname hextendee =>
    rcases hx with rfl | hx
    · exact ⟨_, _, rfl, hname⟩
    · obtain ⟨full, hfull⟩ := hextendee x hx
      exact ⟨full, _, hfull⟩
  case method hinput houtput =>
    rcases hx with rfl | rfl
    · exact ⟨_, _, rfl, hinput⟩
    · exact ⟨_, _, rfl, houtput⟩

namespace FileDescriptor

variable {f : FileDescriptor}

theorem exists_site_of_mem_allFields {x : String × FieldDescriptor} (h : x ∈ f.allFields) :
    ∃ path, (path, x.2.use) ∈ f.sites := by
  rw [← map_placedFields] at h
  obtain ⟨w, hw, rfl⟩ := mem_map.mp h
  rw [sites_eq]
  exact ⟨w.path, mem_append_left _ (mem_map.mpr ⟨w, hw, rfl⟩)⟩

theorem exists_site_of_mem_allMethods {x : String × MethodDescriptor} (h : x ∈ f.allMethods) :
    ∃ path, (path, x.2.use) ∈ f.sites := by
  rw [← map_placedMethods] at h
  obtain ⟨w, hw, rfl⟩ := mem_map.mp h
  rw [sites_eq]
  exact ⟨w.path, mem_append_right _ (mem_map.mpr ⟨w, hw, rfl⟩)⟩

theorem isQualified_of_sites (h : ∀ s ∈ f.sites, ∀ x ∈ s.2.names, ∃ full, x = Name.qualify full) :
    f.isQualified = true := by
  have hname {x? : Option String} (hx : ∀ x ∈ x?, ∃ full, x = Name.qualify full) :
      Name.relative? x? = none := by
    cases x? with
    | none => rfl
    | some x =>
      obtain ⟨full, rfl⟩ := hx x rfl
      exact Name.relative?_qualify full
  refine isQualified_iff.mpr ⟨fun x hx => ?_, fun x hx => ?_⟩
  · obtain ⟨path, hsite⟩ := exists_site_of_mem_allFields hx
    have hnames := h _ hsite
    simp only [use, Use.names, forall_mem_append, Option.mem_toList] at hnames
    rw [FieldDescriptor.isQualified, hname hnames.1, hname hnames.2]
    rfl
  · obtain ⟨path, hsite⟩ := exists_site_of_mem_allMethods hx
    have hnames := h _ hsite
    simp only [MethodDescriptor.use, Use.names, forall_mem_append, Option.mem_toList] at hnames
    rw [MethodDescriptor.isQualified, hname hnames.1, hname hnames.2]
    rfl

end FileDescriptor

theorem Pool.lookup?_of_resolveWith? {name scope : String} {accept : Definition → Bool}
    {found : Found} (h : p.resolveWith? name scope accept = some found) :
    p.lookup? found.fullName = some (found.file, found.definition) ∧
      accept found.definition = true := by
  have haccepted {fullName : String} (h : ((p.lookup? fullName).filter fun x => accept x.2).map
      (fun x => (⟨fullName, x.1, x.2⟩ : Found)) = some found) :
      p.lookup? found.fullName = some (found.file, found.definition) ∧
          accept found.definition = true := by
    obtain ⟨x, hx, rfl⟩ := Option.map_eq_some_iff.mp h
    exact Option.filter_eq_some_iff.mp hx
  unfold resolveWith? at h
  cases habsolute : Name.absolute? name with
  | some full =>
    rw [habsolute] at h
    exact haccepted h
  | none =>
    rw [habsolute] at h
    obtain ⟨s, _, hs⟩ := exists_of_findSome?_eq_some h
    exact haccepted hs

namespace Mention

variable {f : FileDescriptor} {p : Pool} {strict : Bool} {m : Mention} {x : String × SymbolKind}
variable (file : FileDescriptor)

theorem own?_eq_some (h : m.own? f = some x) :
    f.symbolKind? x.1 = some x.2 ∧ m.kind.accepts x.2 = true := by
  obtain ⟨hsymbol, haccepts⟩ := Option.filter_eq_some_iff.mp h
  refine ⟨?_, haccepts⟩
  have hfound {full : String} (h : (f.symbolKind? full).map (fun kind => (full, kind)) = some x) :
      f.symbolKind? x.1 = some x.2 := by
    obtain ⟨kind, hkind, rfl⟩ := Option.map_eq_some_iff.mp h
    exact hkind
  unfold ownSymbol? at hsymbol
  dsimp only at hsymbol
  cases habsolute : Name.absolute? m.name with
  | some full =>
    rw [habsolute] at hsymbol
    exact hfound hsymbol
  | none =>
    rw [habsolute] at hsymbol
    obtain ⟨s, _, hs⟩ := exists_of_findSome?_eq_some hsymbol
    exact hfound hs

theorem seen?_eq_some (h : m.seen? p strict = some x) : m.kind.accepts x.2 = true ∧
    (strict = true → ∃ file d, p.lookup? x.1 = some (file, d) ∧ d.symbolKind? = some x.2) := by
  unfold seen? at h
  split at h
  · rename_i found hfound
    obtain ⟨hlookup, haccepts⟩ := Pool.lookup?_of_resolveWith? hfound
    obtain ⟨kind, hkind, haccepts⟩ := (Option.any_eq_true _ _).mp haccepts
    rw [hkind] at h
    cases h
    exact ⟨haccepts, fun _ => ⟨found.file, found.definition, hlookup, hkind⟩⟩
  · obtain ⟨full, hfull, rfl⟩ := Option.map_eq_some_iff.mp h
    refine ⟨by cases m.kind <;> rfl, ?_⟩
    rintro rfl
    cases hfull

theorem seen?_withFile : m.seen? (p.withFile file) strict = m.seen? p strict := by
  have hview (p : Pool) : m.seen? p strict = ((p.resolveWith? m.name m.scope fun d =>
      d.symbolKind?.any m.kind.accepts).map fun r => (r.fullName, r.definition)).elim
        ((if strict then none else Name.absolute? m.name).map (·, .message))
        fun x => some (x.1, x.2.symbolKind?.getD .message) := by
    unfold seen?
    cases p.resolveWith? m.name m.scope fun d => d.symbolKind?.any m.kind.accepts <;> rfl
  rw [hview, hview, Pool.resolveWith?_withFile]

theorem accepts_answer? (h : m.answer? f p strict = some x) : m.kind.accepts x.2 = true := by
  rcases Option.or_eq_some_iff.mp h with h | ⟨_, h⟩
  · exact (own?_eq_some h).2
  · exact (seen?_eq_some h).1

end Mention

theorem Ledger.Describes.isQualified_answered {l : Ledger} {f : FileDescriptor} (h : l.Describes f)
    {strict : Bool} (hall : ∀ m ∈ f.mentions, (m.answer? f p strict).isSome) :
    (f.answered (Mention.answer? f p strict)).isQualified = true := by
  refine isQualified_of_sites fun s hs => ?_
  rw [sites_answered] at hs
  obtain ⟨w, hw, rfl⟩ := mem_map.mp hs
  have hresolved : (w.answeredUse (Mention.answer? f p strict)).IsResolved fun _ _ => True := by
    refine Placed.isResolved_answeredUse (h.settled w hw) (fun _ _ => trivial) fun m hm => ?_
    obtain ⟨x, hx⟩ := Option.isSome_iff_exists.mp (hall m (mem_mentions.mpr ⟨w, hw, hm⟩))
    exact ⟨x.1, x.2, hx, Mention.accepts_answer? hx, trivial⟩
  intro x hx
  obtain ⟨full, _, hfull, _⟩ := hresolved.exists_qualify x hx
  exact ⟨full, hfull⟩

/-- A finished file completes a written one: it declares the same names, and says about types what
is written, with every name answered. -/
structure LinkedFile.Completes (l : LinkedFile) (strict : Bool) (f : FileDescriptor) : Prop where
  definitions : l.proto.definitions = f.definitions
  index : l.index = .ofFile l.proto
  answered : ∀ m ∈ f.mentions, (m.answer? f (Pool.full l) strict).isSome
  sites : l.proto.sites =
    f.uses.map fun w => (w.path, w.answeredUse (Mention.answer? f (Pool.full l) strict))

theorem PendingFile.pool_eq {p : PendingFile} {q : FileDescriptor} (dependencies : List LinkedFile)
    (h : q.definitions = p.file.definitions) :
    p.pool dependencies = (Pool.full (.link q dependencies)).withFile p.file := by
  have hindex : SymbolIndex.ofFile p.file = .ofFile q := by
    rw [SymbolIndex.ofFile, SymbolIndex.ofFile, h]
  rw [pool, hindex, ← Pool.ofDependencies_withFile q, Pool.withFallback_withFile, Pool.full,
    Pool.ofFile, LinkedFile.link]

namespace Compiler

variable {c : Compiler} {name text : String} {l : LinkedFile}

section Finish

variable {p : PendingFile} {dependencies : List LinkedFile}
  (h : c.Finishes name p dependencies (some l) [])
include h

theorem Finishes.isAddressable : l.proto.isAddressable = p.file.isAddressable := by
  obtain ⟨file, q, hresolve, hcanonical, _, _, rfl⟩ := some_iff.mp h
  have halike := Canonicalizer.canonicalize_alike (hcanonical .empty)
  calc q.isAddressable
      = file.isAddressable := by rw [halike.isAddressable, Canonicalizer.isAddressable_qualified]
    _ = p.file.isAddressable := by
      rw [← file.isAddressable_untyped, PendingFile.untyped_of_resolve hresolve,
        p.file.isAddressable_untyped]

theorem Finishes.completes {ledger : Ledger} {f : FileDescriptor} (hledger : ledger.Describes f)
    (hf : f.isAddressable = true) (hown : p.file = f.answered (Mention.own? f))
    (hunresolved : p.unresolved = ledger.unresolved f) :
    l.Completes c.options.strictNames f ∧ l = .link l.proto dependencies ∧
      l.proto.duplicateSymbols dependencies = [] ∧ l.proto.duplicateExtensions dependencies = [] ∧
      ∀ log, (Canonicalizer.ofDependencies dependencies c.options).canonicalize
        (f.answered (Mention.answer? f (.full l) c.options.strictNames)) log = .ok l.proto log := by
  obtain ⟨file, q, hresolve, hcanonical, hsymbols, hextensions, rfl⟩ := some_iff.mp h
  have halike := Canonicalizer.canonicalize_alike (hcanonical .empty)
  obtain ⟨ds, hrun, hds⟩ := PendingFile.resolve_answered hledger hf hown hunresolved
    c.options.strictNames dependencies
  have hends := congrFun (hresolve.symm.trans hrun) .empty
  have hanswered : file = f.answered _ := congrArg Prod.fst hends
  have hquiet : [] = ds := Log.extend_injective .empty (congrArg Prod.snd hends)
  have hall := hds.mp hquiet.symm
  have hqualified := hledger.isQualified_answered hall
  rw [← hanswered] at hqualified
  rw [(Canonicalizer.qualified_of_isQualified _ hqualified).1] at halike
  have hdefinitions : q.definitions = f.definitions := by
    rw [halike.definitions, hanswered, definitions_answered]
  have hpool : p.pool dependencies = (Pool.full (.link q dependencies)).withFile p.file :=
    PendingFile.pool_eq dependencies (by rw [hdefinitions, hown, definitions_answered])
  have hanswers : Mention.answer? f (p.pool dependencies) c.options.strictNames =
      Mention.answer? f (.full (.link q dependencies)) c.options.strictNames := by
    funext m
    rw [hpool, Mention.answer?, Mention.answer?, Mention.seen?_withFile]
  rw [hanswers] at hall hanswered
  have hsites := halike.sites
  rw [hanswered, sites_answered] at hsites
  rw [hanswered] at hcanonical
  have hindex : (LinkedFile.link q dependencies).index =
      .ofFile (LinkedFile.link q dependencies).proto := by
    rw [LinkedFile.link]
  exact ⟨⟨hdefinitions, hindex, hall, hsites⟩, rfl, hsymbols, hextensions, hcanonical⟩

end Finish

theorem Builds.completes (h : c.Builds name l) (hname : name ≠ metaSchemaFile)
    (hinput : c.inputs.lookup name = some (.source text)) (hl : l.proto.isAddressable = true) :
    ∃ (tree : Tree.File) (f : FileDescriptor) (ledger : Ledger), Tree.File.parse text = .ok tree ∧
      tree.written? name = some f ∧ ledger.Describes f ∧ f.isAddressable = true ∧
      l.Completes c.options.strictNames f := by
  rcases h.linked with ⟨_, hschema⟩ |
    ⟨p, q, dependencies, _, _, hfinish, input, hlookup, hassembled, _⟩
  · exact absurd hschema hname
  cases hinput.symm.trans hlookup
  obtain ⟨tree, f, ledger, hparse, hwritten, hledger, hf, hown, hunresolved⟩ :=
    SchemaInput.assembled?_source hassembled (hfinish.isAddressable.symm.trans hl)
  exact ⟨tree, f, ledger, hparse, hwritten, hledger, hf,
    (hfinish.completes hledger hf hown hunresolved).1⟩

end Compiler

end ProtobufSchema

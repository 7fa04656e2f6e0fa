import ProtobufSchema.Proofs.DistinctNames
import ProtobufSchema.Proofs.PlacedMembers

/-! Whatever references are resolved to, all that a file says but the types of its fields and
methods stays as it was. -/

namespace ProtobufSchema

open FieldDescriptor FileDescriptor

/-- A field without its type and without the message that it extends. -/
def FieldDescriptor.untyped (x : FieldDescriptor) : FieldDescriptor :=
  { x with type? := none, typeName? := none, extendee? := none }

def MethodDescriptor.untyped (m : MethodDescriptor) : MethodDescriptor :=
  { m with inputType? := none, outputType? := none }

def FileDescriptor.untyped (f : FileDescriptor) : FileDescriptor :=
  (f.mapFields fun _ => FieldDescriptor.untyped).mapMethods fun _ => MethodDescriptor.untyped

namespace MessageDescriptor

variable {g : String → FieldDescriptor → FieldDescriptor} {k : FieldDescriptor → FieldDescriptor}
  {m m' : MessageDescriptor}

theorem mapFields_modifyOwn? (hk : ∀ scope x, g scope (k x) = g scope x) {tag i : Int32}
    (h : m.modifyOwn? tag i k = some m') (scope : String) :
    m'.mapFields g scope = m.mapFields g scope := by
  cases m
  have hsame (scope : String) : ∀ x y, (some ∘ k) x = some y → g scope y = g scope x := by
    rintro x _ ⟨⟩
    exact hk scope x
  unfold modifyOwn? at h
  split at h
  · obtain ⟨fields, hfields, rfl⟩ := Option.map_eq_some_iff.mp h
    simp [mapFields, Path.map_modifyAt? (hsame _) hfields]
  · split at h
    · obtain ⟨extensions, hextensions, rfl⟩ := Option.map_eq_some_iff.mp h
      simp [mapFields, Path.map_modifyAt? (hsame _) hextensions]
    · cases h

theorem mapFields_modifyNestedAt? {change : MessageDescriptor → Option MessageDescriptor}
    (hchange : ∀ m m', change m = some m' → ∀ scope, m'.mapFields g scope = m.mapFields g scope)
    {rest : Path} (h : m.modifyNestedAt? rest change = some m') (scope : String) :
    m'.mapFields g scope = m.mapFields g scope := by
  fun_induction modifyNestedAt? m rest change generalizing m' scope with
  | case1 m => exact hchange m m' h scope
  | case2 => cases h
  | case3 m i rest ih =>
    obtain ⟨nested, hnested, rfl⟩ := Option.map_eq_some_iff.mp h
    cases m
    simp [mapFields, mapNestedFields_eq, Path.map_modifyAt? (fun x y hy => ih x hy _) hnested]
  | case4 => cases h

end MessageDescriptor

namespace FileDescriptor

variable {f f' : FileDescriptor} {path : Path}
variable {k : FieldDescriptor → FieldDescriptor} {l : MethodDescriptor → MethodDescriptor}

theorem mapFields_modifyFieldAt? {g : String → FieldDescriptor → FieldDescriptor}
    (hk : ∀ scope x, g scope (k x) = g scope x) (h : f.modifyFieldAt? path k = some f') :
    f'.mapFields g = f.mapFields g := by
  obtain ⟨⟨parent, tag, i⟩, _, h⟩ := Option.bind_eq_some_iff.mp h
  dsimp only at h
  split at h
  · split at h
    · obtain ⟨extensions, hextensions, rfl⟩ := Option.map_eq_some_iff.mp h
      have hsame : ∀ x y, (some ∘ k) x = some y → g f.package y = g f.package x := by
        rintro x _ ⟨⟩
        exact hk _ x
      have hmapped := Path.map_modifyAt? hsame hextensions
      simp only [package] at hmapped
      simp [mapFields, package, hmapped]
    · cases h
  · unfold modifyMessageAt? at h
    split at h
    · split at h
      · obtain ⟨messages, hmessages, rfl⟩ := Option.map_eq_some_iff.mp h
        have hmapped := Path.map_modifyAt? (g := (·.mapFields g f.package))
          (fun _ _ hy => MessageDescriptor.mapFields_modifyNestedAt?
            (fun _ _ hown => MessageDescriptor.mapFields_modifyOwn? hk hown) hy _) hmessages
        simp only [package] at hmapped
        simp [mapFields, package, hmapped]
      · cases h
    · cases h

theorem mapMethods_modifyMethodAt? {g : String → MethodDescriptor → MethodDescriptor}
    (hk : ∀ scope x, g scope (l x) = g scope x)
    (h : f.modifyMethodAt? path l = some f') : f'.mapMethods g = f.mapMethods g := by
  unfold modifyMethodAt? at h
  split at h
  · split at h
    · obtain ⟨services, hservices, rfl⟩ := Option.map_eq_some_iff.mp h
      have hsame {s s' : ServiceDescriptor} {i : Int32}
          (hs : (Path.modifyAt? s.methods i (some ∘ l)).map (fun ms => { s with methods := ms }) =
          some s') :
          { s' with methods := s'.methods.map (g (Name.join f.package s'.name)) } =
            { s with methods := s.methods.map (g (Name.join f.package s.name)) } := by
        obtain ⟨methods, hmethods, rfl⟩ := Option.map_eq_some_iff.mp hs
        have hmapped (scope : String) :=
          Path.map_modifyAt? (by rintro x _ ⟨⟩; exact hk scope x) hmethods
        simp [ServiceDescriptor.name, hmapped]
      have hmapped := Path.map_modifyAt? (fun _ _ hs => hsame hs) hservices
      simp only [package] at hmapped
      simp [mapMethods, package, hmapped]
    · cases h
  · cases h

theorem untyped_modifyFieldAt? (hk : ∀ x, (k x).untyped = x.untyped)
    (h : f.modifyFieldAt? path k = some f') : f'.untyped = f.untyped := by
  rw [untyped, mapFields_modifyFieldAt? (fun _ => hk) h, untyped]

theorem untyped_modifyMethodAt?
    (hk : ∀ x, (l x).untyped = x.untyped) (h : f.modifyMethodAt? path l = some f') :
    f'.untyped = f.untyped :=
  congrArg (mapFields fun _ => .untyped) (mapMethods_modifyMethodAt? (fun _ => hk) h)

end FileDescriptor

namespace Reference

theorem untyped_write? {r : Reference} {f f' : FileDescriptor} {fullName : String}
    {kind : SymbolKind} (h : r.write? f fullName kind = some f') : f'.untyped = f.untyped := by
  unfold write? at h
  split at h
  · exact untyped_modifyFieldAt? (by intro; rfl) h
  · exact untyped_modifyFieldAt? (by intro; rfl) h
  · exact untyped_modifyMethodAt? (by intro; rfl) h
  · exact untyped_modifyMethodAt? (by intro; rfl) h

theorem untyped_write?_getD (r : Reference) (f : FileDescriptor) (fullName : String)
    (kind : SymbolKind) : ((r.write? f fullName kind).getD f).untyped = f.untyped := by
  cases h : r.write? f fullName kind with
  | none => rfl
  | some f' => exact untyped_write? h

theorem untyped_resolveAll (t : SymbolTable) (f : FileDescriptor) (rs : List Reference) :
    (resolveAll t f rs).1.untyped = f.untyped := by
  induction rs generalizing t f with
  | nil => rfl
  | cons r rs ih =>
    unfold resolveAll
    dsimp only
    split
    · rename_i hchanged
      obtain ⟨_, _, hwrite⟩ := Option.bind_eq_some_iff.mp hchanged
      rw [ih, untyped_write? hwrite]
    · exact ih _ f

end Reference

/-! ### What does not depend on types -/

namespace MessageDescriptor

theorem name_mapFields (g : String → FieldDescriptor → FieldDescriptor) (scope : String)
    (m : MessageDescriptor) : (m.mapFields g scope).name = m.name := by
  cases m
  rfl

theorem scopeNames_untyped (scope : String) (m : MessageDescriptor) :
    (m.mapFields (fun _ => untyped) scope).scopeNames = m.scopeNames := by
  cases m
  have hfield : FieldDescriptor.name ∘ .untyped = FieldDescriptor.name := rfl
  have hmessage (scope : String) : name ∘ mapFields (fun _ => untyped) scope = name :=
    funext (name_mapFields _ scope)
  simp only [scopeNames, writtenOneofs, mapFields, mapNestedFields_eq, List.map_map,
    List.filter_map, List.length_map, hmessage]
  rfl

theorem isDistinct_untyped {m : MessageDescriptor} {scope : String} :
    (m.mapFields (fun _ => untyped) scope).IsDistinct ↔ m.IsDistinct := by
  induction m using induction generalizing scope with
  | _ m ih =>
    have hnumbers : (m.mapFields (fun _ => untyped) scope).fields.map (·.number) =
        m.fields.map (·.number) := by
      cases m
      simp only [mapFields, List.map_map]
      rfl
    have hnested : (m.mapFields (fun _ => untyped) scope).nestedTypes =
        m.nestedTypes.map (mapFields (fun _ => untyped) (Name.join scope m.name)) := by
      cases m
      exact mapNestedFields_eq _ _ _
    constructor
    · rintro ⟨names, numbers, nested⟩
      rw [hnested, List.forall_mem_map] at nested
      exact ⟨scopeNames_untyped scope m ▸ names, hnumbers ▸ numbers,
        fun x hx => (ih x hx).mp (nested x hx)⟩
    · rintro ⟨names, numbers, nested⟩
      refine ⟨(scopeNames_untyped scope m).symm ▸ names, hnumbers.symm ▸ numbers, ?_⟩
      rw [hnested, List.forall_mem_map]
      exact fun x hx => (ih x hx).mpr (nested x hx)

end MessageDescriptor

namespace FileDescriptor

variable {f f' : FileDescriptor}

theorem slots_untyped (f : FileDescriptor) : f.untyped.slots = f.slots :=
  (slots_mapMethods (by intros; rfl) _).trans (slots_mapFields (by intros; rfl) f)

theorem definitions_untyped (f : FileDescriptor) : f.untyped.definitions = f.definitions := by
  have hname (x : FieldDescriptor) : x.untyped.name = x.name := rfl
  rw [untyped, definitions_mapMethods, definitions_mapFields fun _ => hname]

theorem isAddressable_untyped (f : FileDescriptor) : f.untyped.isAddressable = f.isAddressable := by
  rw [untyped, mapMethods_eq_mapPlacedMethods, isAddressable_mapPlacedMethods,
    mapFields_eq_mapPlacedFields, isAddressable_mapPlacedFields]

theorem isDistinct_untyped : f.untyped.IsDistinct ↔ f.IsDistinct := by
  have hnames : f.untyped.scopeNames = f.scopeNames := by
    have hfield : FieldDescriptor.name ∘ .untyped = FieldDescriptor.name := rfl
    have hmessage : MessageDescriptor.name ∘
        .mapFields (fun _ => .untyped) f.package = MessageDescriptor.name :=
      funext (MessageDescriptor.name_mapFields _ _)
    simp only [scopeNames, untyped, mapMethods, mapFields, List.map_map, hmessage]
    rfl
  have hmethods (s : ServiceDescriptor) :
      (s.methods.map MethodDescriptor.untyped).map (·.name) = s.methods.map (·.name) := List.map_map
  constructor
  · rintro ⟨names, messages, methods⟩
    refine ⟨hnames ▸ names, fun m hm => ?_, fun s hs => ?_⟩
    · exact MessageDescriptor.isDistinct_untyped.mp (messages _ (List.mem_map_of_mem hm))
    · exact hmethods s ▸ methods _ (List.mem_map_of_mem hs)
  · rintro ⟨names, messages, methods⟩
    refine ⟨hnames.symm ▸ names, List.forall_mem_map.mpr fun m hm => ?_,
      List.forall_mem_map.mpr fun s hs => ?_⟩
    · exact MessageDescriptor.isDistinct_untyped.mpr (messages m hm)
    · exact (hmethods s).symm ▸ methods s hs

theorem IsDistinct.of_untyped_eq (h : f.IsDistinct) (heq : f'.untyped = f.untyped) :
    f'.IsDistinct :=
  isDistinct_untyped.mp (heq ▸ isDistinct_untyped.mpr h)

end FileDescriptor

namespace Reference

variable (t : SymbolTable) (f : FileDescriptor) (rs : List Reference)

theorem definitions_resolveAll : (resolveAll t f rs).1.definitions = f.definitions := by
  rw [← definitions_untyped, untyped_resolveAll, definitions_untyped]

theorem isAddressable_resolveAll : (resolveAll t f rs).1.isAddressable = f.isAddressable := by
  rw [← isAddressable_untyped, untyped_resolveAll, isAddressable_untyped]

end Reference

end ProtobufSchema

import ProtobufSchema.MetaSchema
import ProtobufSchema.Proofs.MessageRoundTrip
import ProtobufSchema.Proofs.OptionSlots

/-! Names, paths and extension numbers lead to the same places in files that differ in their options
only. -/

namespace ProtobufSchema

open List DecodeContext MessageDescriptor

variable {x : String × Definition} {scope : String} {path : Path}
variable {f' : FieldDescriptor} {ctx' ctx : DecodeContext} {p' p : Pool}

abbrev FieldDescriptor.bare (f : FieldDescriptor) : FieldDescriptor := f.mapOptions fun _ => none

abbrev MessageDescriptor.bare (m : MessageDescriptor) : MessageDescriptor :=
  m.mapOptions fun _ => none

abbrev FileDescriptor.bare (f : FileDescriptor) : FileDescriptor := f.mapOptions fun _ => none

theorem FieldDescriptor.of_bare_eq {f : FieldDescriptor} (h : f'.bare = f.bare) :
    f'.number = f.number ∧ f'.type? = f.type? ∧ f'.isRepeated = f.isRepeated ∧
      f'.typeName = f.typeName := by
  obtain ⟨_, _, _, _, _, _, _, _, _, _, _⟩ := f
  cases h
  exact ⟨rfl, rfl, rfl, rfl⟩

section Lookup

variable (g : Option Options → Option Options)
variable {tag : Tag} {α : Type}

theorem Definition.listed_map (scope : String) (path : Path) (tag : Tag)
    (define : Path → Definition) {name : α → String} {change : α → α}
    (h : ∀ x, name (change x) = name x) (xs : List α) :
    listed scope path tag define name (xs.map change) = listed scope path tag define name xs := by
  simp only [listed, zipIdx_map]
  simp [h]

theorem Definition.mem_listed {define : Path → Definition} {name : α → String} {xs : List α} :
    x ∈ listed scope path tag define name xs ↔ ∃ (i : Nat) (a : α), xs[i]? = some a ∧
      x = (Name.join scope (name a), define (path ++ [tag.step, .ofNat i])) := by
  simp only [listed, mem_map, Prod.exists, mem_zipIdx_iff_getElem?, @eq_comm _ x]
  exact exists_comm

namespace MessageDescriptor

variable {ms : List MessageDescriptor}

theorem mem_definitionsFrom {i : Nat} : x ∈ definitionsFrom scope path tag i ms ↔
      ∃ (j : Nat) (m : MessageDescriptor), ms[j]? = some m ∧
        x ∈ m.definitions scope (path ++ [tag.step, .ofNat (i + j)]) := by
  induction ms generalizing i with
  | nil => simp [definitionsFrom]
  | cons m ms ih =>
    rw [definitionsFrom, mem_append, ih]
    constructor
    · rintro (h | ⟨j, x, hx, h⟩)
      · exact ⟨0, m, rfl, h⟩
      · exact ⟨j + 1, x, hx, by rwa [add_right_comm] at h⟩
    · rintro ⟨_ | j, x, hx, h⟩
      · cases hx
        exact .inl h
      · exact .inr ⟨j, x, hx, by rwa [add_right_comm]⟩

theorem mem_definitions {m : MessageDescriptor} : x ∈ m.definitions scope path ↔
      (∃ (j : Nat) (d : MessageDescriptor), m.nestedTypes[j]? = some d ∧
        x ∈ d.definitions (Name.join scope m.name) (path ++ [Tag.messageNested.step, .ofNat j])) ∨
      x ∈ Definition.listed (Name.join scope m.name) path .messageEnum .enum EnumDescriptor.name
        m.enumTypes ∨
      x ∈ Definition.listed (Name.join scope m.name) path .messageExtension .extension
        FieldDescriptor.name
        m.extensions ∨ x = (Name.join scope m.name, .message path) := by
  cases m
  simp only [definitions, mem_append, mem_singleton, mem_definitionsFrom, zero_add, or_assoc]
  rfl

theorem definitionsFrom_map {change : MessageDescriptor → MessageDescriptor}
    (h : ∀ m ∈ ms, ∀ path, (change m).definitions scope path = m.definitions scope path) (i : Nat) :
    definitionsFrom scope path tag i (ms.map change) = definitionsFrom scope path tag i ms := by
  induction ms generalizing i with
  | nil => rfl
  | cons m ms ih =>
    simp only [map_cons, definitionsFrom]
    rw [h m (by simp), ih fun x hx => h x (by simp [hx])]

theorem definitions_mapOptions (m : MessageDescriptor) (scope : String) (path : Path) :
    (m.mapOptions g).definitions scope path = m.definitions scope path := by
  induction m using nesting generalizing scope path with
  | _ _ _ ih =>
    simp only [mapOptions, definitions, mapNestedOptions_eq]
    rw [definitionsFrom_map fun x hx path => ih x hx _ path, Definition.listed_map,
      Definition.listed_map]
    · intro f
      rfl
    · intro e
      rfl

theorem fieldNumbered?_mapOptions (m : MessageDescriptor) (number : Int32) :
    (m.mapOptions g).fieldNumbered? number = (m.fieldNumbered? number).map (·.mapOptions g) := by
  cases m
  simp only [mapOptions, fieldNumbered?, find?_map]
  rfl

end MessageDescriptor

theorem Path.at?_map {β : Type} (f : α → β) (xs : List α) (i : Int32) :
    at? (xs.map f) i = (at? xs i).map f := by
  simp only [at?]
  split
  · exact getElem?_map
  · rfl

theorem MessageDescriptor.nestedAt?_mapOptions (m : MessageDescriptor) (path : Path) :
    (m.mapOptions g).nestedAt? path = (m.nestedAt? path).map (·.mapOptions g) := by
  fun_induction nestedAt? m path with
  | case1 m => simp [nestedAt?]
  | case2 => simp [nestedAt?]
  | case3 m i rest ih =>
    cases m
    simp only [mapOptions, nestedAt?, mapNestedOptions_eq, Path.at?_map] at ih ⊢
    cases Path.at? _ i with
    | none => rfl
    | some inner => exact ih inner
  | case4 m tag i rest h => simp [nestedAt?, h]

namespace FileDescriptor

theorem definitions_mapOptions (f : FileDescriptor) :
    (f.mapOptions g).definitions = f.definitions := by
  simp only [mapOptions, definitions, package]
  rw [definitionsFrom_map fun m _ => m.definitions_mapOptions g _,
    Definition.listed_map, Definition.listed_map, Definition.listed_map]
  all_goals
    intro x
    rfl

theorem messageAt?_mapOptions (f : FileDescriptor) (path : Path) :
    (f.mapOptions g).messageAt? path = (f.messageAt? path).map (·.mapOptions g) := by
  unfold messageAt?
  split
  · split
    · simp only [mapOptions, Path.at?_map]
      cases Path.at? f.messageTypes _ with
      | none => rfl
      | some m => exact m.nestedAt?_mapOptions g _
    · rfl
  · rfl

theorem messageOf?_mapOptions (f : FileDescriptor) (d : Definition) :
    (f.mapOptions g).messageOf? d = (f.messageOf? d).map (·.mapOptions g) := by
  cases d with
  | message path => exact f.messageAt?_mapOptions g path
  | _ => rfl

end FileDescriptor

end Lookup

def ExtensionInfo.bare (info : ExtensionInfo) : ExtensionInfo :=
  { info with field := info.field.bare }

theorem MessageDescriptor.nestedExtensionInfos_eq (scope file : String)
    (ms : List MessageDescriptor) :
    nestedExtensionInfos scope file ms = ms.flatMap (extensionInfos scope file) := by
  induction ms with
  | nil => rfl
  | cons m ms ih => rw [nestedExtensionInfos, ih, flatMap_cons]

theorem MessageDescriptor.extensionInfos_bare (m : MessageDescriptor) (scope file : String) :
    m.bare.extensionInfos scope file = (m.extensionInfos scope file).map .bare := by
  induction m using nesting generalizing scope with
  | _ _ _ ih =>
    simp only [mapOptions, extensionInfos, mapNestedOptions_eq, nestedExtensionInfos_eq,
      map_append, map_map, map_flatMap, flatMap_map]
    congr 1
    exact flatMap_congr fun x hx => ih x hx _

theorem FileDescriptor.extensionInfos_bare (f : FileDescriptor) :
    f.bare.extensionInfos = f.extensionInfos.map .bare := by
  simp only [mapOptions, extensionInfos, nestedExtensionInfos_eq,
    map_append, map_map, map_flatMap, flatMap_map]
  congr 1
  exact flatMap_congr fun m _ => m.extensionInfos_bare _ _

namespace Registry

variable (r : Registry)

def bare (r : Registry) : Registry :=
  ⟨r.byNumber.map fun (key, info) => (key, info.bare), r.byName⟩

theorem find?_bare (extendee : String) (number : Int32) :
    r.bare.find? extendee number = (r.find? extendee number).map .bare := by
  obtain ⟨byNumber, byName⟩ := r
  simp only [bare, find?]
  induction byNumber with
  | nil => rfl
  | cons entry rest ih =>
    obtain ⟨key, info⟩ := entry
    simp only [map_cons, lookup_cons, ih]
    split <;> rfl

theorem insertAll_bare (infos : List ExtensionInfo) :
    (r.bare.insertAll (infos.map .bare)).1 = (r.insertAll infos).1.bare := by
  induction infos generalizing r with
  | nil => rfl
  | cons info more ih =>
    simp only [map_cons, insertAll, insert]
    rw [find?_bare, show info.bare.extendee = info.extendee from rfl,
      show info.bare.number = info.number from rfl]
    cases r.find? info.extendee info.number with
    | some existing => exact ih r
    | none =>
      have hinsert : (mk (r.bare.byNumber ++ [((info.extendee, info.number), info.bare)])
          (bind info.fullName (info.extendee, info.number) r.bare.byName)) =
          (mk (r.byNumber ++ [((info.extendee, info.number), info)])
            (bind info.fullName (info.extendee, info.number) r.byName)).bare := by
        simp [bare]
      exact hinsert ▸ ih _

end Registry

theorem LinkedFile.registryOf_bare {f f' : FileDescriptor} (h : f.bare = f'.bare)
    (dependencies : List LinkedFile) :
    (registryOf f dependencies).1.bare = (registryOf f' dependencies).1.bare := by
  simp only [registryOf, Registry.addFile]
  rw [← Registry.insertAll_bare, ← Registry.insertAll_bare, ← f.extensionInfos_bare,
    ← f'.extensionInfos_bare, h]

theorem Pool.message?_bare (hfile : p.file.bare = p'.file.bare) (hindex : p.index = p'.index)
    (hvisible : p.visible = p'.visible) (hfallback : p.fallback? = p'.fallback?) (name : String) :
    (p.types.message? name).map bare = (p'.types.message? name).map bare := by
  simp only [types, lookup?, hindex, hvisible, hfallback]
  cases p'.index.get? name with
  | none => rfl
  | some d =>
    have hown := congrArg (fun f : FileDescriptor => f.messageOf? d) hfile
    simp only [FileDescriptor.messageOf?_mapOptions] at hown
    exact hown

theorem Pool.message?_withFallback (hfile : p.file.bare = p'.file.bare)
    (hindex : p.index = p'.index) (hvisible : p.visible = p'.visible)
    (hfallback : p.fallback? = p'.fallback?) (behind : LinkedFile) (name : String) :
    ((p.withFallback behind).types.message? name).map bare =
      ((p'.withFallback behind).types.message? name).map bare := by
  simp only [withFallback, hvisible]
  cases p'.visible.any (·.name == behind.name) with
  | true => exact message?_bare hfile hindex hvisible hfallback name
  | false =>
    refine message?_bare ?_ ?_ ?_ ?_ name
    · exact hfile
    · exact hindex
    · rfl
    · rfl

namespace DecodeContext

/-- Contexts that declare the same fields, up to their options. -/
def Agrees (ctx ctx' : DecodeContext) : Prop :=
  ∀ typeName number, (ctx.field? typeName number).map FieldDescriptor.bare =
    (ctx'.field? typeName number).map FieldDescriptor.bare

theorem agrees_of_bare {types types' : TypeLookup} {r r' : Registry}
    (htypes : ∀ name, (types.message? name).map bare =
      (types'.message? name).map bare) (hregistry : r.bare = r'.bare) :
    Agrees ⟨types, some r⟩ ⟨types', some r'⟩ := by
  have own (types : TypeLookup) (typeName : String) (number : UInt32) :
      ((types.message? typeName).bind (·.fieldNumbered? number.toInt32)).map .bare =
        ((types.message? typeName).map bare).bind (·.fieldNumbered? number.toInt32) := by
    cases types.message? typeName with
    | none => rfl
    | some m => exact (m.fieldNumbered?_mapOptions _ _).symm
  have extension (r : Registry) (typeName : String) (number : UInt32) :
      ((r.find? typeName number.toInt32).map (·.field)).map .bare =
        (r.bare.find? typeName number.toInt32).map (·.field) := by
    rw [Registry.find?_bare]
    cases r.find? typeName number.toInt32 <;> rfl
  intro typeName number
  simp only [field?, Option.map_or, Option.bind_some]
  rw [own, own, extension, extension, htypes, hregistry]

section Agrees

variable {ctx ctx' : DecodeContext} (h : ctx.Agrees ctx')
include h

theorem Agrees.field? {typeName : String} {number : UInt32} {f : FieldDescriptor}
    (hf : ctx.field? typeName number = some f) :
    ∃ f', ctx'.field? typeName number = some f' ∧ f'.bare = f.bare := by
  have hfield := h typeName number
  rw [hf] at hfield
  obtain ⟨f', hf', hbare⟩ := Option.map_eq_some_iff.mp hfield.symm
  exact ⟨f', hf', hbare⟩

theorem Agrees.consumes (typeName : String) (w : WireField) :
    ctx'.consumes typeName w = ctx.consumes typeName w := by
  simp only [DecodeContext.consumes]
  cases hf : ctx.field? typeName w.number with
  | none =>
    have hnone := h typeName w.number
    rw [hf] at hnone
    rw [Option.map_eq_none_iff.mp hnone.symm]
  | some f =>
    obtain ⟨f', hf', hbare⟩ := h.field? hf
    obtain ⟨_, htype, hrepeated, _⟩ := FieldDescriptor.of_bare_eq hbare
    simp [hf', FieldDescriptor.takes, htype, hrepeated]

end Agrees

end DecodeContext

theorem Value.Fits.agree {f : FieldDescriptor} {type : FieldType} {v : Value}
    (hf : f'.bare = f.bare) (hinner : ∀ m, v = .message m → m.WellTyped ctx → m.WellTyped ctx')
    (hv : v.Fits ctx f type) : v.Fits ctx' f' type := by
  cases v with
  | message m =>
    obtain ⟨htype, hname, hm⟩ := hv
    obtain ⟨_, _, _, hsame⟩ := FieldDescriptor.of_bare_eq hf
    exact ⟨htype, hname.trans hsame.symm, hinner m rfl hm⟩
  | _ => simpa only [Fits] using hv

theorem Message.WellTyped.agree (h : ctx.Agrees ctx') {m : Message}
    (hm : m.WellTyped ctx) : m.WellTyped ctx' := by
  induction m using induction with
  | _ m ih =>
    obtain ⟨hsorted, hall, hunknown⟩ := wellTyped_iff.mp hm
    refine wellTyped_iff.mpr ⟨hsorted, ?_, ?_⟩
    · intro e he
      obtain ⟨hnumber, f, hf, ht, hcases⟩ := (hall e he).cases
      obtain ⟨f', hf', hbare⟩ := h.field? hf
      obtain ⟨_, htype, hr, _⟩ := FieldDescriptor.of_bare_eq hbare
      have hinner := ih e he
      obtain ⟨number, type, packed, value⟩ := e
      rcases hcases with ⟨items, rfl, hrepeated, hne, hpacked, hitems⟩ | ⟨hsingle, rfl, hlist, hv⟩
      · refine Entry.wellTyped_list hnumber hf' (htype.trans ht) (hr.trans hrepeated) hne hpacked ?_
        intro v hv
        exact (hitems v hv).agree hbare fun x hx => hinner x (by simpa [Value.items, hx] using hv)
      · refine Entry.wellTyped_single hnumber hf' (htype.trans ht) (hr.trans hsingle) ?_
        exact hv.agree hbare fun x hx => hinner x (by simp [Value.items, hx])
    · obtain ⟨ws, hws, hall⟩ := hunknown
      exact ⟨ws, hws, fun w hw => ⟨(hall w hw).1, (h.consumes _ w).trans (hall w hw).2⟩⟩

end ProtobufSchema

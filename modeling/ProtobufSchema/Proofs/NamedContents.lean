import ProtobufSchema.Proofs.DistinctNames
import ProtobufSchema.Proofs.ParsedTrees

/-! In a parsed tree everything declared is called by a segment, and so is what is kept of it. -/

namespace ProtobufSchema

open List
open Name (IsSegment)

variable {α : Type} {u : Usage}

theorem Usage.names_all (usage : α → Usage) (xs : List α) :
    (all usage xs).names = xs.flatMap fun x => (usage x).names := by
  induction xs with
  | nil => rfl
  | cons x xs ih => exact congrArg ((usage x).names ++ ·) ih

namespace Tree

def FieldMember.IsUnlabelled : FieldMember → Prop
  | .field f => f.label? = none
  | .group _ => True

/-- The messages that a declaration brings with it, each with its members. -/
def FieldMember.bodies : FieldMember → List (String × List Member)
  | .field _ => []
  | .group g => [(g.name, g.members)]

def OneofMember.field? : OneofMember → Option FieldMember
  | .field f => some f
  | .option _ => none

def MapField.members (m : MapField) : List Member :=
  [.field (.field ⟨none, m.keyType, "key", 1, [], m.span, none⟩),
    .field (.field ⟨none, m.valueType, "value", 2, [], m.span, none⟩)]

def Member.bodies : Member → List (String × List Member)
  | .field f => f.bodies
  | .map m => [(Name.mapEntryName m.name, m.members)]
  | .oneof o => (o.members.filterMap OneofMember.field?).flatMap FieldMember.bodies
  | .message m => [(m.name, m.members)]
  | .extend x => x.fields.flatMap FieldMember.bodies
  | _ => []

def Item.bodies : Item → List (String × List Member)
  | .message m => [(m.name, m.members)]
  | .extend x => x.fields.flatMap FieldMember.bodies
  | _ => []

/-- What is declared in a member of a message is called by segments, and fields in a oneof have no
labels. -/
inductive Member.IsNamed : Member → Prop
  | mk {m : Member} (names : ∀ n ∈ m.usage.names, IsSegment n)
    (labels : ∀ o, m = .oneof o → ∀ f, .field f ∈ o.members → f.IsUnlabelled)
    (bodies : ∀ b ∈ m.bodies, ∀ x ∈ b.2, IsNamed x) : IsNamed m

theorem Member.IsNamed.names {m : Member} : m.IsNamed → ∀ n ∈ m.usage.names, IsSegment n
  | .mk h _ _ => h

theorem Member.IsNamed.bodies {m : Member} : m.IsNamed → ∀ b ∈ m.bodies, ∀ x ∈ b.2, x.IsNamed
  | .mk _ _ h => h

structure FieldMember.IsNamed (place : FieldPlace) (f : FieldMember) : Prop where
  names : ∀ isExtension, ∀ n ∈ (f.usage isExtension).names, IsSegment n
  label : place = .oneof → f.IsUnlabelled
  bodies : ∀ b ∈ f.bodies, ∀ x ∈ b.2, x.IsNamed

structure Item.IsNamed (i : Item) : Prop where
  names : ∀ n ∈ i.usage.names, IsSegment n
  bodies : ∀ b ∈ i.bodies, ∀ x ∈ b.2, x.IsNamed

theorem MapField.isNamed {m : MapField} (h : IsSegment m.name) : (Member.map m).IsNamed := by
  have hkey : IsSegment "key" := ⟨by decide, by decide⟩
  have hvalue : IsSegment "value" := ⟨by decide, by decide⟩
  have hfield {f : Field} (hf : IsSegment f.name) : (Member.field (.field f)).IsNamed :=
    ⟨forall_mem_singleton.mpr hf, nofun, nofun⟩
  refine ⟨forall_mem_cons.mpr ⟨h, forall_mem_singleton.mpr (Name.isSegment_mapEntryName h)⟩,
    nofun, ?_⟩
  exact forall_mem_singleton.mpr
    (forall_mem_cons.mpr ⟨hfield hkey, forall_mem_singleton.mpr (hfield hvalue)⟩)

/-! ### What is kept of written declarations -/

theorem forall_mem_of_siftsAll {sifts : Usage → α → List α → Prop} {usage : α → Usage}
    {P : α → Prop} {xs kept : List α} (h : SiftsAll sifts usage u xs kept)
    (hxs : ∀ x ∈ xs, ∀ u ks, sifts u x ks → ∀ k ∈ ks, P k) : ∀ k ∈ kept, P k := by
  induction h with
  | nil => exact forall_mem_nil _
  | cons hfirst _ ih =>
    obtain ⟨hx, hxs⟩ := forall_mem_cons.mp hxs
    exact forall_mem_append.mpr ⟨hx _ _ hfirst, ih hxs⟩

theorem Enum.IsWritten.sifts {e : Enum} {ks : List Enum} (h : e.IsWritten) (hsifts : e.Sifts u ks) :
    ∀ k ∈ ks, ∀ n ∈ k.usage.names, IsSegment n := by
  cases hsifts with
  | clash => exact forall_mem_nil _
  | kept hkept =>
    refine forall_mem_singleton.mpr (forall_mem_cons.mpr ⟨h.name.segment, ?_⟩)
    rw [Usage.names_all]
    refine forall_mem_flatMap.mpr (forall_mem_of_siftsAll hkept fun x hx u ks hsifts => ?_)
    cases hsifts with
    | clash => exact forall_mem_nil _
    | value =>
      cases h.members _ hx with
      | value hv => exact forall_mem_singleton.mpr (forall_mem_singleton.mpr hv.name.segment)
    | option => exact forall_mem_map.mpr fun _ _ => forall_mem_nil _
    | reserved => exact forall_mem_singleton.mpr (forall_mem_nil _)

theorem Message.Sifts.isNamed {m : Message} {ks : List Message} (h : Message.Sifts u m ks)
    (hname : IsSegment m.name)
    (hmembers : ∀ x ∈ m.members, ∀ u ks, Member.Sifts u x ks → ∀ k ∈ ks, k.IsNamed) :
    ∀ k ∈ ks, IsSegment k.name ∧ ∀ x ∈ k.members, x.IsNamed := by
  cases h with
  | clash => exact forall_mem_nil _
  | kept hkept => exact forall_mem_singleton.mpr ⟨hname, forall_mem_of_siftsAll hkept hmembers⟩

theorem Extend.Sifts.isNamed {x : Extend} {ks : List Extend} (h : Extend.Sifts u x ks)
    (hfields : ∀ f ∈ x.fields, ∀ u ks, FieldMember.Sifts true u f ks →
      ∀ k ∈ ks, k.IsNamed .extend) :
    ∀ k ∈ ks, (∀ n ∈ k.usage.names, IsSegment n) ∧
      ∀ b ∈ k.fields.flatMap FieldMember.bodies, ∀ y ∈ b.2, y.IsNamed := by
  cases h with
  | kept hkept =>
    have hall := forall_mem_of_siftsAll hkept hfields
    refine forall_mem_singleton.mpr ⟨?_, forall_mem_flatMap.mpr fun f hf => (hall f hf).bodies⟩
    rw [usage, Usage.names_all]
    exact forall_mem_flatMap.mpr fun f hf => (hall f hf).names true

mutual

theorem FieldMember.IsWritten.sifts {dialect : Dialect} : ∀ {place : FieldPlace} {f : FieldMember},
    f.IsWritten dialect place → ∀ (isExtension : Bool) (u : Usage) (ks : List FieldMember),
      FieldMember.Sifts isExtension u f ks → ∀ k ∈ ks, k.IsNamed place
  | _, _, .field hlabel _ h, _, _, _, hsifts => by
    cases hsifts with
    | clash => exact forall_mem_nil _
    | field =>
      refine forall_mem_singleton.mpr ⟨fun _ => forall_mem_singleton.mpr h.name.segment, ?_, nofun⟩
      rintro rfl
      exact hlabel
  | _, _, .group _ _ hname _ _ _ hmembers, _, _, _, hsifts => by
    cases hsifts with
    | clash => exact forall_mem_nil _
    | group _ _ hkept =>
      refine forall_mem_singleton.mpr ⟨fun _ => ?_, fun _ => trivial, forall_mem_singleton.mpr ?_⟩
      · exact forall_mem_cons.mpr ⟨Name.isSegment_lower hname.segment,
          forall_mem_singleton.mpr hname.segment⟩
      · exact forall_mem_of_siftsAll hkept fun x hx => (hmembers x hx).sifts

theorem Member.IsWritten.sifts {dialect : Dialect} : ∀ {m : Member}, m.IsWritten dialect →
    ∀ (u : Usage) (ks : List Member), Member.Sifts u m ks → ∀ k ∈ ks, k.IsNamed
  | _, .field h, _, _, hsifts => by
    cases hsifts with
    | field hsifts =>
      refine forall_mem_map.mpr fun k hk => ?_
      have hnamed := h.sifts _ _ _ hsifts k hk
      exact ⟨hnamed.names false, nofun, hnamed.bodies⟩
  | _, .map h, _, _, hsifts => by
    cases hsifts with
    | mapClash => exact forall_mem_nil _
    | map => exact forall_mem_singleton.mpr (MapField.isNamed h.name.segment)
  | _, .oneof hname hfields _, _, _, hsifts => by
    cases hsifts with
    | oneofClash => exact forall_mem_nil _
    | oneof hkept =>
      have hall :=
        forall_mem_of_siftsAll (P := fun x => ∀ f, x = .field f → f.IsNamed .oneof) hkept ?_
      · refine forall_mem_singleton.mpr ⟨forall_mem_cons.mpr ⟨hname.segment, ?_⟩, ?_, ?_⟩
        · rw [Usage.names_all]
          refine forall_mem_flatMap.mpr fun x hx => ?_
          cases x with
          | field f => exact (hall _ hx f rfl).names false
          | option => exact forall_mem_nil _
        · rintro _ ⟨⟩ f hf
          exact (hall _ hf f rfl).label rfl
        · refine forall_mem_flatMap.mpr fun f hf => ?_
          obtain ⟨_ | _, hx, hfield⟩ := mem_filterMap.mp hf <;> cases hfield
          exact (hall _ hx f rfl).bodies
      rintro x hx u ks hsifts _ hk f rfl
      cases hsifts with
      | field hsifts =>
        obtain ⟨y, hy, heq⟩ := mem_map.mp hk
        cases heq
        exact (hfields _ hx).sifts false u _ hsifts _ hy
      | option =>
        obtain ⟨_, _, heq⟩ := mem_map.mp hk
        cases heq
  | _, .message hname hmembers, _, _, hsifts => by
    cases hsifts with
    | message hsifts =>
      refine forall_mem_map.mpr fun k hk => ?_
      obtain ⟨hname, hinner⟩ :=
        hsifts.isNamed hname.segment (fun x hx => (hmembers x hx).sifts) k hk
      exact ⟨forall_mem_singleton.mpr hname, nofun, forall_mem_singleton.mpr hinner⟩
  | _, .enum h, _, _, hsifts => by
    cases hsifts with
    | enum hsifts => exact forall_mem_map.mpr fun k hk => ⟨h.sifts hsifts k hk, nofun, nofun⟩
  | _, .extend _ hfields, _, _, hsifts => by
    cases hsifts with
    | extend hsifts =>
      refine forall_mem_map.mpr fun k hk => ?_
      obtain ⟨hnames, hbodies⟩ := hsifts.isNamed (fun f hf => (hfields f hf).sifts true) k hk
      exact ⟨hnames, nofun, hbodies⟩
  | _, .extensions _, _, _, hsifts => by
    cases hsifts
    exact forall_mem_singleton.mpr ⟨nofun, nofun, nofun⟩
  | _, .reserved _, _, _, hsifts => by
    cases hsifts
    exact forall_mem_singleton.mpr ⟨nofun, nofun, nofun⟩
  | _, .option _, _, _, hsifts => by
    cases hsifts
    exact forall_mem_map.mpr fun k _ => ⟨nofun, nofun, nofun⟩

end

theorem File.IsWritten.sifts {tree kept : File} (h : tree.IsWritten) (hsifts : tree.Sifts kept) :
    ∀ i ∈ kept.items, i.IsNamed := by
  refine forall_mem_of_siftsAll hsifts.items fun i hi u ks hsifts => ?_
  cases h.items i hi with
  | message hname hmembers =>
    cases hsifts with
    | message hsifts =>
      refine forall_mem_map.mpr fun k hk => ?_
      obtain ⟨hname, hinner⟩ :=
        hsifts.isNamed hname.segment (fun x hx => (hmembers x hx).sifts) k hk
      exact ⟨forall_mem_singleton.mpr hname, forall_mem_singleton.mpr hinner⟩
  | enum he =>
    cases hsifts with
    | enum hsifts => exact forall_mem_map.mpr fun k hk => ⟨he.sifts hsifts k hk, nofun⟩
  | service hs =>
    cases hsifts with
    | service hsifts =>
      cases hsifts with
      | clash => exact forall_mem_nil _
      | kept => exact forall_mem_singleton.mpr ⟨forall_mem_singleton.mpr hs.name.segment, nofun⟩
  | extend _ hfields =>
    cases hsifts with
    | extend hsifts =>
      refine forall_mem_map.mpr fun k hk => ?_
      obtain ⟨hnames, hbodies⟩ := hsifts.isNamed (fun f hf => (hfields f hf).sifts true) k hk
      exact ⟨hnames, hbodies⟩

end Tree

end ProtobufSchema

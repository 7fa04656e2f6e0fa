import ProtobufSchema.Proofs.AssembledContents
import ProtobufSchema.Proofs.NamedContents

/-! The oneofs of assembled messages: first the written ones, then one for each explicitly optional
field. -/

namespace ProtobufSchema

open List
open Name (join)
open FieldDescriptor

variable {b : String × List Member}

namespace Tree

/-! ### Fields and oneofs in a text -/

/-- A field as it is declared: whether it is explicitly optional, and the position of the oneof that
it is written in. -/
structure Placement where
  name : String
  isOptional : Bool
  oneof? : Option Nat

def FieldMember.placement (dialect : Dialect) (oneof? : Option Nat) : FieldMember → Placement
  | .field f => ⟨f.name, dialect == .proto3 && f.label? == some .optional, oneof?⟩
  | .group g => ⟨groupFieldName g.name, false, oneof?⟩

namespace Member

def oneofNames : Member → List String
  | .oneof o => [o.name]
  | _ => []

/-- The fields that a member adds to a message with a number of oneofs. -/
def placements (dialect : Dialect) (oneofs : Nat) : Member → List Placement
  | .field f => [f.placement dialect none]
  | .map m => [⟨m.name, false, none⟩]
  | .oneof o => (o.members.filterMap OneofMember.field?).map (·.placement dialect (some oneofs))
  | _ => []

/-- The fields that members add to a message that has a number of oneofs before them. -/
def placementsFrom (dialect : Dialect) (oneofs : Nat) : List Member → List Placement
  | [] => []
  | m :: ms => m.placements dialect oneofs ++
    placementsFrom dialect (oneofs + m.oneofNames.length) ms

end Member

end Tree

/-! ### Fields and oneofs in a message -/

def FieldDescriptor.isExplicit (x : FieldDescriptor) : Bool := x.proto3Optional? = some true

/-- A message has the oneofs that were written, and has its fields where they were placed. -/
structure MessageDescriptor.HasOneofs (m : MessageDescriptor) (names : List String)
    (placed : List Tree.Placement) : Prop where
  fields : m.fields.map (fun x => (x.name, x.isExplicit)) =
    placed.map fun p => (p.name, p.isOptional)
  oneofs : ∃ made, m.oneofs.map (·.name) = names ++ made ∧
    List.Forall₂ (fun name (p : Tree.Placement) => ∃ k, name =
    Assembly.lettered k ("_" ++ p.name)) made
      (placed.filter (·.isOptional)) ∧
    made.Nodup ∧ ∀ name ∈ made, name ∉ names ∧ name ∉ m.fields.map (·.name) ∧
      name ∉ m.nestedTypes.map (·.name)
  written : (m.fields.filter (!·.isExplicit)).map (·.oneofIndex?) =
    (placed.filter (!·.isOptional)).map (·.oneof?.map Int32.ofNat)
  made : (m.fields.filter (·.isExplicit)).map (·.oneofIndex?) =
    (List.range' names.length (placed.filter (·.isOptional)).length).map fun i => some (.ofNat i)
  apart : ∀ p ∈ placed, ∀ i ∈ p.oneof?, i < names.length ∧ p.isOptional = false

namespace Tree

/-- A message agrees with its members, and so do all messages inside it with theirs. -/
inductive Agrees (dialect : Dialect) : List Member → MessageDescriptor → Prop
  | mk {ms : List Member} {m : MessageDescriptor}
    (own : m.HasOneofs (ms.flatMap Member.oneofNames) (Member.placementsFrom dialect 0 ms))
    (inRange : ∀ x ∈ m.fields, ∀ i ∈ x.oneofIndex?, ∃ k < m.oneofs.length, i = .ofNat k)
    (single : m.oneofs.length ≤ Path.reach → ∀ k, (ms.flatMap Member.oneofNames).length ≤ k →
      k < m.oneofs.length → m.fields.countP (·.oneofIndex? = some (.ofNat k)) = 1)
    (names : m.nestedTypes.map (·.name) = (ms.flatMap Member.bodies).map Prod.fst)
    (nested : List.Forall₂ (Agrees dialect) ((ms.flatMap Member.bodies).map Prod.snd)
      m.nestedTypes) :
    Agrees dialect ms m

end Tree

namespace MessageDescriptor.HasOneofs

variable {m : MessageDescriptor} {names : List String} {placed : List Tree.Placement}

section

variable (h : m.HasOneofs names placed)
include h

theorem length_oneofs : m.oneofs.length = names.length + (placed.filter (·.isOptional)).length := by
  obtain ⟨made, hmade, hfields, _⟩ := h.oneofs
  have hlength := congrArg length hmade
  rwa [length_map, length_append, hfields.length_eq] at hlength

theorem oneofIndex?_cases {x : FieldDescriptor} (hx : x ∈ m.fields) :
    (∃ k < names.length, x.oneofIndex? = some (.ofNat k)) ∨ x.oneofIndex? = none ∨
      ∃ k < m.oneofs.length, x.isExplicit = true ∧ x.oneofIndex? = some (.ofNat k) := by
  cases hexplicit : x.isExplicit with
  | true =>
    have hmem := mem_map_of_mem (f := (·.oneofIndex?)) (mem_filter.mpr ⟨hx, hexplicit⟩)
    rw [h.made] at hmem
    obtain ⟨k, hk, hindex⟩ := mem_map.mp hmem
    have hrange := mem_range'_1.mp hk
    exact .inr (.inr ⟨k, by rw [h.length_oneofs]; omega, rfl, hindex.symm⟩)
  | false =>
    have hfilter : x ∈ m.fields.filter (!·.isExplicit) := mem_filter.mpr ⟨hx, by simp [hexplicit]⟩
    have hmem := mem_map_of_mem (f := (·.oneofIndex?)) hfilter
    rw [h.written] at hmem
    obtain ⟨p, hp, hindex⟩ := mem_map.mp hmem
    cases honeof : p.oneof? with
    | none => exact .inr (.inl (by rw [← hindex, honeof]; rfl))
    | some k =>
      have hlt := (h.apart p (mem_filter.mp hp).1 k honeof).1
      exact .inl ⟨k, hlt, by rw [← hindex, honeof]; rfl⟩

theorem exists_index :
    ∀ x ∈ m.fields, ∀ i ∈ x.oneofIndex?, ∃ k < m.oneofs.length, i = .ofNat k := by
  intro x hx i hi
  have hlength := h.length_oneofs
  rcases h.oneofIndex?_cases hx with ⟨k, hk, hindex⟩ | hindex | ⟨k, hk, _, hindex⟩ <;>
    rw [hindex] at hi <;> cases hi
  · exact ⟨k, by omega, rfl⟩
  · exact ⟨k, hk, rfl⟩

theorem countP_made (hreach : m.oneofs.length ≤ Path.reach) (k : Nat)
    (hle : names.length ≤ k) (hlt : k < m.oneofs.length) :
    m.fields.countP (·.oneofIndex? = some (.ofNat k)) = 1 := by
  have hsame (j : Nat) (hj : j < m.oneofs.length) (heq : Int32.ofNat j = .ofNat k) : j = k :=
    Path.ofNat_injective (by omega) (by omega) heq
  have hmade : m.fields.countP (·.oneofIndex? = some (.ofNat k)) =
      (m.fields.filter (·.isExplicit)).countP (·.oneofIndex? = some (.ofNat k)) := by
    rw [countP_filter]
    refine countP_congr fun x hx => ?_
    simp only [decide_eq_true_eq, Bool.and_eq_true]
    refine ⟨fun hindex => ⟨hindex, ?_⟩, fun hindex => hindex.1⟩
    rcases h.oneofIndex?_cases hx with ⟨j, hj, hother⟩ | hother | ⟨_, _, hexplicit, _⟩
    · have := hsame j (by omega) (Option.some.inj (hother.symm.trans hindex))
      omega
    · rw [hindex] at hother
      cases hother
    · exact hexplicit
  have hcount := congrArg (countP (· = some (.ofNat k))) h.made
  rw [countP_map, countP_map] at hcount
  have hrange : k ∈ range' names.length (placed.filter (·.isOptional)).length := by
    rw [mem_range'_1, ← h.length_oneofs]
    exact ⟨hle, hlt⟩
  rw [hmade]
  refine hcount.trans
    (.trans (countP_congr fun i hi => ?_) (count_eq_one_of_mem nodup_range' hrange))
  have hi := mem_range'_1.mp hi
  rw [← h.length_oneofs] at hi
  simp only [Function.comp_def, decide_eq_true_eq, Option.some_inj, beq_iff_eq]
  exact ⟨hsame i hi.2, fun heq => by rw [heq]⟩

end

theorem withOptionalOneofs (honeofs : m.oneofs.map (·.name?) = names.map some)
    (hfields : m.fields.map (fun x => (x.name, x.isExplicit, x.oneofIndex?)) =
      placed.map fun p => (p.name, p.isOptional, p.oneof?.map Int32.ofNat))
    (hapart : ∀ p ∈ placed, ∀ i ∈ p.oneof?, i < names.length ∧ p.isOptional = false) :
    m.withOptionalOneofs.HasOneofs names placed := by
  have hkept {β : Type} (g : FieldDescriptor → β)
      (hg : ∀ (f : FieldDescriptor) (index? : Option Int32),
      g { f with oneofIndex? := index? } = g f) :
      m.withOptionalOneofs.fields.map g = m.fields.map g :=
        Assembly.addOptionalOneofs_fields hg _ _ _
  have hplaced {β : Type} (q : Bool → Bool) (g : String × Option Int32 → β) :
      (m.fields.filter (q ·.isExplicit)).map (fun x => g (x.name, x.oneofIndex?)) =
        (placed.filter (q ·.isOptional)).map fun p => g (p.name, p.oneof?.map .ofNat) := by
    have hview :=
      congrArg (fun xs => (xs.filter fun x => q x.2.1).map fun x => g (x.1, x.2.2)) hfields
    simpa only [filter_map, map_map, Function.comp_def] using hview
  have hnames : m.oneofs.filterMap (·.name?) = names := by
    have hmapped := congrArg (filterMap id) honeofs
    simpa using hmapped
  obtain ⟨made, hmade, hletters, hnodup, hfresh⟩ :=
    Assembly.addOptionalOneofs_oneofs (Assembly.namesInUse m) m.oneofs m.fields
  obtain ⟨hother, hindices⟩ :=
    Assembly.addOptionalOneofs_indices (Assembly.namesInUse m) m.oneofs m.fields
  refine ⟨?_, ⟨made, ?_, ?_, hnodup, fun name hname => ?_⟩, ?_, ?_, hapart⟩
  · rw [hkept _ fun _ _ => rfl]
    have hview := congrArg (map fun x => (x.1, x.2.1)) hfields
    simpa only [map_map, Function.comp_def] using hview
  · have hwritten := congrArg (map fun name? => name?.getD "") honeofs
    rw [MessageDescriptor.withOptionalOneofs]
    dsimp only
    rw [hmade]
    simpa [Function.comp_def, OneofDescriptor.name] using hwritten
  · have hoptional := hplaced id Prod.fst
    have hmapped := (forall₂_map_right_iff
      (R := fun name s => ∃ k, name = Assembly.lettered k ("_" ++ s))).mpr hletters
    exact forall₂_map_right_iff.mp (hoptional ▸ hmapped)
  · have hapart := hfresh name hname
    rw [Assembly.namesInUse, hnames, mem_append, mem_append, not_or, not_or] at hapart
    exact ⟨hapart.2, by rw [hkept _ fun _ _ => rfl]; exact hapart.1.1, hapart.1.2⟩
  · have hnot : (fun x : FieldDescriptor => !x.isExplicit) =
        fun x => decide (x.proto3Optional? ≠ some true) := by
      simp [isExplicit]
    have hwritten := hplaced (!·) Prod.snd
    rw [hnot] at hwritten ⊢
    rw [← hother] at hwritten
    exact hwritten
  · have hcount : (m.fields.filter (·.isExplicit)).length =
        (placed.filter (·.isOptional)).length := by
      simpa using congrArg length (hplaced id Prod.fst)
    have hlength : m.oneofs.length = names.length := by simpa using congrArg length honeofs
    rw [← hlength, ← hcount]
    exact hindices

end MessageDescriptor.HasOneofs

/-! ### What declarations come to -/

def Block.position? : Block → Option Nat
  | .oneof i => some i
  | .extend _ => none

namespace Tree

variable (block? : Option Block) (k : Nat)

/-- A message is what its members come to, or what is made for a map. -/
inductive IsBody (dialect : Dialect) (scope : String) :
  String × List Member → MessageDescriptor → Prop
  | declared (name : String) (ms : List Member) :
    IsBody dialect scope (name, ms)
    ((Member.contentsFrom dialect (join scope name) 0 ms).message name)
  | entry (m : MapField) :
    IsBody dialect scope (Name.mapEntryName m.name, m.members) (Assembly.mapEntry m)

/-- Contents with the oneofs and fields of declarations, and with the messages that these bring. -/
structure Shows (dialect : Dialect) (scope : String) (c : Contents) (names : List String)
    (placed : List Placement) (bodies : List (String × List Member)) : Prop where
  oneofs : c.oneofs.map (·.name?) = names.map some
  fields : c.fields.map (fun x => (x.name, x.isExplicit, x.oneofIndex?)) =
    placed.map fun p => (p.name, p.isOptional, p.oneof?.map Int32.ofNat)
  messages : List.Forall₂ (IsBody dialect scope) bodies c.messages

variable {dialect : Dialect} {scope : String}

theorem Shows.append {c c' : Contents} {names names' : List String}
    {placed placed' : List Placement} {bodies bodies' : List (String × List Member)}
    (h : Shows dialect scope c names placed bodies)
    (h' : Shows dialect scope c' names' placed' bodies') :
    Shows dialect scope (c ++ c') (names ++ names') (placed ++ placed') (bodies ++ bodies') where
  oneofs := by rw [map_append, ← h.oneofs, ← h'.oneofs, ← map_append]; rfl
  fields := by rw [map_append, ← h.fields, ← h'.fields, ← map_append]; rfl
  messages := rel_append h.messages h'.messages

theorem Shows.empty : Shows dialect scope {} [] [] [] := ⟨rfl, rfl, .nil⟩

theorem shows_ofField {x : FieldDescriptor} {name : String} {isOptional : Bool}
    (hname : x.name = name) (hindex : x.oneofIndex? = none)
    (hexplicit : block?.any Block.isExtend = false → x.isExplicit = isOptional) :
    Shows dialect scope (.ofField block? (x.inBlock block?)) []
      (if block?.any Block.isExtend then [] else [⟨name, isOptional, block?.bind Block.position?⟩])
        [] := by
  subst hname
  match block? with
  | none => exact ⟨rfl, by simp [Contents.ofField, inBlock, hindex, ← hexplicit rfl], .nil⟩
  | some (.extend _) => exact ⟨rfl, rfl, .nil⟩
  | some (.oneof _) =>
    refine ⟨rfl, ?_, .nil⟩
    simp only [← hexplicit rfl]
    rfl

theorem FieldMember.shows (f : FieldMember) :
    Shows dialect scope (f.contents dialect scope block?) []
      (if block?.any
        Block.isExtend then [] else [f.placement dialect (block?.bind Block.position?)])
      f.bodies := by
  cases f with
  | field f =>
    refine shows_ofField block? rfl rfl fun hplain => ?_
    simp only [hplain]
    cases dialect == .proto3 && f.label? == some .optional <;> rfl
  | group g =>
    obtain ⟨label?, name, number, options, ms, span, comment?⟩ := g
    have hfield : Shows dialect scope
        (.ofField block? (groupField scope block? label? name number options)) []
        (if block?.any
        Block.isExtend then [] else [⟨groupFieldName name, false, block?.bind Block.position?⟩])
        [] := shows_ofField block? rfl rfl fun _ => rfl
    have hbody : Shows dialect scope
        { messages := [(Member.contentsFrom dialect (join scope name) 0 ms).message name] } [] []
        [(name, ms)] := ⟨rfl, rfl, .cons (.declared name ms) .nil⟩
    have hboth := hfield.append hbody
    simp only [append_nil] at hboth
    exact hboth

theorem FieldMember.shows_extensions (extendee : String) (fs : List FieldMember) :
    Shows dialect scope (contentsOf dialect scope (some (.extend extendee)) fs) [] []
      (fs.flatMap bodies) := by
  induction fs with
  | nil => exact .empty
  | cons f fs ih => exact (f.shows (some (.extend extendee))).append ih

theorem OneofMember.shows (i : Nat) (ms : List OneofMember) :
    Shows dialect scope (contentsOf dialect scope i ms) []
      ((ms.filterMap field?).map (·.placement dialect (some i)))
      ((ms.filterMap field?).flatMap FieldMember.bodies) := by
  induction ms with
  | nil => exact .empty
  | cons m ms ih =>
    cases m with
    | field f => exact (f.shows (some (.oneof i))).append ih
    | option a => exact ih

theorem Member.shows (m : Member) :
    Shows dialect scope (m.contents dialect scope k) m.oneofNames (m.placements dialect k)
      m.bodies := by
  cases m with
  | field f => exact f.shows none
  | map m => exact ⟨rfl, rfl, .cons (.entry m) .nil⟩
  | oneof o =>
    obtain ⟨name, ms, span⟩ := o
    have hname :
        Shows dialect scope { oneofs := [oneofOf name (ms.flatMap OneofMember.raws)] } [name] []
        [] := ⟨rfl, rfl, .nil⟩
    exact hname.append (OneofMember.shows k ms)
  | message m =>
    obtain ⟨name, ms, span, comment?⟩ := m
    exact ⟨rfl, rfl, .cons (.declared name ms) .nil⟩
  | extend x =>
    obtain ⟨extendee, fields, span⟩ := x
    exact FieldMember.shows_extensions extendee fields
  | _ => exact ⟨rfl, rfl, .nil⟩

theorem Member.shows_contentsFrom (ms : List Member) :
    Shows dialect scope (contentsFrom dialect scope k ms) (ms.flatMap oneofNames)
      (placementsFrom dialect k ms) (ms.flatMap bodies) := by
  induction ms generalizing k with
  | nil => exact .empty
  | cons m ms ih =>
    have hm : Shows dialect scope (m.contents dialect scope k) _ _ _ := m.shows k
    have hlength : (m.contents dialect scope k).oneofs.length = m.oneofNames.length := by
      simpa using congrArg length hm.oneofs
    rw [contentsFrom, hlength]
    exact hm.append (ih _)

theorem Item.shows (items : List Item) :
    Shows dialect scope (.all (contents dialect scope) items) [] []
      (items.flatMap bodies) := by
  induction items with
  | nil => exact .empty
  | cons i items ih =>
    have hitem : Shows dialect scope (i.contents dialect scope) [] [] i.bodies := by
      cases i with
      | message m => exact ⟨rfl, rfl, .cons (.declared m.name m.members) .nil⟩
      | extend x => exact FieldMember.shows_extensions x.extendee x.fields
      | _ => exact ⟨rfl, rfl, .nil⟩
    exact hitem.append ih

theorem Member.IsNamed.placements {m : Member} (h : m.IsNamed) {j : Nat} :
    ∀ p ∈ m.placements dialect j,
    ∀ i ∈ p.oneof?, m.oneofNames.length = 1 ∧ i = j ∧ p.isOptional = false := by
  obtain ⟨_, hlabels, _⟩ := h
  cases m with
  | field f =>
    refine forall_mem_singleton.mpr fun i hi => ?_
    cases f <;> cases hi
  | map => exact forall_mem_singleton.mpr (by nofun)
  | oneof o =>
    refine forall_mem_map.mpr fun f hf i hi => ⟨rfl, ?_, ?_⟩
    · cases f <;> exact (Option.some.inj hi).symm
    · obtain ⟨_ | _, hx, hfield⟩ := mem_filterMap.mp hf <;> cases hfield
      have hlabel := hlabels o rfl f hx
      cases f with
      | field f =>
        have hnone : f.label? = none := hlabel
        simp [FieldMember.placement, hnone]
      | group => rfl
  | message | enum | extend | extensions | reserved | option => nofun

theorem Member.mem_placementsFrom {k : Nat} {ms : List Member} {p : Placement}
    (h : p ∈ placementsFrom dialect k ms) : ∃ m ∈ ms, ∃ j, p ∈ m.placements dialect j ∧
      j + m.oneofNames.length ≤ k + (ms.flatMap oneofNames).length := by
  induction ms generalizing k with
  | nil => cases h
  | cons m ms ih =>
    rw [flatMap_cons, length_append]
    rcases mem_append.mp h with h | h
    · exact ⟨m, .head _, k, h, by omega⟩
    · obtain ⟨m', hm', j, hp, hle⟩ := ih h
      exact ⟨m', .tail _ hm', j, hp, by omega⟩

variable {ms : List Member}

theorem Member.apart (h : ∀ m ∈ ms, m.IsNamed) : ∀ p ∈ placementsFrom dialect 0 ms, ∀ i ∈ p.oneof?,
    i < (ms.flatMap oneofNames).length ∧ p.isOptional = false := by
  intro p hp i hi
  obtain ⟨m, hm, j, hp, hle⟩ := mem_placementsFrom hp
  obtain ⟨hlength, rfl, hoptional⟩ := (h m hm).placements p hp i hi
  exact ⟨by omega, hoptional⟩

theorem IsBody.name_eq {m : MessageDescriptor} (h : IsBody dialect scope b m) : m.name = b.1 := by
  cases h <;> rfl

theorem IsBody.spec {m : MessageDescriptor} (h : IsBody dialect scope b m)
    (hnamed : ∀ x ∈ b.2, x.IsNamed) :
    m.HasOneofs (b.2.flatMap Member.oneofNames) (Member.placementsFrom dialect 0 b.2) ∧
      ∃ inner, List.Forall₂ (IsBody dialect inner) (b.2.flatMap Member.bodies) m.nestedTypes := by
  cases h with
  | declared name ms =>
    have hshows : Shows dialect (join scope name)
        (Member.contentsFrom dialect (join scope name) 0 ms) _ _ _ :=
      Member.shows_contentsFrom 0 ms
    exact ⟨.withOptionalOneofs hshows.oneofs hshows.fields (Member.apart hnamed), _,
      hshows.messages⟩
  | entry m =>
    refine ⟨⟨?_, ⟨[], rfl, ?_, .nil, by nofun⟩, ?_, ?_, Member.apart hnamed⟩, scope, .nil⟩
    all_goals cases dialect <;> first | rfl | exact .nil

end Tree

/-! ### Files up to their types -/

namespace MessageDescriptor

variable {m m' : MessageDescriptor} {scope : String}

theorem of_untyped_eq
    (h : m'.mapFields (fun _ => untyped) scope = m.mapFields (fun _ => untyped) scope) :
    m'.name = m.name ∧ m'.oneofs = m.oneofs ∧ m'.fields.map untyped = m.fields.map untyped ∧
      m'.nestedTypes.map (mapFields (fun _ => untyped) (join scope m.name)) =
        m.nestedTypes.map (mapFields (fun _ => untyped) (join scope m.name)) := by
  cases m
  cases m'
  simp only [mapFields, mapNestedFields_eq, mk.injEq] at h
  obtain ⟨rfl, hfields, _, hnested, _, _, honeofs, _⟩ := h
  exact ⟨rfl, honeofs, hfields, hnested⟩

theorem HasOneofs.of_untyped_eq {names : List String} {placed : List Tree.Placement}
    (h : m.HasOneofs names placed) (heq : m'.mapFields (fun _ => untyped) scope =
      m.mapFields (fun _ => untyped) scope) : m'.HasOneofs names placed := by
  obtain ⟨_, honeofs, hfields, hnested⟩ := MessageDescriptor.of_untyped_eq heq
  have hview {β : Type} (q : Bool → Bool) (g : FieldDescriptor → β) (hg : ∀ x, g x.untyped = g x) :
      (m'.fields.filter (q ·.isExplicit)).map g = (m.fields.filter (q ·.isExplicit)).map g := by
    have hmapped := congrArg (fun xs => (xs.filter (q ·.isExplicit)).map g) hfields
    simp only [filter_map, map_map, Function.comp_def, hg] at hmapped
    exact hmapped
  have hall {β : Type} (g : FieldDescriptor → β) (hg : ∀ x, g x.untyped = g x) :
      m'.fields.map g = m.fields.map g := by simpa using hview (fun _ => true) g hg
  have hnames : m'.nestedTypes.map (·.name) = m.nestedTypes.map (·.name) := by
    have hmapped := congrArg (map (·.name)) hnested
    simpa only [map_map, Function.comp_def, name_mapFields] using hmapped
  exact
    { fields := by rw [hall _ fun _ => rfl, h.fields]
      oneofs := by rw [honeofs, hall _ fun _ => rfl, hnames]; exact h.oneofs
      written := by rw [hview (!·) _ fun _ => rfl, h.written]
      made := (hview id _ fun _ => rfl).trans h.made
      apart := h.apart }

end MessageDescriptor

namespace Tree

variable {dialect : Dialect}
variable {α β : Type}

theorem forall₂_of_map_eq {γ : Type} {R S : α → β → Prop} {g : β → γ} {xs : List α} {ys zs : List β}
    (h : Forall₂ R xs ys) (heq : zs.map g = ys.map g)
    (hstep : ∀ x ∈ xs, ∀ z ∈ zs, ∀ y, R x y → g z = g y → S x z) : Forall₂ S xs zs := by
  induction h generalizing zs with
  | nil => rw [map_eq_nil_iff.mp heq]; exact .nil
  | cons hxy _ ih =>
    obtain ⟨z, zs, rfl, hz, hzs⟩ := map_eq_cons_iff.mp heq
    refine .cons (hstep _ (.head _) z (.head _) _ hxy hz) (ih hzs fun x hx z hz => ?_)
    exact hstep x (.tail _ hx) z (.tail _ hz)

theorem map_name_eq {bs : List (String × List Member)} {ms : List MessageDescriptor}
    (h : Forall₂ (fun b m => m.name = b.1) bs ms) : ms.map (·.name) = bs.map Prod.fst := by
  induction h with
  | nil => rfl
  | cons hname _ ih => rw [map_cons, map_cons, hname, ih]

/-- Up to their types, messages are what is kept of members. So they agree with the members. -/
theorem IsBody.agrees {m m' : MessageDescriptor} {scope outer : String}
    (h : IsBody dialect scope b m) (hnamed : ∀ x ∈ b.2, x.IsNamed)
    (heq : m'.mapFields (fun _ => untyped) outer =
      m.mapFields (fun _ => untyped) outer) : m'.name = b.1 ∧ Agrees dialect b.2 m' := by
  induction m' using MessageDescriptor.induction generalizing m b scope outer with
  | _ m' ih =>
    obtain ⟨hown, inner, hbodies⟩ := h.spec hnamed
    have hown := hown.of_untyped_eq heq
    obtain ⟨hname, _, _, hnested⟩ := MessageDescriptor.of_untyped_eq heq
    have hinner : ∀ c ∈ b.2.flatMap Member.bodies, ∀ x ∈ c.2, x.IsNamed :=
      forall_mem_flatMap.mpr fun m hm => (hnamed m hm).bodies
    have hinside :
        Forall₂ (fun b x => x.name = b.1 ∧ Agrees dialect b.2 x) (b.2.flatMap Member.bodies)
        m'.nestedTypes := forall₂_of_map_eq hbodies hnested fun b hb x hx _ hbody heq =>
      ih x hx hbody (hinner b hb) heq
    refine ⟨hname.trans h.name_eq, ⟨hown, hown.exists_index, hown.countP_made, ?_, ?_⟩⟩
    · exact map_name_eq (hinside.imp fun _ _ h => h.1)
    · exact forall₂_map_left_iff.mpr (hinside.imp fun _ _ h => h.2)

/-- The message types of a file are declared by its items, and agree with their members. -/
structure File.Agrees (kept : File) (f : FileDescriptor) : Prop where
  names : f.messageTypes.map (·.name) = (kept.items.flatMap Item.bodies).map Prod.fst
  messages : List.Forall₂ (Tree.Agrees kept.dialect) ((kept.items.flatMap Item.bodies).map Prod.snd)
    f.messageTypes

theorem File.Sifts.agrees {tree kept : File} {name : String} {f : FileDescriptor}
    (h : tree.Sifts kept) (hwritten : tree.IsWritten)
    (heq : f.untyped = (kept.descriptor name).untyped) : kept.Agrees f := by
  have hinner : ∀ b ∈ kept.items.flatMap Item.bodies, ∀ x ∈ b.2, x.IsNamed :=
    forall_mem_flatMap.mpr fun i hi => (hwritten.sifts h i hi).bodies
  have hpackage : f.untyped.package = (kept.descriptor name).untyped.package := by rw [heq]
  have hmessages : f.messageTypes.map (·.mapFields (fun _ => untyped) f.package) =
      (kept.descriptor name).messageTypes.map
        (·.mapFields (fun _ => untyped) (kept.descriptor name).package) :=
    congrArg FileDescriptor.messageTypes heq
  rw [show f.package = _ from hpackage] at hmessages
  have hbodies : Forall₂ (IsBody kept.dialect (Assembly.header name kept).package)
      (kept.items.flatMap Item.bodies) (kept.descriptor name).messageTypes :=
      (Item.shows kept.items).messages
  have hagree : Forall₂ (fun b x => x.name = b.1 ∧ Tree.Agrees kept.dialect b.2 x)
      (kept.items.flatMap Item.bodies) f.messageTypes :=
    forall₂_of_map_eq hbodies hmessages fun b hb x _ _ hbody heq => hbody.agrees (hinner b hb) heq
  exact ⟨map_name_eq (hagree.imp fun _ _ h => h.1),
    forall₂_map_left_iff.mpr (hagree.imp fun _ _ h => h.2)⟩

end Tree

/-- In every message that is assembled from a text, the oneofs that were written come first, and
then one for each explicitly optional field. The name that is looked for with letters X in front is
found, whichever names are in use. -/
theorem oneofs_consistent {text name : String} {tree : Tree.File} {built : Assembled}
    {before after : Log} (hparse : Tree.File.parse text = .ok tree)
    (hbuilt : tree.assemble name before = .ok built after) :
    (∃ kept, tree.Sifts kept ∧ kept.Agrees built.file) ∧
      ∀ (used : List String) (wanted : String), ∃ k, Assembly.freshName used used.length wanted =
        Assembly.lettered k wanted ∧ Assembly.lettered k wanted ∉ used ∧
        ∀ i < k, Assembly.lettered i wanted ∈ used := by
  obtain ⟨kept, hsifts, huntyped, _⟩ := Tree.File.exists_kept hparse hbuilt
  refine ⟨⟨kept, hsifts, hsifts.agrees (Tree.File.parse_isWritten hparse) huntyped⟩,
    fun used wanted => ?_⟩
  exact Assembly.freshName_of_le used (length_filter_le _ _)

namespace Optional

/-- Fields in oneofs and explicitly optional ones, with the names that would be given to oneofs in
use. -/
def text : String :=
  "syntax = 'proto3'; message M { optional int32 a = 1; oneof _b { M c = 2; } optional M b = 3;
  message _a {} map<int32, M> X_a = 4; }"

set_option maxRecDepth 100000 in
theorem exists_assembled : ∃ tree built after m, Tree.File.parse text = .ok tree ∧
    tree.assemble "a.proto" .empty = .ok built after ∧ built.file.messageTypes = [m] ∧
    m.fields.map (·.oneofIndex?) = [some 1, some 0, some 2, none] ∧
    m.oneofs.map (·.name) = ["_b", "XX_a", "X_b"] ∧ m.enumTypes = [] ∧ m.extensions = [] := by
  have hrun :
      (Tree.File.assembling? text "a.proto").any (fun x => x.2.1.file.messageTypes.length == 1 &&
      x.2.1.file.messageTypes.all fun m => m.fields.map (·.oneofIndex?) ==
      [some 1, some 0, some 2, none] &&
        m.oneofs.map (·.name) == ["_b", "XX_a", "X_b"] && m.enumTypes.isEmpty &&
            m.extensions.isEmpty) = true :=
    Tree.File.any_assembling?_ofList (by decide +kernel)
  obtain ⟨tree, built, after, hparse, hbuilt, hrun⟩ := Tree.File.exists_of_assembling? hrun
  obtain ⟨hlength, hall⟩ := Bool.and_eq_true_iff.mp hrun
  obtain ⟨m, hm⟩ := length_eq_one_iff.mp (beq_iff_eq.mp hlength)
  have hrest := all_eq_true.mp hall m (hm ▸ mem_singleton_self m)
  simp only [Bool.and_eq_true, List.isEmpty_iff, beq_iff_eq, and_assoc] at hrest
  exact ⟨tree, built, after, m, hparse, hbuilt, hm, hrest⟩

theorem oneofs_consistent_optional : ∃ tree built after m, Tree.File.parse text = .ok tree ∧
    tree.assemble "a.proto" .empty = .ok built after ∧ built.file.messageTypes = [m] ∧
    m.fields.map (·.oneofIndex?) = [some 1, some 0, some 2, none] ∧
    m.oneofs.map (·.name) = ["_b", "XX_a", "X_b"] ∧ ∃ kept, tree.Sifts kept ∧
    kept.Agrees built.file := by
  obtain ⟨tree, built, after, m, hparse, hbuilt, hm, hindices, hnames, _⟩ := exists_assembled
  exact ⟨tree, built, after, m, hparse, hbuilt, hm, hindices, hnames,
    (oneofs_consistent hparse hbuilt).1⟩

end Optional

/-! ### Names of oneofs -/

namespace MessageDescriptor

/-- The oneofs that were made for explicitly optional fields. -/
def madeOneofs (m : MessageDescriptor) : List OneofDescriptor :=
  m.oneofs.drop m.writtenOneofs.length

inductive Inside (x : MessageDescriptor) : MessageDescriptor → Prop
  | self : Inside x x
  | nested {m n : MessageDescriptor} (hn : n ∈ m.nestedTypes) (h : Inside x n) : Inside x m

variable {m x : MessageDescriptor} {dialect : Dialect} {ms : List Tree.Member}

theorem Inside.agrees (h : Inside x m) (hm : Tree.Agrees dialect ms m) :
    ∃ ms, Tree.Agrees dialect ms x := by
  induction h generalizing ms with
  | self => exact ⟨ms, hm⟩
  | @nested m n hn _ ih =>
    cases hm with
    | mk _ _ _ _ hnested =>
      obtain ⟨_, _, hagrees⟩ := exists_of_forall₂ hnested hn
      exact ih hagrees

theorem Inside.isDistinct (h : Inside x m) (hm : m.IsDistinct) : x.IsDistinct := by
  induction h with
  | self => exact hm
  | nested hn _ ih => cases hm with | mk _ _ hnested => exact ih (hnested _ hn)

theorem HasOneofs.madeOneofs {names : List String} {placed : List Tree.Placement}
    (h : m.HasOneofs names placed) : (m.madeOneofs.map (·.name)).Nodup ∧
      ∀ name ∈ m.madeOneofs.map (·.name), name ∉ m.writtenOneofs.map (·.name) ∧
        name ∉ m.fields.map (·.name) ∧ name ∉ m.nestedTypes.map (·.name) := by
  obtain ⟨made, hmade, _, hnodup, hapart⟩ := h.oneofs
  have hcount : (m.fields.filter (·.isExplicit)).length =
      (placed.filter (·.isOptional)).length := by
    simpa using congrArg length h.made
  have hwritten : m.writtenOneofs = m.oneofs.take names.length := by
    refine (congrArg (fun count => m.oneofs.take (m.oneofs.length - count)) hcount).trans ?_
    rw [h.length_oneofs, Nat.add_sub_cancel]
  have hlength : m.writtenOneofs.length = names.length := by
    rw [hwritten, length_take, h.length_oneofs]
    omega
  rw [MessageDescriptor.madeOneofs, hlength, hwritten, map_drop, map_take, hmade, take_left,
    drop_left]
  exact ⟨hnodup, hapart⟩

end MessageDescriptor

/-- A oneof that is made for a field never has the name of a field, of a nested message or of
another oneof. The names in the scope of a message are all distinct if and only if none of these
oneofs has the name of an extension, an enum or a value of an enum. -/
theorem made_oneofs_apart_iff {text name : String} {tree : Tree.File} {built : Assembled}
    {before after : Log} (hparse : Tree.File.parse text = .ok tree)
    (hbuilt : tree.assemble name before = .ok built after) {top m : MessageDescriptor}
    (htop : top ∈ built.file.messageTypes) (hm : m.Inside top) :
    (m.madeOneofs.map (·.name)).Nodup ∧
    (∀ made ∈ m.madeOneofs.map (·.name), made ∉ m.writtenOneofs.map (·.name) ∧
      made ∉ m.fields.map (·.name) ∧ made ∉ m.nestedTypes.map (·.name)) ∧
    ((m.scopeNames ++ m.madeOneofs.map (·.name)).Nodup ↔ ∀ made ∈ m.madeOneofs.map (·.name),
      made ∉ m.extensions.map (·.name) ∧ made ∉ m.enumTypes.flatMap (·.scopeNames)) := by
  obtain ⟨kept, hsifts, huntyped, hdistinct⟩ := Tree.File.exists_kept hparse hbuilt
  have hfile := hsifts.agrees (Tree.File.parse_isWritten hparse) huntyped
  obtain ⟨_, _, htopAgrees⟩ := exists_of_forall₂ hfile.messages htop
  obtain ⟨_, hagrees⟩ := hm.agrees htopAgrees
  cases hm.isDistinct (hdistinct.messages top htop) with
  | mk hnames _ _ =>
    cases hagrees with
    | mk hown _ _ _ _ =>
      obtain ⟨hnodup, hapart⟩ := hown.madeOneofs
      refine ⟨hnodup, hapart, ?_⟩
      rw [nodup_append', List.disjoint_comm]
      constructor
      · intro h made hmade
        have hnot : made ∉ m.scopeNames := h.2.2 hmade
        simp only [MessageDescriptor.scopeNames, mem_append, not_or] at hnot
        exact ⟨hnot.1.1.1.2, hnot.2⟩
      · refine fun h => ⟨hnames, hnodup, fun made hmade => (?_ : made ∉ m.scopeNames)⟩
        simp only [MessageDescriptor.scopeNames, mem_append, not_or]
        exact ⟨⟨⟨⟨(hapart made hmade).2.1, (h made hmade).1⟩, (hapart made hmade).1⟩,
          (hapart made hmade).2.2⟩, (h made hmade).2⟩

theorem Optional.made_oneofs_apart_optional :
    ∃ tree built after m, Tree.File.parse text = .ok tree ∧
    tree.assemble "a.proto" .empty = .ok built after ∧ built.file.messageTypes = [m] ∧
    m.oneofs.map (·.name) = ["_b", "XX_a", "X_b"] ∧
    (m.scopeNames ++ m.madeOneofs.map (·.name)).Nodup := by
  obtain ⟨tree, built, after, m, hparse, hbuilt, hm, _, hnames, henums, hextensions⟩ :=
    exists_assembled
  refine ⟨tree, built, after, m, hparse, hbuilt, hm, hnames, ?_⟩
  refine (made_oneofs_apart_iff hparse hbuilt (by rw [hm]; exact .head _) .self).2.2.mpr
    fun made _ => ?_
  simp [henums, hextensions]

namespace OptionalClash

/-- The enum has the name that the oneof for the field is given. -/
def text : String := "syntax = \"proto3\"; message M { optional int32 a = 1; enum _a { Z = 0; } }"

set_option maxRecDepth 100000 in
theorem made_oneof_named_like_enum : ∃ tree built m, Tree.File.parse text = .ok tree ∧
    tree.assemble "a.proto" .empty = .ok built .empty ∧ m ∈ built.file.messageTypes ∧
    m.madeOneofs.map (·.name) = ["_a"] ∧ m.enumTypes.map (·.name) = ["_a"] := by
  have hrun :
      (Tree.File.assembling? text "a.proto").any (fun (_, built, after) => after == .empty &&
      built.file.messageTypes.any fun m => m.madeOneofs.map (·.name) == ["_a"] &&
        m.enumTypes.map (·.name) == ["_a"]) = true :=
        Tree.File.any_assembling?_ofList (by decide +kernel)
  obtain ⟨tree, built, after, hparse, hbuilt, hrun⟩ := Tree.File.exists_of_assembling? hrun
  obtain ⟨hquiet, hrun⟩ := Bool.and_eq_true_iff.mp hrun
  obtain ⟨m, hm, hrun⟩ := any_eq_true.mp hrun
  obtain ⟨hmade, henum⟩ := Bool.and_eq_true_iff.mp hrun
  obtain rfl := eq_of_beq hquiet
  exact ⟨tree, built, m, hparse, hbuilt, hm, eq_of_beq hmade, eq_of_beq henum⟩

end OptionalClash

end ProtobufSchema

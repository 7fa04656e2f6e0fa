import ProtobufSchema.Proofs.Mentions

/-! Elements that are open while a file is assembled. A frame counts what was opened under each tag,
so the path of a child is the place it will have. -/

namespace ProtobufSchema

open List hiding head
open Name (join)

variable {raw : RawOption} (scope : String)

inductive Use where
  | field (type? : Option FieldType) (typeName? extendee? : Option String)
  | method (inputType? outputType? : Option String)

def FieldDescriptor.use (f : FieldDescriptor) : Use := .field f.type? f.typeName? f.extendee?

def MethodDescriptor.use (m : MethodDescriptor) : Use := .method m.inputType? m.outputType?

def Placed.map {α β : Type} (g : α → β) (w : Placed α) : Placed β :=
  ⟨w.path, w.scope, w.written, g w.value⟩

def Placed.useMentions (w : Placed Use) : List Mention :=
  match w.value with
  | .field type? typeName? extendee? =>
    (w.mention? .fieldType (if type?.isNone then typeName? else none)).toList ++
      (w.mention? .extendee extendee?).toList
  | .method inputType? outputType? =>
    (w.mention? .methodInput inputType?).toList ++ (w.mention? .methodOutput outputType?).toList

namespace Element

inductive Head where
  | file (package : String)
  | message (name : String) (isMapEntry : Bool)
  | field (name : String) (use : Use)
  | enum (name : String)
  | enumValue
  | service (name : String)
  | method (use : Use)
  | oneof
  | extensionRange
  | option

def head : Element → Head
  | file f => .file f.package
  | message m => .message m.name m.isMapEntry
  | field f => .field f.name f.use
  | enum e => .enum e.name
  | enumValue _ => .enumValue
  | service s => .service s.name
  | method m => .method m.use
  | oneof _ => .oneof
  | extensionRange _ => .extensionRange
  | option _ => .option

def size : Element → Tag → Nat
  | file f, .fileMessage => f.messageTypes.length
  | file f, .fileEnum => f.enumTypes.length
  | file f, .fileService => f.services.length
  | file f, .fileExtension => f.extensions.length
  | message m, .messageField => m.fields.length
  | message m, .messageNested => m.nestedTypes.length
  | message m, .messageEnum => m.enumTypes.length
  | message m, .messageRange => m.extensionRanges.length
  | message m, .messageExtension => m.extensions.length
  | enum e, .enumValue => e.values.length
  | service s, .serviceMethod => s.methods.length
  | _, _ => 0

section Contents

variable (scope : String) (path : Path)

/-- What is said about types in an element that is open at a path, where names are written in a
scope. -/
def uses : Element → List (Placed Use)
  | file f =>
    (Placed.listed scope scope path .fileExtension f.extensions ++
        MessageDescriptor.placedFieldsFrom scope path .fileMessage 0 f.messageTypes).map
          (Placed.map FieldDescriptor.use) ++
      (f.services.mapIdx fun i s => Placed.listed (join scope s.name) (join scope s.name)
        (path ++ [Tag.fileService.step, .ofNat i]) .serviceMethod s.methods).flatten.map
          (Placed.map MethodDescriptor.use)
  | message m =>
    (Placed.listed scope scope path .messageField m.fields ++
      Placed.listed scope scope path .messageExtension m.extensions ++
      MessageDescriptor.placedFieldsFrom scope path .messageNested 0 m.nestedTypes).map
        (Placed.map FieldDescriptor.use)
  | service s =>
    (Placed.listed scope scope path .serviceMethod s.methods).map (Placed.map MethodDescriptor.use)
  | _ => []

def names : Element → List (String × Definition)
  | file f =>
    MessageDescriptor.definitionsFrom scope path .fileMessage 0 f.messageTypes ++
      Definition.listed scope path .fileEnum .enum EnumDescriptor.name f.enumTypes ++
      Definition.listed scope path .fileService .service ServiceDescriptor.name f.services ++
      Definition.listed scope path .fileExtension .extension FieldDescriptor.name f.extensions
  | message m =>
    MessageDescriptor.definitionsFrom scope path .messageNested 0 m.nestedTypes ++
      Definition.listed scope path .messageEnum .enum EnumDescriptor.name m.enumTypes ++
      Definition.listed scope path .messageExtension .extension FieldDescriptor.name m.extensions
  | _ => []

def childUses : Element → List (Placed Use)
  | field x => [⟨path, scope, scope, x.use⟩]
  | method x => [⟨path, scope, scope, x.use⟩]
  | message m => (m.placedFields scope path).map (Placed.map FieldDescriptor.use)
  | service s =>
    (Placed.listed (join scope s.name) (join scope s.name) path .serviceMethod s.methods).map
      (Placed.map MethodDescriptor.use)
  | _ => []

def childNames (tag : Tag) : Element → List (String × Definition)
  | message m => m.definitions scope path
  | enum e => [(join scope e.name, .enum path)]
  | service s => [(join scope s.name, .service path)]
  | field x =>
    if tag = .fileExtension ∨ tag = .messageExtension then [(join scope x.name, .extension path)]
    else []
  | _ => []

end Contents

/-- What a child becomes in the block that it is declared in. -/
def inBlock (block? : Option Block) : Element → Element
  | field x =>
    match block? with
    | some (.extend extendee) => field { x with extendee? := some extendee }
    | some (.oneof index) => field { x with oneofIndex? := some (.ofNat index) }
    | none => field x
  | e => e

structure Takes (o : Element) (tag : Tag) (c o' : Element) : Prop where
  size : ∀ t, o'.size t = o.size t + if t = tag then 1 else 0
  uses : ∀ scope path, (o'.uses scope path).Perm
    (o.uses scope path ++ c.childUses scope (path ++ [tag.step, .ofNat (o.size tag)]))
  names : ∀ scope path x, x ∈ o'.names scope path ↔ x ∈ o.names scope path ∨
    x ∈ c.childNames scope (path ++ [tag.step, .ofNat (o.size tag)]) tag

structure Like (e e' : Element) : Prop where
  head : e'.head = e.head
  size : ∀ t, e'.size t = e.size t
  uses : ∀ scope path, e'.uses scope path = e.uses scope path
  names : ∀ scope path, e'.names scope path = e.names scope path

end Element

namespace Placed

variable {α β : Type} {scope written : String} {path : Path} {tag : Tag}

theorem map_map_listed (g : α → β) (xs : List α) :
    (listed scope written path tag xs).map (.map g) = listed scope written path tag (xs.map g) := by
  apply ext_getElem?
  intro i
  simp only [getElem?_map, getElem?_listed, Option.map_map]
  rfl

theorem listed_concat (xs : List α) (x : α) : listed scope written path tag (xs ++ [x]) =
    listed scope written path tag xs ++
      [⟨path ++ [tag.step, .ofNat xs.length], scope, written, x⟩] := by
  simp [listed]

end Placed

namespace Element

theorem Like.refl (e : Element) : e.Like e := ⟨rfl, fun _ => rfl, fun _ _ => rfl, fun _ _ => rfl⟩

theorem like_message {m m' : MessageDescriptor} (hname : m'.name? = m.name?)
    (hoptions : m'.isMapEntry = m.isMapEntry)
    (hfields : m'.fields.map FieldDescriptor.use = m.fields.map FieldDescriptor.use)
    (hextensions : m'.extensions = m.extensions) (hnested : m'.nestedTypes = m.nestedTypes)
    (henums : m'.enumTypes = m.enumTypes) (hranges : m'.extensionRanges = m.extensionRanges) :
    (message m).Like (message m') := by
  constructor
  · simp [head, MessageDescriptor.name, hname, hoptions]
  · have hlength := congrArg length hfields
    simp only [length_map] at hlength
    intro t
    cases t <;> simp [size, hlength, hextensions, hnested, henums, hranges]
  · intro scope path
    simp [uses, Placed.map_map_listed, hfields, hextensions, hnested]
  · intro scope path
    simp [names, hextensions, hnested, henums]

theorem like_addOption? {e e' : Element} (h : e.addOption? raw = some e') : e.Like e' := by
  cases e <;> cases h
  case message m =>
    refine like_message rfl ?_ rfl rfl rfl rfl rfl
    simp only [MessageDescriptor.isMapEntry]
    cases m.options <;> rfl
  all_goals exact ⟨rfl, fun t => by cases t <;> rfl, fun _ _ => rfl, fun _ _ => rfl⟩

end Element

theorem Definition.listed_concat {α : Type} (path : Path) (tag : Tag)
    (define : Path → Definition) (name : α → String) (xs : List α) (x : α) :
    listed scope path tag define name (xs ++ [x]) = listed scope path tag define name xs ++
      [(join scope (name x), define (path ++ [tag.step, .ofNat xs.length]))] := by
  simp [listed, zipIdx_append]

theorem MessageDescriptor.definitionsFrom_concat (path : Path) (tag : Tag) (i : Nat)
    (ms : List MessageDescriptor) (m : MessageDescriptor) :
    definitionsFrom scope path tag i (ms ++ [m]) = definitionsFrom scope path tag i ms ++
      m.definitions scope (path ++ [tag.step, .ofNat (i + ms.length)]) := by
  induction ms generalizing i with
  | nil => simp [definitionsFrom]
  | cons x ms ih =>
    simp only [cons_append, definitionsFrom, ih, length_cons, append_assoc]
    rw [add_assoc, add_comm 1]

theorem Frame.lookup_filter_ne {tag t : Tag} (h : t ≠ tag) (counts : List (Tag × Nat)) :
    (counts.filter (·.1 ≠ tag)).lookup t = counts.lookup t := by
  induction counts with
  | nil => rfl
  | cons x counts ih => grind

theorem Frame.count_counting (f : Frame) (tag t : Tag) :
    (f.counting tag).count t = f.count t + if t = tag then 1 else 0 := by
  by_cases ht : t = tag
  · simp [counting, count, ht]
  · have hne : (t == tag) = false := beq_false_of_ne ht
    simp only [counting, count, lookup_cons, hne, lookup_filter_ne ht, if_neg ht, add_zero]

namespace ScopeStack

open Element

variable {o c o' : Element} {within? : Option Block} {tag : Tag} {e e' : Element}
variable {counts : List (Tag × Nat)}

theorem attach_takes (htag : childTag? o within? c = some tag) (h : attach o within? c = .ok o') :
    o.Takes tag (c.inBlock within?) o' := by
  classical
  rcases within? with _ | (extendee | index)
  all_goals
    unfold childTag? at htag
    split at htag <;> cases htag
  any_goals exact nomatch ‹some (Block.oneof index) = some (Block.extend _)›
  any_goals contradiction
  all_goals
    simp only [attach, Except.ok.injEq] at h
    subst h
    constructor
    · intro t
      cases t <;> simp [size]
    · refine fun scope path => perm_iff_count.mpr fun w => ?_
      simp only [uses, inBlock, childUses, size, Placed.listed_concat, map_append, map_cons,
        map_nil, MessageDescriptor.placedFieldsFrom_append, MessageDescriptor.placedFieldsFrom,
        mapIdx_append, mapIdx_cons, mapIdx_nil, flatten_append, flatten_cons,
        flatten_nil, append_nil, Nat.zero_add, Placed.map, count_append]
      try omega
    · simp only [names, inBlock, childNames, size, Definition.listed_concat,
        MessageDescriptor.definitionsFrom_concat, reduceCtorEq, or_true, if_true, if_false,
        mem_append, mem_singleton, not_mem_nil, Nat.zero_add, or_false, or_self]
      try grind only

theorem attachOption_like (h : attachOption e within? raw = .ok e') : e.Like e' := by
  unfold attachOption at h
  split at h
  · split at h
    · next m' hadd =>
      obtain ⟨_, _, rfl⟩ := Option.map_eq_some_iff.mp hadd
      cases h
      exact like_message rfl rfl rfl rfl rfl rfl rfl
    · cases h
  · split at h
    · next hadd =>
      cases h
      exact like_addOption? hadd
    · cases h
  · cases h

theorem childTag?_congr {c' : Element} (h : c'.head = c.head) :
    childTag? o within? c' = childTag? o within? c := by
  cases c <;> cases c' <;> simp only [head, reduceCtorEq] at h
  all_goals cases o <;> rcases within? with _ | (_ | _) <;> rfl

/-! ### Places on the stack -/

def Fits (e : Element) (counts : List (Tag × Nat)) : Prop :=
  ∀ tag, tag ≠ .uninterpreted → (counts.lookup tag).getD 0 = e.size tag

/-- The frames above that of an element: none, or that of a block in it. -/
inductive Leads : List Frame → Option Block → Prop
  | nothing : Leads [] none
  | block (b : Block) (counts : List (Tag × Nat)) (path : Path) :
    Leads [⟨.block b, counts, path⟩] (some b)

structure Place where
  block? : Option Block
  path : Path
  below : List Frame

namespace Place

def Holds (p : Place) (e : Element) (counts : List (Tag × Nat)) (s : ScopeStack) : Prop :=
  ∃ lead, Leads lead p.block? ∧ s.frames = lead ++ ⟨.owns e, counts, p.path⟩ :: p.below

/-- An element is open at a place, and its children are counted. -/
def IsAt (p : Place) (e : Element) (s : ScopeStack) : Prop :=
  ∃ counts, Fits e counts ∧ p.Holds e counts s

/-- The place of a child that was opened in an element. -/
structure Opens (p : Place) (o : Element) (tag : Tag) (inner : Place) : Prop where
  block? : inner.block? = none
  path : inner.path = p.path ++ [tag.step, .ofNat (o.size tag)]
  below :
    ∃ counts, (∀ o', (∀ t, o'.size t = o.size t + if t = tag then 1 else 0) → Fits o' counts) ∧
    p.Holds o counts ⟨inner.below⟩

end Place

theorem fits_nil (h : ∀ tag, e.size tag = 0) : Fits e [] := fun tag _ => (h tag).symm

theorem Fits.congr (h : Fits e counts) (hsize : ∀ t, e'.size t = e.size t) : Fits e' counts := by
  intro t ht
  rw [hsize, h t ht]

theorem Fits.counting {f : Frame} (h : Fits e f.counts)
    (hsize : ∀ t, t ≠ .uninterpreted → e'.size t = e.size t + if t = tag then 1 else 0) :
    Fits e' (f.counting tag).counts := by
  intro t ht
  rw [hsize t ht, ← h t ht]
  exact f.count_counting tag t

theorem childTag?_ne (h : childTag? o within? c = some tag) : tag ≠ .uninterpreted := by
  unfold childTag? at h
  split at h <;> cases h <;> exact Tag.noConfusion

theorem close_owned {s : ScopeStack} {path : Path} {below : List Frame}
    (hframes : s.frames = ⟨.owns c, counts, path⟩ :: below) (hne : below ≠ [])
    (howner : owner? ⟨below⟩ = some o) :
    s.close = (attach o (block? ⟨below⟩) c).map fun o' => modifyOwner ⟨below⟩ fun _ => o' := by
  unfold close
  rw [hframes]
  cases below with
  | nil => exact absurd rfl hne
  | cons f below =>
    simp only [howner]
    cases attach o (block? ⟨f :: below⟩) c <;> rfl

namespace Place

variable {p inner : Place} {counts : List (Tag × Nat)} {s s' : ScopeStack}

namespace Holds

variable (h : p.Holds e counts s)
include h

theorem ownerFrame? : s.ownerFrame? = some ⟨.owns e, counts, p.path⟩ := by
  obtain ⟨lead, hlead, hframes⟩ := h
  generalize p.block? = block? at hlead
  cases hlead <;> simp [ScopeStack.ownerFrame?, hframes, Frame.element?]

theorem owner? : s.owner? = some e := by
  simp [ScopeStack.owner?, h.ownerFrame?, Frame.element?]

theorem block? : s.block? = p.block? := by
  obtain ⟨lead, hlead, hframes⟩ := h
  generalize p.block? = block? at hlead ⊢
  cases hlead <;> simp [ScopeStack.block?, hframes, Frame.block?]

theorem path (hp : p.block? = none) : s.path = p.path := by
  obtain ⟨lead, hlead, hframes⟩ := h
  rw [hp] at hlead
  cases hlead
  simp [ScopeStack.path, hframes]

theorem eq_of_current? (he : s.current? = some e') : p.block? = none ∧ e' = e := by
  obtain ⟨lead, hlead, hframes⟩ := h
  generalize p.block? = block? at hlead
  cases hlead <;> simp_all [current?, Frame.element?]

theorem modifyOwnerFrame {counts' : List (Tag × Nat)} {f : Frame → Frame}
    (hf : f ⟨.owns e, counts, p.path⟩ = ⟨.owns e', counts', p.path⟩) :
    p.Holds e' counts' ⟨modifyOwnerFrame f s.frames⟩ := by
  obtain ⟨lead, hlead, hframes⟩ := h
  refine ⟨lead, hlead, ?_⟩
  rw [hframes]
  generalize p.block? = block? at hlead
  cases hlead <;> simp [ScopeStack.modifyOwnerFrame, Frame.element?, hf]

theorem modifyOwner (g : Element → Element) : p.Holds (g e) counts (s.modifyOwner g) :=
  h.modifyOwnerFrame rfl

end Holds

theorem IsAt.openElement (h : p.IsAt o s) (hc : c.head ≠ .option)
    (hopen : s.openElement c = .ok s') :
    ∃ tag inner, childTag? o p.block? c = some tag ∧ p.Opens o tag inner ∧ inner.Holds c [] s' := by
  obtain ⟨counts, hfits, hholds⟩ := h
  unfold ScopeStack.openElement at hopen
  split at hopen
  · exact absurd rfl hc
  · simp only [hholds.ownerFrame?, hholds.owner?, hholds.block?, Option.bind_some] at hopen
    cases htag : childTag? o p.block? c with
    | none => simp [htag, refuse] at hopen
    | some tag =>
      simp only [htag, hfits tag (childTag?_ne htag), Frame.count, Except.ok.injEq] at hopen
      subst hopen
      have hbelow := hholds.modifyOwnerFrame (f := (.counting · tag)) rfl
      refine ⟨tag, ⟨none, p.path ++ [tag.step, .ofNat (o.size tag)], _⟩, rfl,
        ⟨rfl, rfl, _, ?_, hbelow⟩, [], .nothing, rfl⟩
      intro o' ho'
      exact hfits.counting fun t _ => ho' t

theorem Opens.close (h : p.Opens o tag inner) (htag : childTag? o p.block? c = some tag)
    (hholds : inner.Holds c counts s) (hclose : s.close = .ok s') :
    ∃ o', attach o p.block? c = .ok o' ∧ p.IsAt o' s' := by
  obtain ⟨hnone, _, counts', hfits, hbelow⟩ := h
  obtain ⟨lead, hlead, hframes⟩ := hholds
  rw [hnone] at hlead
  cases hlead
  have hne : inner.below ≠ [] := by
    obtain ⟨lead, _, heq⟩ := hbelow
    intro hnil
    simp [hnil] at heq
  rw [close_owned hframes hne hbelow.owner?, hbelow.block?] at hclose
  cases hattach : attach o p.block? c with
  | error e => simp [hattach, Except.map] at hclose
  | ok o' =>
    simp only [hattach, Except.map, Except.ok.injEq] at hclose
    subst hclose
    exact ⟨o', rfl, counts', hfits o' (attach_takes htag hattach).size, hbelow.modifyOwner _⟩

theorem IsAt.addOption {s'' : ScopeStack} (h : p.IsAt e s)
    (hopen : s.openElement (.option raw) = .ok s') (hclose : s'.close = .ok s'') :
    ∃ e', attachOption e p.block? raw = .ok e' ∧ p.IsAt e' s'' := by
  obtain ⟨counts, hfits, lead, hlead, hframes⟩ := h
  simp only [ScopeStack.openElement, openOption] at hopen
  split at hopen
  · next kind top below _ htop =>
    simp only [Except.ok.injEq] at hopen
    have hbelow : p.IsAt e ⟨top.counting .uninterpreted :: below⟩ := by
      rw [hframes] at htop
      generalize hblock : p.block? = block? at hlead
      cases hlead with
      | nothing =>
        obtain ⟨rfl, rfl⟩ := cons_eq_cons.mp htop
        refine ⟨_, ?_, [], hblock ▸ .nothing, rfl⟩
        exact hfits.counting fun t ht => by rw [if_neg ht, add_zero]
      | block b =>
        obtain ⟨rfl, rfl⟩ := cons_eq_cons.mp htop
        exact ⟨counts, hfits, _, hblock ▸ Leads.block b _ _, rfl⟩
    obtain ⟨counts', hfits', hholds⟩ := hbelow
    subst hopen
    have heq := hclose.symm.trans (close_owned rfl (cons_ne_nil _ _) hholds.owner?)
    rw [hholds.block?] at heq
    have hoption : attach e p.block? (.option raw) = attachOption e p.block? raw := by rfl
    rw [hoption] at heq
    cases hattach : attachOption e p.block? raw with
    | error e => simp [hattach, Except.map] at heq
    | ok e' =>
      simp only [hattach, Except.map, Except.ok.injEq] at heq
      subst heq
      exact ⟨e', rfl, counts', hfits'.congr (attachOption_like hattach).size, hholds.modifyOwner _⟩
  · simp [refuse] at hopen

theorem IsAt.modifyOwner (h : p.IsAt e s) (hlike : e.Like e') :
    p.IsAt e' (s.modifyOwner fun _ => e') := by
  obtain ⟨counts, hfits, hholds⟩ := h
  exact ⟨counts, hfits.congr hlike.size, hholds.modifyOwner _⟩

/-! ### Blocks -/

def inside (p : Place) (b : Block) : Place := { p with block? := some b }

theorem Holds.openBlock (h : p.Holds e counts s) (hp : p.block? = none) (b : Block) (path : Path) :
    (p.inside b).Holds e counts (s.openBlock b path) := by
  obtain ⟨lead, hlead, hframes⟩ := h
  rw [hp] at hlead
  cases hlead
  refine ⟨_, .block b [] path, ?_⟩
  rw [ScopeStack.openBlock, hframes]
  rfl

theorem IsAt.closeBlock {b : Block} (h : (p.inside b).IsAt e s) (hp : p.block? = none)
    (hclose : s.close = .ok s') : p.IsAt e s' := by
  obtain ⟨counts, hfits, lead, hlead, hframes⟩ := h
  cases hlead
  simp only [close, hframes, cons_append, nil_append, Except.ok.injEq] at hclose
  exact ⟨counts, hfits, [], hp ▸ .nothing, hclose ▸ rfl⟩

theorem IsAt.openExtend {extendee : String} (h : p.IsAt e s)
    (hopen : s.openExtend extendee = .ok s') :
    p.block? = none ∧ (p.inside (.extend extendee)).IsAt e s' := by
  obtain ⟨counts, hfits, hholds⟩ := h
  unfold ScopeStack.openExtend at hopen
  split at hopen
  · next hcurrent =>
    have hp := (hholds.eq_of_current? hcurrent).1
    cases hopen
    exact ⟨hp, counts, hfits, hholds.openBlock hp _ _⟩
  · next hcurrent =>
    have hp := (hholds.eq_of_current? hcurrent).1
    cases hopen
    exact ⟨hp, counts, hfits, hholds.openBlock hp _ _⟩
  · simp [refuse] at hopen

theorem IsAt.openOneof {x : OneofDescriptor} (h : p.IsAt e s)
    (hopen : (s.openOneof x).map (·.1) = .ok s') :
    p.block? = none ∧ ∃ m, e = message m ∧ (p.inside (.oneof m.oneofs.length)).IsAt
      (message { m with oneofs := m.oneofs ++ [x] }) s' := by
  obtain ⟨counts, hfits, hholds⟩ := h
  unfold ScopeStack.openOneof at hopen
  split at hopen
  · next m hcurrent =>
    obtain ⟨hp, rfl⟩ := hholds.eq_of_current? hcurrent
    cases hopen
    exact ⟨hp, m, rfl, counts, hfits.congr fun t => by cases t <;> rfl,
      (hholds.modifyOwner _).openBlock hp _ _⟩
  · simp [refuse, Except.map] at hopen

end Place

end ScopeStack

end ProtobufSchema

import Mathlib.Data.List.Perm.Basic
import ProtobufSchema.Proofs.DeclaredContents

/-! What is kept of the declarations in a scope: one is left out only if a name it needs, or its
number, is in use by what was kept before it. -/

namespace ProtobufSchema

open Name (join)

/-- The names and field numbers that are in use in a scope. -/
structure Usage where
  names : List String := []
  numbers : List Int32 := []

namespace Usage

instance : Append Usage := ⟨fun u v => ⟨u.names ++ v.names, u.numbers ++ v.numbers⟩⟩

def all {α : Type} (usage : α → Usage) : List α → Usage
  | [] => {}
  | x :: xs => usage x ++ all usage xs

def Clashes (u wanted : Usage) : Prop :=
  (∃ n ∈ wanted.names, n ∈ u.names) ∨ ∃ n ∈ wanted.numbers, n ∈ u.numbers

theorem Clashes.mono {u v w : Usage} (h : u.Clashes v) (hnames : v.names ⊆ w.names)
    (hnumbers : v.numbers ⊆ w.numbers) : u.Clashes w := by
  rcases h with ⟨n, hn, huse⟩ | ⟨n, hn, huse⟩
  · exact .inl ⟨n, hnames hn, huse⟩
  · exact .inr ⟨n, hnumbers hn, huse⟩

end Usage

namespace Tree

/-- The assignments without those whose simple name was given before. -/
def unrepeated (seen : List String) : List Assignment → List Assignment
  | [] => []
  | a :: as =>
    match a.simpleName? with
    | some name =>
      if seen.contains name then unrepeated seen as else a :: unrepeated (name :: seen) as
    | none => a :: unrepeated seen as

section Unrepeated

variable {seen seen' : List String} {x : Assignment} {xs : List Assignment}
variable {name : String}

theorem unrepeated_cons_of_named (h : x.simpleName? = some name) : unrepeated seen (x :: xs) =
      if name ∈ seen then unrepeated seen xs else x :: unrepeated (name :: seen) xs := by
  simp [unrepeated, h]

theorem unrepeated_cons_of_none (h : x.simpleName? = none) :
    unrepeated seen (x :: xs) = x :: unrepeated seen xs := by
  simp [unrepeated, h]

theorem unrepeated_sublist (seen : List String) (xs : List Assignment) :
    (unrepeated seen xs).Sublist xs := by
  induction xs generalizing seen with
  | nil => exact .refl _
  | cons x xs ih =>
    cases hname : x.simpleName? with
    | none =>
      rw [unrepeated_cons_of_none hname]
      exact (ih _).cons_cons _
    | some name =>
      rw [unrepeated_cons_of_named hname]
      split
      · exact (ih _).cons _
      · exact (ih _).cons_cons _

theorem simpleName?_ne_of_mem_unrepeated (hseen : name ∈ seen) :
    ∀ y ∈ unrepeated seen xs, y.simpleName? ≠ some name := by
  induction xs generalizing seen with
  | nil => simp [unrepeated]
  | cons x xs ih =>
    cases hname : x.simpleName? with
    | none =>
      rw [unrepeated_cons_of_none hname]
      exact List.forall_mem_cons.mpr ⟨by simp [hname], ih hseen⟩
    | some other =>
      rw [unrepeated_cons_of_named hname]
      split
      · exact ih hseen
      · next hother =>
        refine List.forall_mem_cons.mpr ⟨?_, ih (List.mem_cons_of_mem _ hseen)⟩
        rw [hname]
        rintro ⟨⟩
        exact hother hseen

theorem unrepeated_filter {q : Option String → Bool}
    (h : ∀ name, q (some name) = true → (name ∈ seen ↔ name ∈ seen')) (xs : List Assignment) :
    unrepeated seen (xs.filter fun x => q x.simpleName?) =
      (unrepeated seen' xs).filter fun x => q x.simpleName? := by
  induction xs generalizing seen seen' with
  | nil => rfl
  | cons x xs ih =>
    cases hname : x.simpleName? with
    | none =>
      rw [unrepeated_cons_of_none hname, List.filter_cons, List.filter_cons]
      split
      · rw [unrepeated_cons_of_none hname, ih h]
      · exact ih h
    | some name =>
      rw [unrepeated_cons_of_named hname, List.filter_cons, hname]
      cases hq : q (some name) with
      | true =>
        rw [if_pos rfl, unrepeated_cons_of_named hname, if_congr (h name hq) rfl rfl]
        split
        · exact ih h
        · have hmore : ∀ n, q (some n) = true → (n ∈ name :: seen ↔ n ∈ name :: seen') := by
            intro n hn
            rw [List.mem_cons, List.mem_cons, h n hn]
          rw [List.filter_cons, hname, hq, if_pos rfl, ih hmore]
      | false =>
        rw [if_neg Bool.false_ne_true]
        split
        · exact ih h
        · have hmore : ∀ n, q (some n) = true → (n ∈ seen ↔ n ∈ name :: seen') := by
            intro n hn
            have hne : n ≠ name := by
              rintro rfl
              rw [hn] at hq
              cases hq
            rw [h n hn]
            simp [hne]
          rw [List.filter_cons, hname, hq, if_neg Bool.false_ne_true, ih hmore]

end Unrepeated

/-! ### Names and numbers that declarations use -/

/-- A field uses its name, and its number unless it is an extension. A group is also a message. -/
def FieldMember.usage (isExtension : Bool) : FieldMember → Usage
  | .field f => ⟨[f.name], if isExtension then [] else [f.number]⟩
  | .group g => ⟨[groupFieldName g.name, g.name], if isExtension then [] else [g.number]⟩

def MapField.usage (m : MapField) : Usage := ⟨[m.name, Name.mapEntryName m.name], [m.number]⟩

def OneofMember.usage : OneofMember → Usage
  | .field f => f.usage false
  | .option _ => {}

/-- The values of an enum are names of the scope around it. -/
def EnumMember.usage : EnumMember → Usage
  | .value v => { names := [v.name] }
  | .option _ | .reserved _ => {}

def ServiceMember.usage : ServiceMember → Usage
  | .method m => { names := [m.name] }
  | .option _ => {}

def Enum.usage (e : Enum) : Usage := { names := [e.name] } ++ Usage.all EnumMember.usage e.members

/-- The fields of an extend block are names of the scope around it. -/
def Extend.usage (x : Extend) : Usage := Usage.all (FieldMember.usage true) x.fields

def Message.usage (m : Message) : Usage := { names := [m.name] }

/-- What a member uses of the scope around it, its own members included. -/
def Member.usage : Member → Usage
  | .field f => f.usage false
  | .map m => m.usage
  | .oneof o => { names := [o.name] } ++ Usage.all OneofMember.usage o.members
  | .message m => m.usage
  | .enum e => e.usage
  | .extend x => x.usage
  | .extensions _ | .reserved _ | .option _ => {}

def Service.usage (s : Service) : Usage := { names := [s.name] }

def Item.usage : Item → Usage
  | .message m => m.usage
  | .enum e => e.usage
  | .service s => s.usage
  | .extend x => x.usage

end Tree

/-- What is kept of a list of declarations, where each one meets what was kept before it. -/
inductive SiftsAll {α : Type} (sifts : Usage → α → List α → Prop) (usage : α → Usage) :
    Usage → List α → List α → Prop
  | nil (u : Usage) : SiftsAll sifts usage u [] []
  | cons {u : Usage} {x : α} {xs ks kept : List α} (h : sifts u x ks)
    (hs : SiftsAll sifts usage (u ++ Usage.all usage ks) xs kept) :
    SiftsAll sifts usage u (x :: xs) (ks ++ kept)

namespace Tree

inductive EnumMember.Sifts : Usage → EnumMember → List EnumMember → Prop
  | clash {u : Usage} {v : EnumValue} (h : v.name ∈ u.names) : EnumMember.Sifts u (.value v) []
  | value (u : Usage) (v : EnumValue) :
    EnumMember.Sifts u (.value v) [.value { v with options := unrepeated [] v.options }]
  | option {u : Usage} {a : Assignment} {ks : List Assignment} (h : ks.Sublist [a]) :
    EnumMember.Sifts u (.option a) (ks.map .option)
  | reserved (u : Usage) (r : Reserved) : EnumMember.Sifts u (.reserved r) [.reserved r]

/-- What is kept of an enum. Its members are declared in the scope around it. -/
inductive Enum.Sifts : Usage → Enum → List Enum → Prop
  | clash {u : Usage} {e : Enum} (h : e.name ∈ u.names) : Enum.Sifts u e []
  | kept {u : Usage} {e : Enum} {kept : List EnumMember}
    (h : SiftsAll EnumMember.Sifts EnumMember.usage (u ++ { names := [e.name] }) e.members kept) :
    Enum.Sifts u e [{ e with members := kept }]

inductive ServiceMember.Sifts : Usage → ServiceMember → List ServiceMember → Prop
  | clash {u : Usage} {m : Method} (h : m.name ∈ u.names) : ServiceMember.Sifts u (.method m) []
  | method (u : Usage) (m : Method) :
    ServiceMember.Sifts u (.method m) [.method { m with options := unrepeated [] m.options }]
  | option {u : Usage} {a : Assignment} {ks : List Assignment} (h : ks.Sublist [a]) :
    ServiceMember.Sifts u (.option a) (ks.map .option)

/-- What is kept of a service, whose body is a scope of its own. -/
inductive Service.Sifts : Usage → Service → List Service → Prop
  | clash {u : Usage} {s : Service} (h : s.name ∈ u.names) : Service.Sifts u s []
  | kept {u : Usage} {s : Service} {kept : List ServiceMember}
    (h : SiftsAll ServiceMember.Sifts ServiceMember.usage {} s.members kept) :
    Service.Sifts u s [{ s with members := kept }]

mutual

/-- What is kept of a field or group. The body of a group is a scope of its own. -/
inductive FieldMember.Sifts : Bool → Usage → FieldMember → List FieldMember → Prop
  | clash {isExtension : Bool} {u : Usage} {m : FieldMember} (h : u.Clashes (m.usage isExtension)) :
    FieldMember.Sifts isExtension u m []
  | field (isExtension : Bool) (u : Usage) (f : Field) :
    FieldMember.Sifts isExtension u (.field f)
    [.field { f with options := unrepeated [] f.options }]
  | group (isExtension : Bool) (u : Usage) {g : Group} {kept : List Member}
    (h : SiftsAll Member.Sifts Member.usage {} g.members kept) :
    FieldMember.Sifts isExtension u (.group g)
      [.group { g with options := unrepeated [] g.options, members := kept }]

inductive OneofMember.Sifts : Usage → OneofMember → List OneofMember → Prop
  | field {u : Usage} {f : FieldMember} {ks : List FieldMember}
    (h : FieldMember.Sifts false u f ks) : OneofMember.Sifts u (.field f) (ks.map .field)
  | option {u : Usage} {a : Assignment} {ks : List Assignment} (h : ks.Sublist [a]) :
    OneofMember.Sifts u (.option a) (ks.map .option)

/-- What is kept of a message, whose body is a scope of its own. -/
inductive Message.Sifts : Usage → Message → List Message → Prop
  | clash {u : Usage} {m : Message} (h : m.name ∈ u.names) : Message.Sifts u m []
  | kept {u : Usage} {m : Message} {kept : List Member}
    (h : SiftsAll Member.Sifts Member.usage {} m.members kept) :
    Message.Sifts u m [{ m with members := kept }]

/-- What is kept of an extend block. Its fields are declared in the scope around it. -/
inductive Extend.Sifts : Usage → Extend → List Extend → Prop
  | kept {u : Usage} {x : Extend} {kept : List FieldMember}
    (h : SiftsAll (FieldMember.Sifts true) (FieldMember.usage true) u x.fields kept) :
    Extend.Sifts u x [{ x with fields := kept }]

inductive Member.Sifts : Usage → Member → List Member → Prop
  | field {u : Usage} {f : FieldMember} {ks : List FieldMember}
    (h : FieldMember.Sifts false u f ks) : Member.Sifts u (.field f) (ks.map .field)
  | mapClash {u : Usage} {m : MapField} (h : u.Clashes m.usage) : Member.Sifts u (.map m) []
  | map (u : Usage) (m : MapField) :
    Member.Sifts u (.map m) [.map { m with options := unrepeated [] m.options }]
  | oneofClash {u : Usage} {o : Oneof} (h : o.name ∈ u.names) : Member.Sifts u (.oneof o) []
  | oneof {u : Usage} {o : Oneof} {kept : List OneofMember}
    (h : SiftsAll OneofMember.Sifts OneofMember.usage (u ++ { names := [o.name] }) o.members kept) :
    Member.Sifts u (.oneof o) [.oneof { o with members := kept }]
  | message {u : Usage} {m : Message} {ks : List Message} (h : Message.Sifts u m ks) :
    Member.Sifts u (.message m) (ks.map .message)
  | enum {u : Usage} {e : Enum} {ks : List Enum} (h : e.Sifts u ks) :
    Member.Sifts u (.enum e) (ks.map .enum)
  | extend {u : Usage} {x : Extend} {ks : List Extend} (h : Extend.Sifts u x ks) :
    Member.Sifts u (.extend x) (ks.map .extend)
  | extensions (u : Usage) {x : Extensions} {ranges : List (Int32 × Int32)}
    (h : ranges.Sublist x.ranges) :
    Member.Sifts u (.extensions x)
      [.extensions { x with ranges := ranges, options := unrepeated [] x.options }]
  | reserved (u : Usage) (r : Reserved) : Member.Sifts u (.reserved r) [.reserved r]
  | option {u : Usage} {a : Assignment} {ks : List Assignment} (h : ks.Sublist [a]) :
    Member.Sifts u (.option a) (ks.map .option)

end

inductive Item.Sifts : Usage → Item → List Item → Prop
  | message {u : Usage} {m : Message} {ks : List Message} (h : m.Sifts u ks) :
    Item.Sifts u (.message m) (ks.map .message)
  | enum {u : Usage} {e : Enum} {ks : List Enum} (h : e.Sifts u ks) :
    Item.Sifts u (.enum e) (ks.map .enum)
  | service {u : Usage} {s : Service} {ks : List Service} (h : s.Sifts u ks) :
    Item.Sifts u (.service s) (ks.map .service)
  | extend {u : Usage} {x : Extend} {ks : List Extend} (h : x.Sifts u ks) :
    Item.Sifts u (.extend x) (ks.map .extend)

structure File.Sifts (tree kept : File) : Prop where
  items : SiftsAll Item.Sifts Item.usage {} tree.items kept.items
  rest : kept = { tree with options := unrepeated [] tree.options, items := kept.items }

end Tree

end ProtobufSchema

import Mathlib.Data.List.Forall2
import ProtobufSchema.Proofs.SiftedDeclarations

/-! Names and numbers that are distinct in every scope of a descriptor. The values of an enum count
in the scope around the enum. -/

namespace ProtobufSchema

open List
open Name (join)

variable {u : Usage} {α : Type}

theorem nodup_of_subperm {xs ys : List α} (h : xs.Subperm ys) (hys : ys.Nodup) : xs.Nodup := by
  obtain ⟨zs, hperm, hsub⟩ := h
  exact hperm.nodup_iff.mp (hys.sublist hsub)

def OneofDescriptor.name (o : OneofDescriptor) : String := o.name?.getD ""

def EnumValueDescriptor.name (v : EnumValueDescriptor) : String := v.name?.getD ""

def MethodDescriptor.name (m : MethodDescriptor) : String := m.name?.getD ""

def EnumDescriptor.scopeNames (e : EnumDescriptor) : List String := e.name :: e.values.map (·.name)

namespace MessageDescriptor

/-- The oneofs that were written. Those that were made for explicitly optional fields stand behind
them, one for each such field. -/
def writtenOneofs (m : MessageDescriptor) : List OneofDescriptor :=
  m.oneofs.take (m.oneofs.length - (m.fields.filter (·.proto3Optional? = some true)).length)

def scopeNames (m : MessageDescriptor) : List String :=
  m.fields.map (·.name) ++ m.extensions.map (·.name) ++ m.writtenOneofs.map (·.name) ++
    m.nestedTypes.map (·.name) ++ m.enumTypes.flatMap (·.scopeNames)

/-- Names are distinct, and so are the numbers of fields, in a message and in all that are
inside. -/
inductive IsDistinct : MessageDescriptor → Prop
  | mk {m : MessageDescriptor} (names : m.scopeNames.Nodup)
    (numbers : (m.fields.map (·.number)).Nodup)
    (nested : ∀ x ∈ m.nestedTypes, IsDistinct x) : IsDistinct m

end MessageDescriptor

namespace FileDescriptor

/-- The names in the scope of the package, as far as one file declares them. -/
def scopeNames (f : FileDescriptor) : List String :=
  f.messageTypes.map (·.name) ++ f.enumTypes.flatMap (·.scopeNames) ++ f.services.map (·.name) ++
    f.extensions.map (·.name)

structure IsDistinct (f : FileDescriptor) : Prop where
  names : f.scopeNames.Nodup
  messages : ∀ m ∈ f.messageTypes, m.IsDistinct
  methods : ∀ s ∈ f.services, (s.methods.map (·.name)).Nodup

end FileDescriptor

/-! ### Names of contents -/

namespace Contents

variable (c d : Contents)

/-- The names that contents bring to the scope they are in. -/
def names (c : Contents) : List String :=
  c.fields.map (·.name) ++ c.extensions.map (·.name) ++ c.oneofs.map (·.name) ++
    c.messages.map (·.name) ++ c.enums.flatMap (·.scopeNames) ++ c.services.map (·.name)

def numbers (c : Contents) : List Int32 := c.fields.map (·.number)

structure Bears (c : Contents) (u : Usage) : Prop where
  names : c.names.Perm u.names
  numbers : c.numbers = u.numbers

theorem append_def : c ++ d =
    ⟨c.fields ++ d.fields, c.extensions ++ d.extensions, c.messages ++ d.messages,
      c.enums ++ d.enums,
      c.ranges ++ d.ranges, c.oneofs ++ d.oneofs, c.services ++ d.services, c.values ++ d.values,
      c.methods ++ d.methods, c.raws ++ d.raws, c.reservedRanges ++ d.reservedRanges,
      c.reservedNames ++ d.reservedNames⟩ := rfl

theorem names_append : (c ++ d).names.Perm (c.names ++ d.names) := by
  rw [perm_iff_count]
  simp only [names, append_def, map_append, flatMap_append, count_append]
  omega

theorem numbers_append : (c ++ d).numbers = c.numbers ++ d.numbers := map_append

theorem Bears.append {c d : Contents} {v : Usage} (h : c.Bears u) (h' : d.Bears v) :
    (c ++ d).Bears (u ++ v) :=
  ⟨(names_append c d).trans (h.names.append h'.names),
    (numbers_append c d).trans (congrArg₂ _ h.numbers h'.numbers)⟩

theorem bears_empty : ({} : Contents).Bears {} := ⟨.refl _, rfl⟩

theorem bears_all {contents : α → Contents} {usage : α → Usage}
    (h : ∀ x, (contents x).Bears (usage x)) (xs : List α) :
    (all contents xs).Bears (.all usage xs) := by
  induction xs with
  | nil => exact bears_empty
  | cons x xs ih => exact (h x).append ih

end Contents

/-! ### Optional fields -/

namespace Assembly

variable (used : List String) (oneofs : List OneofDescriptor) (fs : List FieldDescriptor)

def lettered : Nat → String → String
  | 0, name => name
  | k + 1, name => lettered k ("X" ++ name)

theorem freshName_of_le {fuel : Nat} {name : String}
    (h : (used.filter (name.length ≤ ·.length)).length ≤ fuel) :
    ∃ k, freshName used fuel name = lettered k name ∧ lettered k name ∉ used ∧
      ∀ i < k, lettered i name ∈ used := by
  induction fuel generalizing name with
  | zero =>
    refine ⟨0, rfl, fun hmem => ?_, by simp⟩
    have hin : name ∈ used.filter (name.length ≤ ·.length) := mem_filter.mpr ⟨hmem, by simp⟩
    rw [eq_nil_of_length_eq_zero (Nat.le_zero.mp h)] at hin
    cases hin
  | succ fuel ih =>
    by_cases hmem : name ∈ used
    · have hfewer : (used.filter (("X" ++ name).length ≤ ·.length)).length <
          (used.filter (name.length ≤ ·.length)).length := by
        have hfilter : used.filter (("X" ++ name).length ≤ ·.length) =
            (used.filter (name.length ≤ ·.length)).filter (("X" ++ name).length ≤ ·.length) := by
          rw [filter_filter]
          refine filter_congr fun x _ => ?_
          rw [String.length_append, Bool.eq_iff_iff]
          simp only [Bool.and_eq_true, decide_eq_true_eq]
          omega
        rw [hfilter]
        refine length_filter_lt_length_iff_exists.mpr ⟨name, mem_filter.mpr ⟨hmem, by simp⟩, ?_⟩
        simp [show "X".length = 1 from rfl]
      obtain ⟨k, hk, hfresh, hused⟩ := ih (Nat.le_of_lt_succ (Nat.lt_of_lt_of_le hfewer h))
      refine ⟨k + 1, ?_, hfresh, fun i hi => ?_⟩
      · rw [freshName, if_pos (contains_iff_mem.mpr hmem), hk, lettered]
      · cases i with
        | zero => exact hmem
        | succ i => exact hused i (by omega)
    · exact ⟨0, by rw [freshName, if_neg (by simpa using hmem), lettered], hmem, by simp⟩

theorem addOptionalOneofs_oneofs : ∃ made : List String,
      (addOptionalOneofs used oneofs fs).2 = oneofs ++
        made.map (fun name => { name? := some name }) ∧
      Forall₂ (fun name f => ∃ k, name = lettered k ("_" ++ f.name)) made
        (fs.filter (·.proto3Optional? = some true)) ∧
      made.Nodup ∧ ∀ name ∈ made, name ∉ used := by
  induction fs generalizing used oneofs with
  | nil => exact ⟨[], by simp [addOptionalOneofs]⟩
  | cons f fs ih =>
    unfold addOptionalOneofs
    split
    · next hoptional =>
      obtain ⟨k, hk, hfresh, _⟩ := freshName_of_le used (length_filter_le _ _)
      rw [← hk] at hfresh
      obtain ⟨made, hmade, hnames, hnodup, hapart⟩ :=
        ih (freshName used used.length ("_" ++ f.name) :: used)
        (oneofs ++ [{ name? := some (freshName used used.length ("_" ++ f.name)) }])
      refine ⟨freshName used used.length ("_" ++ f.name) :: made, by simp [hmade], ?_, ?_, ?_⟩
      · rw [filter_cons_of_pos (by simpa using hoptional)]
        exact .cons ⟨k, hk⟩ hnames
      · exact nodup_cons.mpr ⟨fun hmem => hapart _ hmem (.head _), hnodup⟩
      · exact forall_mem_cons.mpr ⟨hfresh, fun name hname hmem => hapart name hname (.tail _ hmem)⟩
    · next hoptional =>
      obtain ⟨made, hmade, hnames, hrest⟩ := ih used oneofs
      exact ⟨made, hmade, by simpa [hoptional] using hnames, hrest⟩

theorem addOptionalOneofs_indices :
    (addOptionalOneofs used oneofs fs).1.filter (·.proto3Optional? ≠ some true) =
      fs.filter (·.proto3Optional? ≠ some true) ∧
    ((addOptionalOneofs used oneofs fs).1.filter (·.proto3Optional? = some true)).map
      (·.oneofIndex?) =
      (range' oneofs.length (fs.filter (·.proto3Optional? = some true)).length).map
        fun i => some (.ofNat i) := by
  induction fs generalizing used oneofs with
  | nil => exact ⟨rfl, rfl⟩
  | cons f fs ih =>
    unfold addOptionalOneofs
    split
    · next hoptional =>
      obtain ⟨hother, hmade⟩ := ih (freshName used used.length ("_" ++ f.name) :: used)
        (oneofs ++ [{ name? := some (freshName used used.length ("_" ++ f.name)) }])
      simp only [ne_eq, hoptional, not_true_eq_false, decide_false, Bool.false_eq_true,
        not_false_eq_true, filter_cons_of_neg, decide_true, filter_cons_of_pos, map_cons,
        length_cons, range'_succ, hmade]
      simpa using hother
    · next hoptional =>
      obtain ⟨hother, hmade⟩ := ih used oneofs
      simp only [hoptional, decide_false, Bool.false_eq_true, not_false_eq_true, filter_cons_of_neg,
        hmade, ne_eq, decide_true, filter_cons_of_pos, and_true] at hother ⊢
      rw [hother]

theorem addOptionalOneofs_fields {g : FieldDescriptor → α}
    (hg : ∀ (f : FieldDescriptor) (index? : Option Int32), g { f with oneofIndex? := index? } = g f)
    (used : List String) (oneofs : List OneofDescriptor) (fs : List FieldDescriptor) :
    (addOptionalOneofs used oneofs fs).1.map g = fs.map g := by
  induction fs generalizing used oneofs with
  | nil => rfl
  | cons f fs ih =>
    unfold addOptionalOneofs
    split
    · simp [ih, hg]
    · simp [ih]

end Assembly

theorem MessageDescriptor.writtenOneofs_withOptionalOneofs (m : MessageDescriptor) :
    m.withOptionalOneofs.writtenOneofs = m.oneofs := by
  obtain ⟨made, hmade, hnames, _⟩ :=
    Assembly.addOptionalOneofs_oneofs (Assembly.namesInUse m) m.oneofs m.fields
  have hoptional := Assembly.addOptionalOneofs_fields (g := (·.proto3Optional?)) (fun _ _ => rfl)
    (Assembly.namesInUse m) m.oneofs m.fields
  have hcount (fs fs' : List FieldDescriptor)
      (h : fs.map (·.proto3Optional?) = fs'.map (·.proto3Optional?)) :
      (fs.filter (·.proto3Optional? = some true)).length =
        (fs'.filter (·.proto3Optional? = some true)).length := by
    have hmapped := congrArg (fun xs => (xs.filter (· = some true)).length) h
    simpa only [filter_map, length_map, Function.comp_def] using hmapped
  have hsame := hcount _ _ hoptional
  simp [writtenOneofs, withOptionalOneofs, hmade, hsame, hnames.length_eq]

namespace Contents

variable {c : Contents}
variable (name : String)

theorem scopeNames_message : (c.message name).scopeNames ++ c.services.map (·.name) = c.names := by
  simp only [message, MessageDescriptor.scopeNames,
    MessageDescriptor.writtenOneofs_withOptionalOneofs]
  simp [MessageDescriptor.withOptionalOneofs, names,
    Assembly.addOptionalOneofs_fields (g := (·.name)) (fun _ _ => rfl)]

/-- Declarations that use distinct names and numbers come to a message in which these are
distinct. -/
theorem Bears.isDistinct (h : c.Bears u) (hnames : u.names.Nodup) (hnumbers : u.numbers.Nodup)
    (hmessages : ∀ x ∈ c.messages, x.IsDistinct) (name : String) : (c.message name).IsDistinct := by
  refine ⟨?_, ?_, ?_⟩
  · have hall := h.names.nodup_iff.mpr hnames
    rw [← scopeNames_message name] at hall
    exact hall.sublist (sublist_append_left _ _)
  · have hnumbered := Assembly.addOptionalOneofs_fields (g := (·.number)) (fun _ _ => rfl)
    exact (hnumbered _ _ _).trans h.numbers ▸ hnumbers
  · exact hmessages

end Contents

/-! ### Declarations and their contents -/

namespace Tree

open Contents (Bears)

variable (dialect : Dialect) (block? : Option Block) (scope : String) (x : FieldDescriptor)
  (oneofs : Nat)

theorem name_inBlock : (x.inBlock block?).name = x.name := by
  unfold FieldDescriptor.inBlock
  split <;> rfl

theorem number_inBlock : (x.inBlock block?).number = x.number := by
  unfold FieldDescriptor.inBlock
  split <;> rfl

theorem bears_ofField : (Contents.ofField block? x).Bears
      ⟨[x.name], if block?.any Block.isExtend then [] else [x.number]⟩ := by
  unfold Contents.ofField
  split
  · exact ⟨.refl _, rfl⟩
  · exact ⟨.refl _, rfl⟩

theorem FieldMember.bears (block? : Option Block) (m : FieldMember) :
    (m.contents dialect scope block?).Bears (m.usage (block?.any Block.isExtend)) := by
  cases m with
  | field f =>
    have hfield := bears_ofField block? (f.descriptor dialect block?)
    rw [Field.descriptor, name_inBlock, number_inBlock] at hfield
    exact hfield
  | group g =>
    obtain ⟨label?, name, number, options, members, span, comment?⟩ := g
    have hfield := bears_ofField block? (groupField scope block? label? name number options)
    rw [groupField, name_inBlock, number_inBlock] at hfield
    have hmessage : Bears
        { messages := [(Member.contentsFrom dialect (join scope name) 0 members).message name] }
        { names := [name] } := ⟨.refl _, rfl⟩
    have hboth := hfield.append hmessage
    refine ⟨hboth.names, hboth.numbers.trans ?_⟩
    exact append_nil _

theorem FieldMember.bears_contentsOf (block? : Option Block)
    (ms : List FieldMember) : (contentsOf dialect scope block? ms).Bears
      (.all (usage (block?.any Block.isExtend)) ms) := by
  induction ms with
  | nil => exact Contents.bears_empty
  | cons m ms ih => exact (m.bears dialect scope block?).append ih

theorem OneofMember.bears_contentsOf (index : Nat) (ms : List OneofMember) :
    (contentsOf dialect scope index ms).Bears (.all usage ms) := by
  induction ms with
  | nil => exact Contents.bears_empty
  | cons m ms ih =>
    cases m with
    | field f => exact (f.bears dialect scope (some (.oneof index))).append ih
    | option a => exact ih

theorem EnumMember.bears (m : EnumMember) :
    m.contents.values.map (·.name) = m.usage.names ∧ m.usage.numbers = [] := by
  cases m <;> exact ⟨rfl, rfl⟩

theorem EnumMember.bears_all (ms : List EnumMember) :
    (Contents.all contents ms).values.map (·.name) = (Usage.all usage ms).names ∧
      (Usage.all usage ms).numbers = [] := by
  induction ms with
  | nil => exact ⟨rfl, rfl⟩
  | cons m ms ih =>
    obtain ⟨hnames, hnumbers⟩ := m.bears
    simp only [Contents.all, Contents.append_def, map_append, hnames, ih.1]
    exact ⟨rfl, congrArg₂ (· ++ ·) hnumbers ih.2⟩

theorem Enum.bears (e : Enum) : Bears { enums := [e.descriptor] } e.usage := by
  obtain ⟨hnames, hnumbers⟩ := EnumMember.bears_all e.members
  refine ⟨?_, hnumbers.symm⟩
  have hscope : e.descriptor.scopeNames = e.name ::
      (Usage.all EnumMember.usage e.members).names := by
    rw [← hnames]
    rfl
  simp only [Contents.names, map_nil, flatMap_cons, flatMap_nil, append_nil, hscope]
  exact .refl _

theorem Extend.bears (x : Extend) : (x.contents dialect scope).Bears x.usage :=
  FieldMember.bears_contentsOf dialect scope (some (.extend x.extendee)) x.fields

theorem Member.bears (m : Member) : (m.contents dialect scope oneofs).Bears m.usage := by
  cases m with
  | field f => exact f.bears dialect scope none
  | map m => exact ⟨.refl _, rfl⟩
  | oneof o =>
    obtain ⟨name, members, span⟩ := o
    have hname : Bears { oneofs := [oneofOf name (members.flatMap OneofMember.raws)] }
        { names := [name] } := ⟨.refl _, rfl⟩
    exact hname.append (OneofMember.bears_contentsOf dialect scope oneofs members)
  | message m =>
    obtain ⟨name, members, span, comment?⟩ := m
    exact ⟨.refl _, rfl⟩
  | enum e => exact e.bears
  | extend x =>
    obtain ⟨extendee, fields, span⟩ := x
    exact Extend.bears dialect scope ⟨extendee, fields, span⟩
  | extensions x => exact ⟨.refl _, rfl⟩
  | reserved r => exact ⟨.refl _, rfl⟩
  | option a => exact ⟨.refl _, rfl⟩

theorem Member.bears_contentsFrom (ms : List Member) :
    (contentsFrom dialect scope oneofs ms).Bears (.all usage ms) := by
  induction ms generalizing oneofs with
  | nil => exact Contents.bears_empty
  | cons m ms ih => exact (m.bears dialect scope oneofs).append (ih _)

theorem Item.bears (i : Item) : (i.contents dialect scope).Bears i.usage := by
  cases i with
  | message m => exact ⟨.refl _, rfl⟩
  | enum e => exact e.bears
  | service s => exact ⟨.refl _, rfl⟩
  | extend x => exact x.bears dialect scope

end Tree

end ProtobufSchema

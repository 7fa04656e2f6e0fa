import ProtobufSchema.Proofs.OptionSlots
import ProtobufSchema.Scope

/-! The options on the stack keep the message they began with, and assignments are added to those
that wait. -/

namespace ProtobufSchema

open List MessageDescriptor

variable {f : FileDescriptor} {raw : RawOption}
variable {e : Element} {m : MessageDescriptor}

def Options.IsFresh (kind : OptionsKind) (o : Options) : Prop :=
  o.kind = kind ∧ (o.message = .empty kind.typeName ∨
    kind = .message ∧
      o.message = (Message.empty OptionsKind.message.typeName).set 7 .bool (.bool true))

def AreFresh (slots : List (OptionsKind × Options)) : Prop := ∀ s ∈ slots, s.2.IsFresh s.1

theorem areFresh_none (kind : OptionsKind) : AreFresh (kind.slot none) := by
  simp [AreFresh, OptionsKind.slot]

theorem areFresh_snoc {α : Type} {slots : α → List (OptionsKind × Options)} {xs : List α} {x : α}
    (hxs : ∀ y ∈ xs, AreFresh (slots y)) (hx : AreFresh (slots x)) :
    ∀ y ∈ xs ++ [x], AreFresh (slots y) :=
  forall_mem_append.mpr ⟨hxs, forall_mem_singleton.mpr hx⟩

namespace EnumDescriptor

structure IsFresh (e : EnumDescriptor) : Prop where
  options : AreFresh (OptionsKind.enum.slot e.options)
  values : ∀ v ∈ e.values, AreFresh v.slots

theorem isFresh_iff {e : EnumDescriptor} : e.IsFresh ↔ AreFresh e.slots := by
  simp only [slots, AreFresh, forall_mem_append, forall_mem_flatMap]
  exact ⟨fun h => ⟨h.options, h.values⟩, fun h => ⟨h.1, h.2⟩⟩

end EnumDescriptor

namespace ServiceDescriptor

structure IsFresh (s : ServiceDescriptor) : Prop where
  options : AreFresh (OptionsKind.service.slot s.options)
  methods : ∀ m ∈ s.methods, AreFresh m.slots

theorem isFresh_iff {s : ServiceDescriptor} : s.IsFresh ↔ AreFresh s.slots := by
  simp only [slots, AreFresh, forall_mem_append, forall_mem_flatMap]
  exact ⟨fun h => ⟨h.options, h.methods⟩, fun h => ⟨h.1, h.2⟩⟩

end ServiceDescriptor

namespace MessageDescriptor

structure IsFresh (m : MessageDescriptor) : Prop where
  options : AreFresh (OptionsKind.message.slot m.options)
  fields : ∀ f ∈ m.fields, AreFresh f.slots
  extensions : ∀ f ∈ m.extensions, AreFresh f.slots
  oneofs : ∀ o ∈ m.oneofs, AreFresh o.slots
  extensionRanges : ∀ r ∈ m.extensionRanges, AreFresh r.slots
  enumTypes : ∀ e ∈ m.enumTypes, AreFresh e.slots
  nestedTypes : ∀ x ∈ m.nestedTypes, AreFresh x.slots

theorem isFresh_iff : m.IsFresh ↔ AreFresh m.slots := by
  cases m
  simp only [slots, nestedSlots_eq, AreFresh, forall_mem_append, forall_mem_flatMap]
  constructor
  · intro h
    exact ⟨⟨⟨⟨⟨h.options, h.fields, h.extensions⟩, h.oneofs⟩, h.extensionRanges⟩, h.enumTypes⟩,
      h.nestedTypes⟩
  · rintro ⟨⟨⟨⟨⟨ho, hf, hx⟩, hs⟩, hr⟩, he⟩, hn⟩
    exact ⟨ho, hf, hx, hs, hr, he, hn⟩

end MessageDescriptor

namespace FileDescriptor

structure IsFresh (f : FileDescriptor) : Prop where
  options : AreFresh (OptionsKind.file.slot f.options)
  messageTypes : ∀ m ∈ f.messageTypes, AreFresh m.slots
  enumTypes : ∀ e ∈ f.enumTypes, AreFresh e.slots
  extensions : ∀ x ∈ f.extensions, AreFresh x.slots
  services : ∀ s ∈ f.services, AreFresh s.slots

theorem isFresh_iff : f.IsFresh ↔ AreFresh f.slots := by
  simp only [slots, nestedSlots_eq, AreFresh, forall_mem_append, forall_mem_flatMap]
  constructor
  · intro h
    exact ⟨⟨⟨⟨h.options, h.messageTypes⟩, h.enumTypes⟩, h.extensions⟩, h.services⟩
  · rintro ⟨⟨⟨⟨ho, hm⟩, he⟩, hx⟩, hs⟩
    exact ⟨ho, hm, he, hx, hs⟩

end FileDescriptor

def Element.IsFresh : Element → Prop
  | file f => f.IsFresh
  | message m => m.IsFresh
  | enum e => e.IsFresh
  | service s => s.IsFresh
  | field f => AreFresh f.slots
  | enumValue v => AreFresh v.slots
  | method m => AreFresh m.slots
  | oneof o => AreFresh o.slots
  | extensionRange r => AreFresh r.slots
  | option _ => True

theorem Options.adding_isFresh {kind : OptionsKind} {o? : Option Options} (raw : RawOption)
    (h : AreFresh (kind.slot o?)) : AreFresh (kind.slot (adding kind o? raw)) := by
  intro s hs
  cases mem_singleton.mp hs
  cases o? with
  | none => exact ⟨rfl, .inl rfl⟩
  | some o => exact h (kind, o) (mem_singleton.mpr rfl)

theorem Element.IsFresh.addOption? {e' : Element} (h : e.IsFresh)
    (he : e.addOption? raw = some e') : e'.IsFresh := by
  cases e with
  | option _ => cases he
  | file f =>
    cases he
    exact { (h : f.IsFresh) with options := Options.adding_isFresh raw h.options }
  | message m =>
    cases he
    exact { (h : m.IsFresh) with options := Options.adding_isFresh raw h.options }
  | enum x =>
    cases he
    exact { (h : x.IsFresh) with options := Options.adding_isFresh raw h.options }
  | service s =>
    cases he
    exact { (h : s.IsFresh) with options := Options.adding_isFresh raw h.options }
  | _ =>
    cases he
    exact Options.adding_isFresh raw h

namespace ScopeStack

variable {block : Option Block} {owner : Element} {index : Nat}

theorem addOneofOption?_isFresh {m' : MessageDescriptor}
    (h : m.IsFresh) (hm : addOneofOption? m index raw = some m') : m'.IsFresh := by
  obtain ⟨o, ho, rfl⟩ := Option.map_eq_some_iff.mp hm
  refine { h with oneofs := ?_ }
  intro x hx
  rcases mem_or_eq_of_mem_set hx with hx | rfl
  · exact h.oneofs x hx
  · exact Options.adding_isFresh raw (h.oneofs o (mem_of_getElem? ho))

theorem attachOption_isFresh (h : owner.IsFresh) (he : attachOption owner block raw = .ok e) :
    e.IsFresh := by
  unfold attachOption at he
  split at he
  · split at he
    · rename_i hm
      cases he
      exact addOneofOption?_isFresh h hm
    · cases he
  · split at he
    · rename_i hadd
      cases he
      exact h.addOption? hadd
    · cases he
  · cases he

theorem attach_isFresh {child : Element} (h : owner.IsFresh)
    (hchild : child.IsFresh) (he : attach owner block child = .ok e) : e.IsFresh := by
  unfold attach at he
  split at he
  case h_1 => exact attachOption_isFresh h he
  case h_2 =>
    cases he
    exact { (h : FileDescriptor.IsFresh _) with
      messageTypes := areFresh_snoc h.messageTypes (isFresh_iff.mp hchild) }
  case h_3 =>
    cases he
    exact { (h : FileDescriptor.IsFresh _) with
      enumTypes := areFresh_snoc h.enumTypes (EnumDescriptor.isFresh_iff.mp hchild) }
  case h_4 =>
    cases he
    exact { (h : FileDescriptor.IsFresh _) with
      services := areFresh_snoc h.services (ServiceDescriptor.isFresh_iff.mp hchild) }
  case h_5 | h_6 =>
    cases he
    exact { (h : FileDescriptor.IsFresh _) with
      extensions := areFresh_snoc h.extensions hchild }
  case h_7 =>
    cases he
    exact { (h : IsFresh _) with
      extensions := areFresh_snoc h.extensions hchild }
  case h_8 | h_9 =>
    cases he
    exact { (h : IsFresh _) with fields := areFresh_snoc h.fields hchild }
  case h_10 =>
    cases he
    exact { (h : IsFresh _) with
      nestedTypes := areFresh_snoc h.nestedTypes (isFresh_iff.mp hchild) }
  case h_11 =>
    cases he
    exact { (h : IsFresh _) with
      enumTypes := areFresh_snoc h.enumTypes (EnumDescriptor.isFresh_iff.mp hchild) }
  case h_12 =>
    cases he
    exact { (h : IsFresh _) with
      extensionRanges := areFresh_snoc h.extensionRanges hchild }
  case h_13 =>
    cases he
    exact { (h : EnumDescriptor.IsFresh _) with values := areFresh_snoc h.values hchild }
  case h_14 =>
    cases he
    exact { (h : ServiceDescriptor.IsFresh _) with methods := areFresh_snoc h.methods hchild }
  case h_15 => cases he

/-! ### What holds of all open elements -/

def Each (Q : Element → Prop) (s : ScopeStack) : Prop :=
  ∀ frame ∈ s.frames, ∀ e, frame.target = .owns e → Q e

/-- A property that new elements have, and that is kept when elements are attached or changed. -/
structure Closed (Q : Element → Prop) : Prop where
  fresh : ∀ {e : Element}, e.IsFresh → e.optionsKind? ≠ some .file → Q e
  attach : ∀ {owner child e : Element} {block : Option Block},
    Q owner → Q child → attach owner block child = .ok e → Q e
  message : ∀ {m m' : MessageDescriptor}, (m.IsFresh → m'.IsFresh) → Q (.message m) →
    Q (.message m')
  enum : ∀ {x x' : EnumDescriptor}, (x.IsFresh → x'.IsFresh) → Q (.enum x) → Q (.enum x')

theorem closed_isFresh : Closed Element.IsFresh := ⟨fun h _ => h, attach_isFresh, id, id⟩

namespace Each

variable {Q : Element → Prop} {s s' : ScopeStack} {frames : List Frame} {e : Element}
variable {frame : Frame}

theorem ofFile (h : Q (.file f)) : (ofFile f).Each Q := by
  intro frame hframe e he
  cases mem_singleton.mp hframe
  cases he
  exact h

theorem cons (hframe : ∀ e, frame.target = .owns e → Q e) (h : Each Q ⟨frames⟩) :
    Each Q ⟨frame :: frames⟩ :=
  forall_mem_cons.mpr ⟨hframe, h⟩

theorem modifyOwnerFrame {f : Frame → Frame} (h : Each Q ⟨frames⟩)
    (hf : ∀ frame ∈ frames, ∀ e, (f frame).target = .owns e → Q e) :
    Each Q ⟨modifyOwnerFrame f frames⟩ := by
  induction frames with
  | nil => exact h
  | cons frame below ih =>
    obtain ⟨hframe, hbelow⟩ := forall_mem_cons.mp h
    simp only [ScopeStack.modifyOwnerFrame]
    split
    · exact .cons (hf frame (by simp)) hbelow
    · exact .cons hframe (ih hbelow fun x hx => hf x (by simp [hx]))

variable (h : s.Each Q)
include h

theorem element? (hframe : frame ∈ s.frames) (he : frame.element? = some e) : Q e := by
  refine h frame hframe e ?_
  unfold Frame.element? at he
  split at he
  · rename_i hx
    cases he
    exact hx
  · cases he

theorem owner? (he : s.owner? = some e) : Q e := by
  obtain ⟨frame, hframe, htarget⟩ := Option.bind_eq_some_iff.mp he
  exact h.element? (mem_of_find?_eq_some hframe) htarget

theorem current? (he : s.current? = some e) : Q e := by
  obtain ⟨frame, hframe, htarget⟩ := Option.bind_eq_some_iff.mp he
  exact h.element? (mem_of_head? hframe) htarget

theorem modifyOwner (he : Q e) : (s.modifyOwner fun _ => e).Each Q := by
  refine .modifyOwnerFrame h ?_
  intro frame _ x hx
  split at hx
  · cases hx
    exact he
  · rename_i hblock
    rw [hblock] at hx
    cases hx

theorem openBlock (b : Block) (path : Path) : (s.openBlock b path).Each Q :=
  .cons (fun _ he => nomatch he) h

theorem openElement (he : Q e) (hs : s.openElement e = .ok s') : s'.Each Q := by
  unfold ScopeStack.openElement at hs
  split at hs
  · unfold openOption at hs
    split at hs
    · rename_i top below hframes
      cases hs
      rw [Each, hframes] at h
      obtain ⟨htop, hbelow⟩ := forall_mem_cons.mp h
      exact .cons (fun _ hx => by cases hx; exact he) (.cons htop hbelow)
    · cases hs
  · split at hs
    · cases hs
      refine .cons (fun _ hx => by cases hx; exact he) ?_
      exact .modifyOwnerFrame h fun frame hframe e he => h frame hframe e he
    · cases hs

theorem openExtend {extendee : String} (hs : s.openExtend extendee = .ok s') : s'.Each Q := by
  unfold ScopeStack.openExtend at hs
  split at hs
  · cases hs
    exact h.openBlock _ _
  · cases hs
    exact h.openBlock _ _
  · cases hs

theorem finish (hs : s.finish = .ok f) : Q (.file f) := by
  unfold ScopeStack.finish at hs
  split at hs
  · rename_i frame hframes
    split at hs
    · rename_i hfile
      cases hs
      exact h frame (by rw [hframes]; exact mem_singleton.mpr rfl) _ hfile
    · cases hs
  · cases hs

variable (hQ : Closed Q)
include hQ

theorem openOneof {o : OneofDescriptor} (ho : o.options = none)
    (hs : s.openOneof o = .ok (s', index)) : s'.Each Q := by
  unfold ScopeStack.openOneof at hs
  split at hs
  · rename_i m hm
    cases hs
    have ho : AreFresh o.slots := by
      rw [OneofDescriptor.slots, ho]
      exact areFresh_none _
    refine (h.modifyOwner (hQ.message (fun hm => ?_) (h.current? hm))).openBlock _ _
    exact { hm with oneofs := areFresh_snoc hm.oneofs ho }
  · cases hs

theorem close (hs : s.close = .ok s') : s'.Each Q := by
  unfold ScopeStack.close at hs
  split at hs
  · cases hs
  · cases hs
  · rename_i top below _ hframes
    rw [Each, hframes] at h
    obtain ⟨htop, hbelow⟩ := forall_mem_cons.mp h
    have hrest : Each Q ⟨below⟩ := hbelow
    simp only at hs
    split at hs
    · cases hs
      exact hrest
    · rename_i e he
      split at hs
      · cases hs
      · rename_i owner howner
        cases hattach : attach owner (block? ⟨below⟩) e with
        | error _ =>
          rw [hattach] at hs
          cases hs
        | ok changed =>
          rw [hattach] at hs
          cases hs
          exact hrest.modifyOwner (hQ.attach (hrest.owner? howner) (htop e he) hattach)

end Each

end ScopeStack

end ProtobufSchema

import ProtobufSchema.Proofs.ScopeLevels
import ProtobufSchema.Proofs.Traversals
import ProtobufSchema.ScopeCalls

/-! A stack as its callers hold it is the stack of open elements with the positions that frames know
of each other. They stay linked, and a call that fails leaves them as they were. -/

namespace ProtobufSchema

open List HeldFrame ScopeStack HeldStack

variable {s : HeldStack} {tag : Tag} {α β : Type} {i : Nat}

def HeldTarget.plain : HeldTarget → FrameTarget
  | owns e => .owns e
  | delegates _ b => .block b

namespace HeldFrame

/-- The frame without positions. Oneofs are counted by the message itself. -/
def plain (f : HeldFrame) : Frame :=
  ⟨f.target.plain, f.counts.filter (·.1 ≠ .messageOneof), f.path⟩

variable {f : HeldFrame}

theorem target_of_plain {e : Element} (h : f.plain.target = .owns e) : f.target = .owns e := by
  have htarget : f.target.plain = .owns e := h
  generalize f.target = target at htarget
  cases target <;> cases htarget
  rfl

theorem count_plain (h : tag ≠ .messageOneof) (f : HeldFrame) :
    f.plain.count tag = f.count tag := by
  rw [Frame.count, plain, Frame.lookup_filter_ne h, count]

theorem plain_counting (h : tag ≠ .messageOneof) (f : HeldFrame) :
    (f.counting tag).plain = f.plain.counting tag := by
  rw [Frame.counting, count_plain h]
  simp [plain, counting, h, Bool.and_comm]

theorem plain_counting_oneof (f : HeldFrame) : (f.counting .messageOneof).plain = f.plain := by
  simp [plain, counting]

theorem at?_length (lead : List HeldFrame) (f : HeldFrame) (below : List HeldFrame) :
    at? (lead ++ f :: below) below.length = some f := by
  induction lead with
  | nil => simp [at?]
  | cons g lead ih =>
    have hne : below.length ≠ (lead ++ f :: below).length := by
      rw [length_append, length_cons]
      omega
    rw [cons_append, at?, if_neg hne, ih]

theorem at?_eq_some {frames : List HeldFrame}
    (h : at? frames i = some f) : ∃ lead below, frames = lead ++ f :: below ∧ below.length = i := by
  induction frames with
  | nil => cases h
  | cons g frames ih =>
    rw [at?] at h
    split at h
    · next hi =>
      cases h
      exact ⟨[], frames, rfl, hi.symm⟩
    · obtain ⟨lead, below, rfl, hlength⟩ := ih h
      exact ⟨g :: lead, below, rfl, hlength⟩

theorem modifyAt_length (g : HeldFrame → HeldFrame) (lead : List HeldFrame) (f : HeldFrame)
    (below : List HeldFrame) :
    modifyAt below.length g (lead ++ f :: below) = lead ++ g f :: below := by
  induction lead with
  | nil => simp [modifyAt]
  | cons h lead ih =>
    have hne : below.length ≠ (lead ++ f :: below).length := by
      rw [length_append, length_cons]
      omega
    rw [cons_append, modifyAt, if_neg hne, ih, cons_append]

def Linked : List HeldFrame → Prop
  | [] => True
  | f :: below =>
    f.parent? = (if below = [] then none else some (below.length - 1)) ∧
      (∀ i b, f.target = .delegates i b → i = below.length - 1) ∧ Linked below

theorem linked_congr {f' : HeldFrame} (hparent : f'.parent? = f.parent?)
    (htarget : ∀ i b, f'.target = .delegates i b → f.target = .delegates i b)
    {lead below : List HeldFrame} (h : Linked (lead ++ f :: below)) :
    Linked (lead ++ f' :: below) := by
  induction lead with
  | nil => exact ⟨hparent.trans h.1, fun i b hb => h.2.1 i b (htarget i b hb), h.2.2⟩
  | cons g lead ih =>
    obtain ⟨hg, hdelegates, hrest⟩ := h
    refine ⟨?_, ?_, ih hrest⟩
    · rw [hg]
      simp
    · intro i b hb
      rw [hdelegates i b hb]
      simp

end HeldFrame

namespace HeldStack

open HeldFrame (Linked)

def plain (s : HeldStack) : ScopeStack := ⟨s.frames.map HeldFrame.plain⟩

/-- The frames above that of an element: none, or that of a block that adds to its position. -/
inductive Leads (position : Nat) : List HeldFrame → Option Block → Prop
  | nothing : Leads position [] none
  | block (b : Block) (counts : List (Tag × Nat)) (path : Path) :
    Leads position [⟨.delegates position b, some position, counts, path⟩] (some b)

/-- The element that receives what is added, its frame, and the block in it that is open. -/
structure Holds (s : HeldStack) (block? : Option Block) (f : HeldFrame) (e : Element)
    (below : List HeldFrame) : Prop where
  owns : f.target = .owns e
  frames : ∃ lead, Leads below.length lead block? ∧ s.frames = lead ++ f :: below

structure Sound (s : HeldStack) : Prop where
  linked : Linked s.frames
  sound : ScopeStack.Sound s.plain.frames

theorem frameAt?_top (s : HeldStack) : s.frameAt? s.top = s.frames.head? := by
  rw [frameAt?, top]
  cases s.frames with
  | nil => rfl
  | cons f below => exact at?_length [] f below

theorem kindName_plain (s : HeldStack) : s.plain.kindName = s.kindName := by
  rw [kindName, frameAt?_top, plain]
  cases s.frames with
  | nil => rfl
  | cons f below =>
    obtain ⟨target, parent?, counts, path⟩ := f
    cases target with
    | owns e => rfl
    | delegates i b => cases b <;> rfl

theorem current?_plain (s : HeldStack) : s.plain.current? = s.current? := by
  rw [current?, frameAt?_top, plain]
  cases s.frames with
  | nil => rfl
  | cons f below =>
    obtain ⟨target, parent?, counts, path⟩ := f
    cases target <;> rfl

theorem Sound.holds (h : s.Sound) : ∃ block? f e below, s.Holds block? f e below := by
  obtain ⟨frames⟩ := s
  obtain ⟨hlinked, hsound⟩ := h
  cases frames with
  | nil => cases hsound
  | cons f below =>
    obtain ⟨target, parent?, counts, path⟩ := f
    cases target with
    | owns e => exact ⟨none, _, e, below, rfl, [], .nothing, rfl⟩
    | delegates i b =>
      obtain ⟨hparent, hdelegates, -⟩ := hlinked
      obtain rfl := hdelegates i b rfl
      obtain ⟨f', rest, rfl, e, he⟩ : ∃ f' rest, below = f' :: rest ∧ ∃ e, f'.target = .owns e := by
        obtain ⟨e, counts', path', rest', hrest⟩ := Sound.of_block hsound
        obtain ⟨f', rest, rfl, hf', -⟩ := map_eq_cons_iff.mp hrest
        exact ⟨f', rest, rfl, e, target_of_plain (congrArg Frame.target hf')⟩
      obtain rfl : parent? = some rest.length := hparent
      exact ⟨some b, f', e, rest, he, _, .block b counts path, rfl⟩

namespace Holds

variable {s : HeldStack} {within? : Option Block} {f : HeldFrame} {e : Element}
  {below : List HeldFrame}

section

variable (h : s.Holds within? f e below)
include h

theorem frameAt? : s.frameAt? below.length = some f := by
  obtain ⟨-, lead, -, hframes⟩ := h
  rw [HeldStack.frameAt?, hframes, at?_length]

theorem ownerIndex : s.ownerIndex s.top = below.length := by
  obtain ⟨howns, lead, hlead, hframes⟩ := h
  rw [HeldStack.ownerIndex, frameAt?_top, hframes]
  cases hlead with
  | nothing => simp [howns, top, hframes]
  | block b counts path => rfl

theorem ownerFrame? : s.ownerFrame? = some f := by
  rw [HeldStack.ownerFrame?, h.ownerIndex, h.frameAt?]

theorem block? : s.block? = within? := by
  obtain ⟨howns, lead, hlead, hframes⟩ := h
  rw [HeldStack.block?, frameAt?_top, hframes]
  cases hlead with
  | nothing => simp [HeldFrame.block?, howns]
  | block b counts path => rfl

theorem owner : owner s = .ok e s := by
  have helement : s.ownerFrame?.bind element? = some e := by simp [h.ownerFrame?, element?, h.owns]
  simp only [HeldStack.owner, bind, EStateM.bind, estate_get, helement]
  rfl

theorem modifyOwner (g : Element → Element) :
    modifyOwner g s = .ok () (s.modifyAt below.length (·.holding (g e))) := by
  simp only [HeldStack.modifyOwner, bind, EStateM.bind, h.owner]
  rw [← h.ownerIndex]
  rfl

theorem plain :
    Place.Holds ⟨within?, f.path, below.map HeldFrame.plain⟩ e f.plain.counts s.plain := by
  obtain ⟨howns, lead, hlead, hframes⟩ := h
  have hf : f.plain = ⟨.owns e, f.plain.counts, f.path⟩ := by
    simp [HeldFrame.plain, HeldTarget.plain, howns]
  refine ⟨lead.map HeldFrame.plain, ?_, ?_⟩
  · cases hlead with
    | nothing => exact .nothing
    | block b counts path => exact .block b _ path
  · rw [HeldStack.plain, hframes, map_append, map_cons, hf]

end

theorem plain_modifyAt (h : s.Holds within? f e below) (g : HeldFrame → HeldFrame)
    (change : Frame → Frame) (hg : (g f).plain = change f.plain) :
    (s.modifyAt below.length g).plain = ⟨modifyOwnerFrame change s.plain.frames⟩ := by
  obtain ⟨howns, lead, hlead, hframes⟩ := h
  have hsome : f.plain.element?.isSome := by
    simp [HeldFrame.plain, HeldTarget.plain, Frame.element?, howns]
  rw [HeldStack.plain, HeldStack.plain, modifyAt, hframes, modifyAt_length]
  cases hlead with
  | nothing => simp [modifyOwnerFrame, hsome, hg]
  | block b counts path =>
    have hnone :
      (HeldFrame.plain ⟨.delegates below.length b, some below.length, counts, path⟩).element? =
      none := rfl
    simp [modifyOwnerFrame, hsome, hnone, hg]

theorem linked_modifyAt (h : s.Holds within? f e below) {g : HeldFrame → HeldFrame} {e' : Element}
    (hparent : (g f).parent? = f.parent?) (htarget : (g f).target = .owns e')
    (hs : Linked s.frames) : Linked (s.modifyAt below.length g).frames := by
  obtain ⟨-, lead, hlead, hframes⟩ := h
  rw [modifyAt, hframes, modifyAt_length]
  rw [hframes] at hs
  refine linked_congr hparent (fun i b hb => ?_) hs
  rw [htarget] at hb
  cases hb

end Holds

/-- A call that does what an operation does: it answers the same and leaves the same stack, or it
fails with the same error and changes nothing. -/
def Agrees {α : Type} (s : HeldStack) (r : EStateM.Result CallError HeldStack α) :
    Except BuildError (ScopeStack × α) → Prop
  | .error e => r = .error (.refused e) s
  | .ok (t, x) => ∃ s', r = .ok x s' ∧ s'.plain = t ∧ Linked s'.frames

theorem Agrees.map {x : Call α} {t : Except BuildError (ScopeStack × α)}
    (h : s.Agrees (x s) t) (g : α → β) :
    s.Agrees ((do return g (← x)) s) (t.map fun (t, a) => (t, g a)) := by
  cases t with
  | error e =>
    have hx : x s = .error (.refused e) s := h
    simp [bind, EStateM.bind, hx, Except.map, Agrees]
  | ok r =>
    obtain ⟨s', hx, hplain, hlinked⟩ := h
    simp only [bind, EStateM.bind, hx]
    exact ⟨s', rfl, hplain, hlinked⟩

variable {f : HeldFrame} {o e : Element} {within? : Option Block} {below : List HeldFrame}

theorem nextPath_eq (h : s.frameAt? i = some f) (tag : Tag) (steps : Nat → Path) :
    nextPath i tag steps s =
      .ok (f.path ++ steps (f.count tag)) (s.modifyAt i (·.counting tag)) := by
  simp only [nextPath, bind, EStateM.bind, estate_get, h]
  rfl

theorem refuse_eq (s : HeldStack) (operation : String) : (refuse operation : Call α) s =
    .error (.refused (.invalidScope operation s.plain.kindName)) s := by
  rw [kindName_plain]
  rfl

theorem linked_push (h : Linked s.frames) (hne : s.frames ≠ []) {target : HeldTarget}
    (htarget : ∀ i b, target = .delegates i b → i = s.top) (path : Path) :
    Linked (⟨target, some s.top, [], path⟩ :: s.frames) := by
  refine ⟨?_, htarget, h⟩
  rw [if_neg hne]
  rfl

/-! ### Opening -/

theorem childTag?_ne_oneof {c : Element} (h : childTag? o within? c = some tag) :
    tag ≠ .messageOneof := by
  unfold childTag? at h
  split at h <;> cases h <;> exact Tag.noConfusion

variable {s : HeldStack}

theorem Sound.frames_ne_nil (h : s.Sound) : s.frames ≠ [] := by
  intro hnil
  have hsound := h.sound
  rw [plain, hnil] at hsound
  cases hsound

theorem modifyAt_ne_nil (h : s.frames ≠ []) (i : Nat) (g : HeldFrame → HeldFrame) :
    (s.modifyAt i g).frames ≠ [] := by
  obtain ⟨frames⟩ := s
  cases frames with
  | nil => exact absurd rfl h
  | cons f below =>
    rw [modifyAt, HeldFrame.modifyAt]
    split <;> exact cons_ne_nil _ _

theorem optionsKind?_plain (h : s.frames = f :: below) : s.plain.optionsKind? = f.optionsKind? := by
  obtain ⟨target, parent?, counts, path⟩ := f
  rw [plain, h]
  cases target with
  | owns e => rfl
  | delegates i b => cases b <;> rfl

theorem agrees_push {s' : HeldStack} {path : Path} {t : Except BuildError ScopeStack}
    (hlinked : Linked s'.frames) (hne : s'.frames ≠ [])
    (ht : t = .ok ⟨.ofElement e path :: s'.plain.frames⟩) :
    s.Agrees ((do push (.owns e) path; return path : Call Path) s')
      (t.map fun t => (t, t.path)) := by
  subst ht
  exact ⟨_, rfl, rfl, linked_push hlinked hne (fun i b hb => by cases hb) path⟩

theorem openElement_untagged (he : e.optionsKind? ≠ none)
    (htag : ∀ o within?, childTag? o within? e = none) (s : ScopeStack) :
    s.openElement e = s.refuse e.kindName := by
  unfold ScopeStack.openElement
  split
  · exact absurd rfl he
  · simp only [htag, Option.bind_fun_none]
    cases s.ownerFrame? <;> rfl

theorem frames_of_current? (h : s.current? = some e) :
    ∃ f below, s.frames = f :: below ∧ f.target = .owns e := by
  rw [current?, frameAt?_top] at h
  cases hframes : s.frames with
  | nil => simp [hframes] at h
  | cons f below =>
    obtain ⟨target, parent?, counts, path⟩ := f
    cases target with
    | owns e' =>
      simp only [hframes, head?_cons, Option.bind_some, element?, Option.some.injEq] at h
      exact ⟨_, below, rfl, congrArg _ h⟩
    | delegates i b => simp [hframes, element?] at h

theorem plain_holding (h : f.target = .owns e) (below : List HeldFrame) (e' : Element) :
    (plain ⟨f :: below⟩).modifyOwner (fun _ => e') = plain ⟨f.holding e' :: below⟩ := by
  simp [plain, ScopeStack.modifyOwner, modifyOwnerFrame, Frame.element?,
    HeldFrame.plain, HeldTarget.plain, holding, h]

theorem Sound.of_cons (h : Sound ⟨f :: below⟩) (hne : below ≠ []) : Sound ⟨below⟩ :=
  ⟨h.linked.2.2, .of_cons h.sound (by simpa [plain] using hne)⟩

theorem hand_eq {o' : Element} (h : s.Holds within? f o below)
    (hattach : attach o within? e = .ok o') :
    hand e s = .ok () (s.modifyAt below.length (·.holding o')) := by
  simp only [hand, bind, EStateM.bind, estate_get, h.ownerFrame?,
    Option.map_some, h.owns, h.block?, hattach, h.ownerIndex]
  rfl

theorem Holds.plain_holding (h : s.Holds within? f o below) (o' : Element) :
    (s.modifyAt below.length (·.holding o')).plain = s.plain.modifyOwner fun _ => o' := by
  refine h.plain_modifyAt _ _ ?_
  simp [HeldFrame.plain, HeldTarget.plain, holding, h.owns]

variable (h : s.Sound)
include h

theorem openOption_agrees (raw : RawOption) :
    s.Agrees (openElement (.option raw) s)
      ((s.plain.openElement (.option raw)).map fun t => (t, t.path)) := by
  cases hframes : s.frames with
  | nil => exact absurd hframes h.frames_ne_nil
  | cons f below =>
    have htop : s.frameAt? s.top = some f := by
      rw [frameAt?_top, hframes]
      rfl
    have hplain : s.plain.frames = f.plain :: below.map HeldFrame.plain := by
      rw [plain, hframes, map_cons]
    have hkind := optionsKind?_plain hframes
    simp only [openElement, optionPath, bind, EStateM.bind, estate_get,
      htop, Option.bind_some, ScopeStack.openElement]
    cases hcase : f.optionsKind? with
    | none =>
      simp only [refuse_eq, openOption, hkind, hcase]
      rfl
    | some kind =>
      have hmodified : s.modifyAt s.top (·.counting .uninterpreted) =
          ⟨f.counting .uninterpreted :: below⟩ := by
        rw [modifyAt, top, hframes]
        exact congrArg mk (modifyAt_length _ [] f below)
      have hlinked : Linked (f.counting .uninterpreted :: below) := by
        have hs := h.linked
        rw [hframes] at hs
        exact ⟨hs.1, hs.2⟩
      simp only [nextPath_eq htop, hmodified]
      refine agrees_push hlinked (cons_ne_nil _ _) ?_
      simp only [openOption, hkind, hcase, hplain]
      rw [count_plain Tag.noConfusion, ← plain_counting Tag.noConfusion]
      rfl

theorem openChild_agrees (he : e.optionsKind? ≠ none) :
    s.Agrees ((do let path ← childPath e; push (.owns e) path; return path) s)
      ((s.plain.openElement e).map fun t => (t, t.path)) := by
  obtain ⟨within?, f, o, below, hholds⟩ := h.holds
  have hpure : s.plain.openElement e =
          (childTag? o within? e).elim (s.plain.refuse e.kindName) fun tag =>
        .ok ⟨.ofElement e (f.path ++ [tag.step, .ofNat (f.plain.count tag)]) ::
          modifyOwnerFrame (.counting · tag) s.plain.frames⟩ := by
    unfold ScopeStack.openElement
    split
    · exact absurd rfl he
    · simp only [hholds.plain.ownerFrame?, hholds.plain.owner?, hholds.plain.block?,
        Option.bind_some]
      cases childTag? o within? e <;> rfl
  rw [hpure]
  simp only [childPath, bind, EStateM.bind, hholds.owner, estate_get, hholds.block?,
    hholds.ownerIndex]
  cases htag : childTag? o within? e with
  | none =>
    simp only [refuse_eq]
    rfl
  | some tag =>
    rw [Option.elim_some]
    have hne := childTag?_ne_oneof htag
    have hmodified := hholds.plain_modifyAt (·.counting tag) (·.counting tag) (plain_counting hne f)
    simp only [nextPath_eq hholds.frameAt?]
    refine agrees_push (hholds.linked_modifyAt rfl hholds.owns h.linked) ?_ ?_
    · exact modifyAt_ne_nil h.frames_ne_nil _ _
    · rw [hmodified, count_plain hne]

theorem openElement_agrees (e : Element) :
    s.Agrees (openElement e s) ((s.plain.openElement e).map fun t => (t, t.path)) := by
  cases e with
  | option raw => exact openOption_agrees h raw
  | file f =>
    have htag (o : Element) (within? : Option Block) : childTag? o within? (.file f) = none := by
      cases o <;> rfl
    rw [openElement_untagged (e := .file f) nofun htag]
    simp only [openElement, bind, EStateM.bind, refuse_eq]
    rfl
  | oneof x =>
    have htag (o : Element) (within? : Option Block) : childTag? o within? (.oneof x) = none := by
      cases o <;> rfl
    rw [openElement_untagged (e := .oneof x) nofun htag]
    simp only [openElement, bind, EStateM.bind, refuse_eq]
    rfl
  | _ => exact openChild_agrees h nofun

theorem openExtend_agrees (extendee : String) :
    s.Agrees (openExtend extendee s) ((s.plain.openExtend extendee).map fun t => (t, t.path)) := by
  obtain ⟨within?, f, o, below, hholds⟩ := h.holds
  have hindex := hholds.ownerIndex
  have hat := hholds.frameAt?
  obtain ⟨howns, lead, hlead, hframes⟩ := hholds
  simp only [openExtend, bind, EStateM.bind, estate_get, hindex, hat,
    howns, ScopeStack.openExtend, current?_plain]
  cases hlead with
  | nothing =>
    have htop : s.top = below.length := by simp [top, hframes]
    have hcurrent : s.current? = some o := by
      simp [current?, frameAt?_top, hframes, element?, howns]
    have hpath : s.plain.path = f.path := by simp [ScopeStack.path, plain, hframes, HeldFrame.plain]
    have hpush (path : Path) : s.Agrees (openExtend.openBlock extendee below.length path s)
        (.ok (s.plain.openBlock (.extend extendee) path, path)) := by
      refine ⟨_, rfl, rfl, linked_push h.linked h.frames_ne_nil (fun i b hb => ?_) path⟩
      cases hb
      exact htop.symm
    rw [← htop, beq_self_eq_true, htop, hcurrent, hpath]
    cases o with
    | file x => exact hpush _
    | message m => exact hpush _
    | _ =>
      simp only [refuse_eq]
      rfl
  | block b counts path =>
    have hcurrent : s.current? = none := by simp [current?, frameAt?_top, hframes, element?]
    have htop : (below.length == s.top) = false := by simp [top, hframes]
    rw [htop, hcurrent]
    simp only [refuse_eq]
    cases o <;> rfl

theorem openOneof_agrees (x : OneofDescriptor) :
    s.Agrees (openOneof x s) (s.plain.openOneof x) := by
  simp only [openOneof, bind, EStateM.bind, estate_get, ScopeStack.openOneof, current?_plain]
  cases hcurrent : s.current? with
  | none =>
    simp only [refuse_eq]
    rfl
  | some e =>
    cases e with
    | message m =>
      obtain ⟨f, below, hframes, howns⟩ := frames_of_current? hcurrent
      have htop : s.top = below.length := by simp [top, hframes]
      have hmodified (f' : HeldFrame) (g : HeldFrame → HeldFrame) :
          modifyAt ⟨f' :: below⟩ below.length g = ⟨g f' :: below⟩ :=
        congrArg mk (modifyAt_length g [] f' below)
      obtain rfl : s = ⟨f :: below⟩ := congrArg mk hframes
      have hat (f' : HeldFrame) : (⟨f' :: below⟩ : HeldStack).frameAt? below.length = some f' :=
        at?_length [] f' below
      simp only [htop, EStateM.bind, estate_modify, hmodified, nextPath_eq (hat _)]
      refine ⟨_, rfl, ?_, ?_⟩
      · rw [plain_holding howns]
        simp only [plain, map_cons, plain_counting_oneof]
        rfl
      · refine linked_push ?_ (cons_ne_nil _ _) ?_ _
        · exact ⟨h.linked.1, fun _ _ hb => (by cases hb), h.linked.2.2⟩
        · intro i b hb
          cases hb
          rfl
    | _ =>
      simp only [refuse_eq]
      rfl

/-! ### Closing -/

theorem close_agrees : s.Agrees (close s) (s.plain.close.map fun t => (t, ())) := by
  obtain ⟨frames⟩ := s
  rcases frames with _ | ⟨f, _ | ⟨g, below⟩⟩
  · exact absurd rfl h.frames_ne_nil
  · rfl
  · obtain ⟨t, hclose, -⟩ := h.sound.close rfl (cons_ne_nil _ _)
    have hbelow := h.of_cons (cons_ne_nil g below)
    obtain ⟨target, parent?, counts, path⟩ := f
    cases target with
    | delegates i b => exact ⟨_, rfl, rfl, hbelow.linked⟩
    | owns e =>
      obtain ⟨within?, f, o, rest, hholds⟩ := hbelow.holds
      have hpure : (plain ⟨⟨.owns e, parent?, counts, path⟩ :: g :: below⟩).close =
          (attach o within? e).map fun o' =>
            (plain ⟨g :: below⟩).modifyOwner fun _ => o' := by
        have hblock : (plain ⟨g :: below⟩).block? = within? := hholds.plain.block?
        rw [← hblock]
        exact close_owned rfl (cons_ne_nil _ _) hholds.plain.owner?
      cases hattach : attach o within? e with
      | error err =>
        rw [hpure, hattach] at hclose
        cases hclose
      | ok o' =>
        rw [hpure, hattach]
        refine ⟨_, hand_eq hholds hattach, hholds.plain_holding o', ?_⟩
        exact hholds.linked_modifyAt rfl rfl hbelow.linked

theorem addOption_agrees (raw : RawOption) :
    s.Agrees (addOption raw s) ((s.plain.addOption raw).map fun t => (t, ())) := by
  have hopen := openElement_agrees h (.option raw)
  have hpure : s.plain.addOption raw = (s.plain.openElement (.option raw)).bind (·.close) := rfl
  simp only [addOption, bind, EStateM.bind]
  rw [hpure]
  cases hplain : s.plain.openElement (.option raw) with
  | error err =>
    rw [hplain] at hopen
    rw [show openElement (.option raw) s = _ from hopen]
    rfl
  | ok t =>
    rw [hplain] at hopen
    obtain ⟨s', hheld, rfl, hlinked⟩ := hopen
    obtain ⟨hsound, -⟩ := h.sound.openElement hplain
    obtain ⟨t, hclose⟩ := exists_close_of_openElement h.sound hplain
    have hagrees := close_agrees ⟨hlinked, hsound⟩
    rw [hclose] at hagrees
    obtain ⟨s'', hheld', hplain', hlinked'⟩ := hagrees
    rw [hheld, show (Except.ok s'.plain).bind (·.close) = .ok t from hclose]
    exact ⟨s'', hheld', hplain', hlinked'⟩

end HeldStack

namespace ScopeCall

/-- What a call asks for, done to a stack of open elements. -/
def step (s : ScopeStack) : ScopeCall → Except BuildError (ScopeStack × Answer)
  | openElement e => (s.openElement e).map fun t => (t, .path t.path)
  | openExtend extendee => (s.openExtend extendee).map fun t => (t, .path t.path)
  | openOneof o => (s.openOneof o).map fun (t, index) => (t, .index index)
  | close => s.close.map fun t => (t, .done)
  | addOption raw => (s.addOption raw).map fun t => (t, .done)

theorem step_sound {s t : ScopeStack} (h : Sound s.frames) {c : ScopeCall} {a : Answer}
    (hstep : c.step s = .ok (t, a)) : Sound t.frames := by
  cases c with
  | openElement e =>
    obtain ⟨t', hopen, heq⟩ := map_eq_ok hstep
    cases heq
    exact (h.openElement hopen).1
  | openExtend extendee =>
    obtain ⟨t', hopen, heq⟩ := map_eq_ok hstep
    cases heq
    exact (h.openExtend hopen).1
  | openOneof o =>
    obtain ⟨⟨t', index⟩, hopen, heq⟩ := map_eq_ok hstep
    cases heq
    exact (h.openOneof hopen).1
  | close =>
    obtain ⟨t', hclose, heq⟩ := map_eq_ok hstep
    cases heq
    exact h.close_ok hclose
  | addOption raw =>
    obtain ⟨t', hadd, heq⟩ := map_eq_ok hstep
    cases heq
    obtain ⟨t'', hopen, hclose⟩ := addOption_ok hadd
    exact (h.openElement hopen).1.close_ok hclose

theorem perform_agrees (h : s.Sound) (c : ScopeCall) : s.Agrees (c.perform s) (c.step s.plain) := by
  have map_map {α β γ : Type} (x : Except BuildError α) (f : α → β) (g : β → γ) :
      (x.map f).map g = x.map fun a => g (f a) := by
    cases x <;> rfl
  cases c with
  | openElement e =>
    have hmap := (openElement_agrees h e).map Answer.path
    rwa [map_map] at hmap
  | openExtend extendee =>
    have hmap := (openExtend_agrees h extendee).map Answer.path
    rwa [map_map] at hmap
  | openOneof o => exact (openOneof_agrees h o).map Answer.index
  | close =>
    have hmap := (close_agrees h).map fun _ => Answer.done
    rwa [map_map] at hmap
  | addOption raw =>
    have hmap := (addOption_agrees h raw).map fun _ => Answer.done
    rwa [map_map] at hmap

end ScopeCall

namespace HeldStack

open ScopeCall (step_sound perform_agrees)

variable {s : HeldStack}

theorem sound_ofFile (file : FileDescriptor) : (ofFile file).Sound :=
  ⟨⟨rfl, fun _ _ hb => (nomatch hb), trivial⟩, .root file [] []⟩

theorem Sound.after (h : s.Sound) (c : ScopeCall) : (s.after c).Sound := by
  have hagrees := perform_agrees h c
  rw [HeldStack.after]
  cases hstep : c.step s.plain with
  | error e =>
    rw [hstep] at hagrees
    rw [show c.perform s = _ from hagrees]
    exact h
  | ok r =>
    rw [hstep] at hagrees
    obtain ⟨s', hperform, hplain, hlinked⟩ := hagrees
    rw [hperform]
    exact ⟨hlinked, hplain ▸ step_sound h.sound hstep⟩

theorem Sound.run (h : s.Sound) (calls : List ScopeCall) : (s.run calls).Sound := by
  induction calls generalizing s with
  | nil => exact h
  | cons c calls ih => exact ih (h.after c)

theorem Sound.suffix {lead below : List HeldFrame} (h : Sound ⟨lead ++ below⟩) (hne : below ≠ []) :
    Sound ⟨below⟩ := by
  induction lead with
  | nil => exact h
  | cons f lead ih => exact ih (h.of_cons (by simp [hne]))

theorem Sound.root (h : s.Sound) : ∃ f, (s.frameAt? 0).bind element? = some (.file f) := by
  obtain ⟨frames⟩ := s
  obtain ⟨lead, f, rfl⟩ : ∃ lead f, frames = lead ++ [f] :=
    ⟨_, _, (dropLast_append_getLast h.frames_ne_nil).symm⟩
  obtain ⟨file, hfile⟩ : ∃ file, f.plain.target = .owns (.file file) := by
    have hsound := (h.suffix (cons_ne_nil f [])).sound
    rw [plain, map_singleton] at hsound
    generalize f.plain = g at hsound
    cases hsound with
    | root file => exact ⟨file, rfl⟩
    | child h => cases h
  refine ⟨file, ?_⟩
  rw [frameAt?, show (0 : Nat) = ([] : List HeldFrame).length from rfl, at?_length,
    Option.bind_some, element?, target_of_plain hfile]

theorem Sound.delegates (h : s.Sound) {ancestor : Nat} {f : HeldFrame} {b : Block}
    (hf : s.frameAt? i = some f) (htarget : f.target = .delegates ancestor b) :
    ancestor < i ∧ ∃ e, (s.frameAt? ancestor).bind element? = some e := by
  obtain ⟨lead, below, hframes, rfl⟩ := at?_eq_some hf
  obtain ⟨frames⟩ := s
  obtain rfl : frames = lead ++ f :: below := hframes
  obtain ⟨within?, g, e, rest, howns, lead', hlead, heq⟩ := (h.suffix (cons_ne_nil f below)).holds
  cases hlead with
  | nothing =>
    cases heq
    rw [htarget] at howns
    cases howns
  | block b' counts path =>
    obtain ⟨rfl, rfl⟩ : f = _ ∧ below = g :: rest := cons_eq_cons.mp heq
    cases htarget
    have hancestor (f : HeldFrame) : frameAt? ⟨lead ++ f :: g :: rest⟩ rest.length = some g := by
      rw [append_cons]
      exact at?_length _ g rest
    refine ⟨Nat.lt_succ_self _, e, ?_⟩
    rw [hancestor, Option.bind_some, element?, howns]

theorem Sound.close_error (h : s.Sound) : (∃ e s', close s = .error e s') ↔ s.depth = 1 := by
  have hagrees := close_agrees h
  obtain ⟨frames⟩ := s
  rcases frames with _ | ⟨f, _ | ⟨g, below⟩⟩
  · exact absurd rfl h.frames_ne_nil
  · exact ⟨fun _ => rfl, fun _ => ⟨_, _, hagrees⟩⟩
  · obtain ⟨t, hclose, -⟩ := h.sound.close rfl (cons_ne_nil _ _)
    rw [hclose] at hagrees
    obtain ⟨s', hheld, -⟩ := hagrees
    constructor
    · rintro ⟨e, s'', herror⟩
      rw [hheld] at herror
      cases herror
    · intro hdepth
      cases hdepth

structure Kept (s : HeldStack) : Prop where
  root : ∃ f, (s.frameAt? 0).bind HeldFrame.element? = some (.file f)
  delegates : ∀ i f ancestor b, s.frameAt? i = some f → f.target = .delegates ancestor b →
    ancestor < i ∧ ∃ e, (s.frameAt? ancestor).bind HeldFrame.element? = some e
  owner : ∃ e, owner s = .ok e s
  modifyOwner : ∀ g, ∃ s', modifyOwner g s = .ok () s'
  failed : ∀ (c : ScopeCall) e s', c.perform s = .error e s' → s' = s ∧ ∃ cause, e = .refused cause
  close : (∃ e s', close s = .error e s') ↔ s.depth = 1

/-- Calls of any kind and in any order, of which some may fail, keep the frames of a stack in
order. -/
theorem run_kept (file : FileDescriptor) (calls : List ScopeCall) :
    ((ofFile file).run calls).Kept := by
  have h := (sound_ofFile file).run calls
  generalize (ofFile file).run calls = s at h
  obtain ⟨within?, f, o, below, hholds⟩ := h.holds
  refine ⟨h.root, fun i f ancestor b => h.delegates, ⟨o, hholds.owner⟩,
    fun g => ⟨_, hholds.modifyOwner g⟩, fun c e s' herror => ?_, h.close_error⟩
  · have hagrees := perform_agrees h c
    cases hstep : c.step s.plain with
    | error cause =>
      rw [hstep] at hagrees
      cases herror.symm.trans hagrees
      exact ⟨rfl, cause, rfl⟩
    | ok r =>
      rw [hstep] at hagrees
      obtain ⟨s'', hok, -⟩ := hagrees
      cases herror.symm.trans hok

end HeldStack

end ProtobufSchema

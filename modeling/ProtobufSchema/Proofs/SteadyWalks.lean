import ProtobufSchema.Proofs.OrderlyAssembly

/-! From a sound stack every operation of a walk succeeds and leaves a sound stack, so a file is
assembled up to the values of its options. -/

namespace ProtobufSchema

namespace ScopeStack

variable {kind : OptionsKind} {e : Element}

def Stands (levels : List Level) (s : ScopeStack) : Prop := Sound s.frames ∧ s.levels = levels

variable {levels before after : List Level} {s : ScopeStack}

theorem Stands.current? (h : s.Stands (.element (some kind) :: levels)) :
    ∃ e, s.current? = some e ∧ e.optionsKind? = some kind := by
  obtain ⟨⟨target, counts, path⟩, below, hframes, htarget, -⟩ := List.map_eq_cons_iff.mp h.2
  cases target with
  | owns e =>
    refine ⟨e, ?_, by simpa [Level.ofTarget] using htarget⟩
    rw [ScopeStack.current?, hframes]
    rfl
  | block b => cases b <;> cases htarget

theorem Stands.openElement (hs : s.Stands levels) (h : Level.admits levels e.optionsKind? = true) :
    ∃ s', s.openElement e = .ok s' ∧ s'.Stands (.element e.optionsKind? :: levels) := by
  obtain ⟨hsound, rfl⟩ := hs
  have hok := isOk_openElement (c := e) hsound
  rw [h] at hok
  cases hopen : s.openElement e with
  | error err => simp [hopen, Except.toBool] at hok
  | ok s' => exact ⟨s', rfl, hsound.openElement hopen⟩

theorem Stands.close {level : Level} (hs : s.Stands (level :: levels)) (h : levels ≠ []) :
    ∃ s', s.close = .ok s' ∧ s'.Stands levels := by
  obtain ⟨hsound, hlevels⟩ := hs
  obtain ⟨f, below, hframes, -, rfl⟩ := List.map_eq_cons_iff.mp hlevels
  have hne : below ≠ [] := fun hnil => h (by rw [hnil]; rfl)
  exact hsound.close hframes hne

theorem Stands.openExtend (hs : s.Stands (.element (some kind) :: levels))
    (hkind : kind = .file ∨ kind = .message) (extendee : String) :
    ∃ s', s.openExtend extendee = .ok s' ∧
      s'.Stands (.extend :: .element (some kind) :: levels) := by
  obtain ⟨e, hcurrent, he⟩ := hs.current?
  obtain ⟨s', hopen⟩ : ∃ s', s.openExtend extendee = .ok s' := by
    unfold ScopeStack.openExtend
    rw [hcurrent]
    rcases hkind with rfl | rfl
    all_goals cases e <;> cases he
    all_goals exact ⟨_, rfl⟩
  obtain ⟨hsound, hlevels⟩ := hs.1.openExtend hopen
  exact ⟨s', hopen, hsound, hlevels.trans (congrArg _ hs.2)⟩

theorem Stands.openOneof (hs : s.Stands (.element (some .message) :: levels))
    (o : OneofDescriptor) :
    ∃ s', (s.openOneof o).map (·.1) = .ok s' ∧
      s'.Stands (.oneof :: .element (some .message) :: levels) := by
  obtain ⟨e, hcurrent, hkind⟩ := hs.current?
  cases e with
  | message m =>
    obtain ⟨s', index, hopen⟩ : ∃ s' index, s.openOneof o = .ok (s', index) := by
      simp only [ScopeStack.openOneof, hcurrent]
      exact ⟨_, _, rfl⟩
    obtain ⟨hsound, hlevels⟩ := hs.1.openOneof hopen
    refine ⟨s', ?_, hsound, hlevels.trans (congrArg _ hs.2)⟩
    rw [hopen]
    rfl
  | _ => cases hkind

theorem Stands.revise {e' : Element} (hs : s.Stands levels) (he : s.current? = some e)
    (hlike : Resembles e e') : (s.modifyOwner fun _ => e').Stands levels := by
  obtain ⟨hsound, hlevels, -⟩ := hs.1.modifyCurrent he hlike
  exact ⟨hsound, hlevels.trans hs.2⟩

theorem Operation.ends {op : ScopeStack → Except BuildError ScopeStack}
    (hop : Operation before op after) (hs : s.Stands before) :
    ∃ s', op s = .ok s' ∧ s'.Stands after := by
  cases hop with
  | openElement _ h => exact hs.openElement h
  | openExtend hkind extendee => exact hs.openExtend hkind extendee
  | openOneof _ => exact hs.openOneof _
  | close h => exact hs.close h
  | reviseMessage _ honeofs =>
    obtain ⟨e, hcurrent, hkind⟩ := hs.current?
    cases e with
    | message m =>
      refine ⟨_, ?_, hs.revise hcurrent (resembles_of_message (honeofs m))⟩
      simp [ScopeStack.reviseMessage, hcurrent]
    | _ => cases hkind
  | @reviseEnum _ f =>
    obtain ⟨e, hcurrent, hkind⟩ := hs.current?
    cases e with
    | enum x =>
      have hlike : Resembles (.enum x) (.enum (f x)) :=
        resembles_of_kind rfl fun hno => by cases hno
      refine ⟨_, ?_, hs.revise hcurrent hlike⟩
      simp [ScopeStack.reviseEnum, hcurrent]
    | _ => cases hkind

theorem Stands.finish (h : s.Stands [.element (some .file)]) :
    s.depth = 1 ∧ ∃ file, s.finish = .ok file := by
  obtain ⟨hsound, hlevels⟩ := h
  obtain ⟨f, hframes, -⟩ := List.map_eq_singleton_iff.mp hlevels
  rw [hframes] at hsound
  rw [depth, ScopeStack.finish, hframes]
  cases hsound with
  | root file => exact ⟨rfl, file, rfl⟩
  | child h => cases h

end ScopeStack

/-- Where a computation ends: at these levels, or on the value of an option. -/
def Assembly.Ends {α : Type} (levels : List Level) : EStateM.Result BuildError Assembly α → Prop
  | .ok _ a => a.stack.Stands levels
  | .error e _ => ∃ option reason, e = .optionValue option reason

theorem Assembly.Orderly.ends {α : Type} {before after : List Level} {x : Assemble α}
    (h : Orderly before x after) {a : Assembly} (ha : a.stack.Stands before) :
    Ends after (x a) := by
  induction h generalizing a with
  | pure r => exact ha
  | optionValue option reason => exact ⟨option, reason, rfl⟩
  | @bind_yields _ _ _ _ _ _ x f _ hyields _ ihx ihf =>
    have hends := ihx ha
    simp only [Bind.bind, EStateM.bind]
    cases hrun : x a with
    | ok r a' =>
      rw [hrun] at hends
      exact ihf r (hyields.estate hrun) hends
    | error e a' =>
      rw [hrun] at hends
      exact hends
  | look _ _ ih => exact ih a ha
  | @change levels f hstack _ _ =>
    change (f a).stack.Stands levels
    rw [hstack]
    exact ha
  | report cause span message => exact ha
  | onStack hop =>
    obtain ⟨s', hs, hs'⟩ := hop.ends ha
    simp only [Assembly.onStack, Bind.bind, EStateM.bind, estate_get, hs]
    exact hs'

namespace Tree.File

open Assembly

/-- Every tree is assembled, and every frame that was opened is closed then, unless the value of an
option stops the walk. No operation on the stack fails. -/
theorem assemble_ends (tree : File) (name : String) (log : Log) :
    (∃ a built, walkFile tree (initial name tree log) = .ok () a ∧ a.stack.depth = 1 ∧
      tree.assemble name log = .ok built a.log) ∨
    ∃ option reason a, walkFile tree (initial name tree log) =
      .error (.optionValue option reason) a ∧
      tree.assemble name log = .error (.optionValue option reason) a.log := by
  have hinitial : (initial name tree log).stack.Stands [.element (some .file)] :=
    ⟨.root (header name tree) [] [], rfl⟩
  have hends := (walkFile_orderly tree).ends hinitial
  cases hwalk : walkFile tree (initial name tree log) with
  | ok u a =>
    rw [hwalk] at hends
    obtain ⟨hdepth, file, hfinish⟩ := ScopeStack.Stands.finish hends
    obtain ⟨built, hbuilt⟩ : ∃ built, tree.assemble name log = .ok built a.log := by
      simp only [assemble, hwalk, hfinish]
      exact ⟨_, rfl⟩
    exact Or.inl ⟨a, built, rfl, hdepth, hbuilt⟩
  | error e a =>
    rw [hwalk] at hends
    obtain ⟨option, reason, rfl⟩ := hends
    refine Or.inr ⟨option, reason, a, rfl, ?_⟩
    simp only [assemble, hwalk]

end Tree.File

end ProtobufSchema

import ProtobufSchema.Assembly.Walk
import ProtobufSchema.Proofs.ExtensionRanges
import ProtobufSchema.Proofs.ScopeLevels
import ProtobufSchema.Proofs.ScopeOptions
import ProtobufSchema.Proofs.Traversals

/-! What assembling is made of: every walk looks at all of the state but the log, and opens and
closes what the levels of the stack admit. What these operations keep is kept by the whole. -/

namespace ProtobufSchema

open Level (admits)

variable {members : Assemble Unit}
variable {a : Assembly} (tree : File) (name : String)

namespace ScopeStack

def reviseMessage (f : MessageDescriptor → MessageDescriptor) (e : BuildError) (s : ScopeStack) :
    Except BuildError ScopeStack :=
  match s.current? with
  | some (.message m) => .ok (s.modifyOwner fun _ => .message (f m))
  | _ => .error e

def reviseEnum (f : EnumDescriptor → EnumDescriptor) (e : BuildError) (s : ScopeStack) :
    Except BuildError ScopeStack :=
  match s.current? with
  | some (.enum x) => .ok (s.modifyOwner fun _ => .enum (f x))
  | _ => .error e

/-- What assembling does to a stack of certain levels, and the levels after it. New elements have
their options as they are assembled, and a message loses no oneof. -/
inductive Operation : List Level → (ScopeStack → Except BuildError ScopeStack) → List Level → Prop
  | openElement {levels : List Level} {e : Element} (he : e.IsFresh)
    (h : admits levels e.optionsKind? = true) :
    Operation levels (·.openElement e) (.element e.optionsKind? :: levels)
  | openExtend {levels : List Level} {kind : OptionsKind} (hkind : kind = .file ∨ kind = .message)
    (extendee : String) : Operation (.element (some kind) :: levels) (·.openExtend extendee)
      (.extend :: .element (some kind) :: levels)
  | openOneof {levels : List Level} {o : OneofDescriptor} (ho : o.options = none) :
    Operation (.element (some .message) :: levels) (fun s => (s.openOneof o).map (·.1))
      (.oneof :: .element (some .message) :: levels)
  | close {levels : List Level} (h : levels ≠ []) (level : Level) :
    Operation (level :: levels) (·.close) levels
  | reviseMessage {levels : List Level} {f : MessageDescriptor → MessageDescriptor}
    (hf : ∀ m, m.IsFresh → (f m).IsFresh) (honeofs : ∀ m, m.oneofs.length ≤ (f m).oneofs.length)
    (e : BuildError) : Operation (.element (some .message) :: levels) (reviseMessage f e)
      (.element (some .message) :: levels)
  | reviseEnum {levels : List Level} {f : EnumDescriptor → EnumDescriptor}
    (hf : ∀ x, x.IsFresh → (f x).IsFresh) (e : BuildError) :
    Operation (.element (some .enum) :: levels) (reviseEnum f e) (.element (some .enum) :: levels)

end ScopeStack

instance : Logged Assembly := ⟨fun a log => { a with log := log }⟩

open Logged (withLog)

namespace Assembly

variable {a' : Assembly} {field : FieldDescriptor} (scope : Nat) (m : MapField)

theorem onStack_ok {op : ScopeStack → Except BuildError ScopeStack} {u : PUnit}
    (h : onStack op a = .ok u a') : ∃ s, op a.stack = .ok s ∧ a' = { a with stack := s } := by
  have h := get_ok h
  cases hop : op a.stack with
  | error e =>
    rw [hop] at h
    cases h
  | ok s =>
    rw [hop] at h
    cases h
    exact ⟨s, rfl, rfl⟩

/-- A computation that does not look at the log, changes the stack by its operations, and passes
from levels to levels. Only the value of an option stops it. -/
inductive Orderly : {α : Type} → List Level → Assemble α → List Level → Prop
  | pure {α : Type} {levels : List Level} (r : α) : Orderly levels (Pure.pure r : Assemble α) levels
  | optionValue {α : Type} {before after : List Level} (option reason : String) :
    Orderly before (throw (.optionValue option reason) : Assemble α) after
  | bind_yields {α β : Type} {P : α → Prop} {before between after : List Level} {x : Assemble α}
    {f : α → Assemble β} : Orderly before x between → Yields P x →
    (∀ r, P r → Orderly between (f r) after) → Orderly before (x >>= f) after
  | look {α : Type} {before after : List Level} {f : Assembly → Assemble α} :
    (∀ a log, f (withLog a log) = f a) → (∀ a, Orderly before (f a) after) →
    Orderly before (get >>= f) after
  | change {levels : List Level} {f : Assembly → Assembly} :
    (∀ a, (f a).stack = a.stack) → (∀ a log, f (withLog a log) = withLog (f a) log) →
    (∀ a, a.locations.spans <+: (f a).locations.spans) → Orderly levels (modify f) levels
  | report {levels : List Level} (cause : Cause) (span : Span) (message : String) :
    Orderly levels (report cause span message) levels
  | onStack {before after : List Level} {op : ScopeStack → Except BuildError ScopeStack} :
    ScopeStack.Operation before op after → Orderly before (onStack op) after

/-- A computation that comes back to the levels it started from. -/
abbrev Steady {α : Type} (levels : List Level) (x : Assemble α) : Prop := Orderly levels x levels

namespace Orderly

variable {α β : Type} {before between after levels : List Level} {x : Assemble α}

theorem aside {f : Assembly → Assembly}
    (h : ∀ a log, (f a).stack = a.stack ∧ f (withLog a log) = withLog (f a) log ∧
      (f a).locations = a.locations) : Steady levels (modify f) :=
  .change (fun a => (h a a.log).1) (fun a log => (h a log).2.1) fun a => (h a a.log).2.2 ▸
    List.prefix_rfl

theorem bind {f : α → Assemble β} (hx : Orderly before x between)
    (hf : ∀ r, Orderly between (f r) after) : Orderly before (x >>= f) after :=
  hx.bind_yields (.of_estate fun _ _ _ _ => trivial) fun r _ => hf r

theorem ite {c : Prop} [Decidable c] {y : Assemble α} (hx : Orderly before x after)
    (hy : Orderly before y after) : Orderly before (if c then x else y) after := by
  split
  · exact hx
  · exact hy

theorem forM {f : α → Assemble PUnit} (h : ∀ x, Steady levels (f x)) (xs : List α) :
    Steady levels (xs.forM f) := by
  induction xs with
  | nil => exact pure _
  | cons x xs ih => exact (h x).bind fun _ => ih

theorem foldlM {f : β → α → Assemble β} (h : ∀ b x, Steady levels (f b x)) (b : β) (xs : List α) :
    Steady levels (xs.foldlM f b) := by
  induction xs generalizing b with
  | nil => exact pure b
  | cons x xs ih => exact (h b x).bind fun b' => ih b'

theorem keeps {Inv : ScopeStack → Prop}
    (hop : ∀ before op after, ScopeStack.Operation before op after → ∀ s s', Inv s →
      op s = .ok s' → Inv s')
    (h : Orderly before x after) {r : α} (ha : Inv a.stack) (hx : x a = .ok r a') :
    Inv a'.stack := by
  induction h generalizing a a' with
  | pure r =>
    cases hx
    exact ha
  | optionValue option reason => cases hx
  | bind_yields _ hyields _ ihx ihf =>
    obtain ⟨s, _, hs, hx⟩ := bind_ok hx
    exact ihf s (hyields.estate hs) (ihx ha hs) hx
  | look _ _ ih => exact ih a ha hx
  | change hstack _ _ =>
    cases hx
    rw [hstack]
    exact ha
  | report cause span message =>
    cases hx
    exact ha
  | @onStack _ _ op hop' =>
    obtain ⟨_, hstack, rfl⟩ := onStack_ok hx
    exact hop _ op _ hop' _ _ ha hstack

theorem spans (h : Orderly before x after) {r : α} (hx : x a = .ok r a') :
    a.locations.spans <+: a'.locations.spans := by
  induction h generalizing a a' with
  | optionValue option reason => cases hx
  | bind_yields _ hyields _ ihx ihf =>
    obtain ⟨s, _, hs, hx⟩ := bind_ok hx
    exact (ihx hs).trans (ihf s (hyields.estate hs) hx)
  | look _ _ ih => exact ih a hx
  | change _ _ hspans =>
    cases hx
    exact hspans a
  | pure | report =>
    cases hx
    exact List.prefix_rfl
  | onStack _ =>
    obtain ⟨_, _, rfl⟩ := onStack_ok hx
    exact List.prefix_rfl

theorem reports (h : Orderly before x after) : Reports (fun _ => True) x := by
  induction h with
  | pure r => exact .pure r
  | optionValue option reason => exact .throw _
  | bind_yields _ hyields _ ihx ihf =>
    exact ihx.bind_of fun _ r _ hr => ihf r (hyields.estate hr)
  | look hlog _ ih => exact .get_bind hlog ih
  | change _ hlog _ => exact .modify hlog
  | report cause span message =>
    exact .modify_report
      (d := fun a => ((Diagnostic.violation cause message).located (some span)).inFile a.fileName)
      (fun _ => trivial) fun _ _ => rfl
  | onStack _ =>
    apply Reports.get_bind
    · intro a log
      rfl
    · intro a
      split
      · exact .modify fun _ _ => rfl
      · exact .throw _

end Orderly

theorem declare_eq (kind : SymbolKind) (span : Span) : declare name kind span = (do
      let a ← get
      match if a.taken.contains (a.scope, name) then none
          else (a.symbols.add a.scope name kind).toOption with
      | some (symbols, node) => do
        modify fun a => { a with symbols := symbols }
        return some node
      | none => do
        reportDuplicate a.scope name span
        return none) := by
  funext a
  simp only [declare, bind, EStateM.bind, estate_get]
  generalize (if a.taken.contains (a.scope, name) = true then none
    else (a.symbols.add a.scope name kind).toOption) = added?
  cases added? <;> rfl

theorem takeName_eq (span : Span) : takeName scope name span = (do
      let a ← get
      if (a.symbols.child? scope name).isSome || a.taken.contains (scope, name) then
        reportDuplicate scope name span
        return false
      else
        modify fun b => { b with taken := (scope, name) :: a.taken }
        return true) := by
  funext a
  simp only [takeName, bind, EStateM.bind, estate_get]
  split <;> rfl

theorem modifyMessage_eq (f : MessageDescriptor → MessageDescriptor) : modifyMessage f =
      onStack (ScopeStack.reviseMessage f (.invalidScope "message body" "non-message")) := by
  funext a
  simp only [modifyMessage, onStack, ScopeStack.reviseMessage, bind, EStateM.bind, estate_get]
  generalize a.stack.current? = e?
  cases e? with
  | none => rfl
  | some e => cases e <;> rfl

open ProtobufSchema.Tree

theorem walkEnumMember_reserved (c : EnumClaims) (r : Reserved) :
    walkEnumMember scope c (.reserved r) = (do
      onStack (ScopeStack.reviseEnum (fun e => { e with
        reservedRanges := e.reservedRanges ++
          r.ranges.map fun (first, last) => (⟨some first, some last⟩ : ReservedRange)
        reservedNames := e.reservedNames ++ r.names }) (.invalidScope "reserved" "non-enum"))
      return { c with
        reservedRanges := c.reservedRanges ++ r.ranges
        reservedNames := c.reservedNames ++ r.names }) := by
  funext a
  simp only [walkEnumMember, onStack, ScopeStack.reviseEnum, bind, EStateM.bind, estate_get]
  generalize a.stack.current? = e?
  cases e? with
  | none => rfl
  | some e => cases e <;> rfl

variable {levels : List Level} {level : Level} {name : String} {number : Int32} {span : Span}
  {path : Path} {comment? : Option String} {context : FieldContext} {node : Nat}
  {seen : List String} {a : Assignment} {options : List Assignment}

theorem ne_nil_of_admits {kind? : Option OptionsKind} (h : admits levels kind? = true) :
    levels ≠ [] := by
  rintro rfl
  cases kind? <;> cases h

theorem recordLocation_orderly : Steady levels (recordLocation path span comment?) :=
  .change (fun _ => rfl) (fun _ _ => rfl) fun _ => List.prefix_append _ _

theorem refer_orderly {kind : ReferenceKind} : Steady levels (refer name kind path span) :=
  .aside fun _ _ => ⟨rfl, rfl, rfl⟩

theorem openElement_orderly {e : Element} (he : e.IsFresh)
    (h : admits levels e.optionsKind? = true) :
    Orderly levels (openElement e span comment?) (.element e.optionsKind? :: levels) := by
  refine (Orderly.onStack (.openElement he h)).bind fun _ => ?_
  refine .look (fun _ _ => rfl) fun a => ?_
  exact recordLocation_orderly.bind fun _ => .pure _

theorem close_orderly (h : levels ≠ []) : Orderly (level :: levels) close levels :=
  .onStack (.close h level)

theorem close_inner {outer : Level} : Orderly (level :: outer :: levels) close (outer :: levels) :=
  close_orderly (List.cons_ne_nil _ _)

theorem reportDuplicate_orderly : Steady levels (reportDuplicate node name span) :=
  .look (fun _ _ => rfl) fun _ => .report _ _ _

theorem declare_orderly {kind : SymbolKind} : Steady levels (declare name kind span) := by
  rw [declare_eq]
  refine .look (fun _ _ => rfl) fun a => ?_
  split
  · exact .bind (.aside fun _ _ => ⟨rfl, rfl, rfl⟩) fun _ => .pure _
  · exact reportDuplicate_orderly.bind fun _ => .pure _

theorem takeName_orderly : Steady levels (takeName node name span) := by
  rw [takeName_eq]
  refine .look (fun _ _ => rfl) fun a => .ite ?_ ?_
  · exact reportDuplicate_orderly.bind fun _ => .pure _
  · exact .bind (.aside fun _ _ => ⟨rfl, rfl, rfl⟩) fun _ => .pure _

theorem claimField_orderly : Steady levels (claimField name number span context) := by
  refine .look (fun _ _ => rfl) fun a => ?_
  refine .ite ((Orderly.report _ _ _).bind fun _ => .pure _) ?_
  refine takeName_orderly.bind fun taken => .ite (.pure _) ?_
  have claim : Steady levels (do
      if !context.isExtend then
        modify fun a : Assembly =>
          { a with claims := { a.claims with fields := a.claims.fields ++ [⟨name, number, span⟩] } }
      return true) :=
    .ite (.bind (.aside fun _ _ => ⟨rfl, rfl, rfl⟩) fun _ => .pure _) (.pure _)
  exact .ite ((Orderly.report _ _ _).bind fun _ => claim) claim

theorem releaseField_orderly : Steady levels (releaseField name number context) :=
  .aside fun _ _ => ⟨rfl, rfl, rfl⟩

theorem raw_error {e : BuildError} (h : a.raw = .error e) :
    ∃ option reason, e = .optionValue option reason := by
  unfold Assignment.raw at h
  split at h
  case h_3 =>
    split at h
    · cases h
      exact ⟨_, _, rfl⟩
    · cases h
  all_goals cases h

theorem addOption_orderly (h : admits levels none = true) : Steady levels (addOption seen a) := by
  have record : Steady levels (addOption.record a) := by
    unfold addOption.record
    split
    · next e he =>
      obtain ⟨option, reason, rfl⟩ := raw_error he
      exact .optionValue option reason
    · exact (openElement_orderly (e := .option _) trivial h).bind fun _ =>
        close_orderly (ne_nil_of_admits h)
  unfold addOption
  split
  · split
    · exact (Orderly.report _ _ _).bind fun _ => .pure _
    · exact record.bind fun _ => .pure _
  · exact record.bind fun _ => .pure _

theorem addOptions_orderly (h : admits levels none = true) :
    Steady levels (addOptions seen options) :=
  .foldlM (fun _ _ => addOption_orderly h) seen options

theorem applyStored_orderly : Steady levels (applyStored options field) := by
  refine .foldlM ?_ _ _
  rintro ⟨field, seen⟩ a
  dsimp only [storeAssignment]
  split
  · exact (Orderly.report _ _ _).bind fun _ => .pure _
  · split
    · split
      · exact .pure _
      · exact .optionValue _ _
    · exact .pure _

theorem applyStored_options (options : List Assignment) (field : FieldDescriptor) :
    Yields (fun r => r.1.options = field.options) (applyStored options field) := by
  refine .foldlM ?_ (by rfl) _
  rintro ⟨x, seen⟩ a hx
  have any {α : Type} (y : Assemble α) : Yields (fun _ => True) y :=
    .of_estate fun _ _ _ _ => trivial
  dsimp only [storeAssignment]
  split
  · exact (any _).bind fun _ _ => .pure hx
  · split
    · split
      · exact .pure hx
      · exact .of_estate fun _ _ _ h => nomatch h
    · exact .pure hx

theorem addField_orderly (h : admits levels (some .field) = true)
    (hfield : field.options = none) {referTo : Path → Assemble Unit}
    (hrefer : ∀ path, Steady (.element (some .field) :: levels) (referTo path)) :
    Steady levels (addField field options span comment? referTo) := by
  refine applyStored_orderly.bind_yields (applyStored_options _ _) fun r hr => ?_
  have hfresh : AreFresh r.1.slots := by
    rw [FieldDescriptor.slots, hr, hfield]
    exact areFresh_none _
  refine (openElement_orderly (e := .field r.1) hfresh h).bind fun path => ?_
  refine (hrefer path).bind fun _ => ?_
  exact (addOptions_orderly rfl).bind fun _ => close_orderly (ne_nil_of_admits h)

theorem referExtendee_orderly : Steady levels (referExtendee context span path) := by
  cases context with
  | extend extendee => exact refer_orderly
  | message => exact .pure _
  | oneof => exact .pure _

theorem walkField_orderly (h : admits levels (some .field) = true) (f : Field) :
    Steady levels (walkField f context) := by
  refine claimField_orderly.bind fun claimed => .ite (.pure _) ?_
  refine .look (fun _ _ => rfl) fun a => addField_orderly h rfl fun path => ?_
  exact .ite (refer_orderly.bind fun _ => referExtendee_orderly) referExtendee_orderly

theorem mapEntry_isFresh : (mapEntry m).IsFresh where
  options := List.forall_mem_singleton.mpr ⟨rfl, .inr ⟨rfl, rfl⟩⟩
  fields := by simp [mapEntry, AreFresh, FieldDescriptor.slots, OptionsKind.slot]
  extensions := by simp [mapEntry]
  oneofs := by simp [mapEntry]
  extensionRanges := by simp [mapEntry]
  enumTypes := by simp [mapEntry]
  nestedTypes := by simp [mapEntry]

theorem walkMap_orderly : Steady (.element (some .message) :: levels) (walkMap m) := by
  refine claimField_orderly.bind fun claimed => .ite (.pure _) ?_
  refine declare_orderly.bind fun node? => ?_
  cases node? with
  | none => exact releaseField_orderly
  | some node =>
    refine (openElement_orderly (e := .message _) (mapEntry_isFresh m) rfl).bind fun path => ?_
    refine close_inner.bind fun _ => ?_
    have field : Steady (.element (some .message) :: levels) (do
        let field := mapField m ((← get).symbols.fullName node)
        addField field m.options m.span m.comment? fun _ => return) :=
      .look (fun _ _ => rfl) fun _ => addField_orderly rfl rfl fun _ => .pure _
    exact .ite (refer_orderly.bind fun _ => field) field

theorem walkExtensionRange_orderly (x : Extensions) (first last : Int32) :
    Steady (.element (some .message) :: levels) (walkExtensionRange x first last) := by
  refine .look (fun _ _ => rfl) fun a => ?_
  split
  · refine .bind (.aside fun _ _ => ⟨rfl, rfl, rfl⟩) fun _ => ?_
    refine (openElement_orderly (by exact areFresh_none _) rfl).bind fun _ => ?_
    exact (addOptions_orderly rfl).bind fun _ => close_inner
  · exact .report _ _ _
  · exact .report _ _ _
  · next hinsert => exact absurd hinsert (RangeSet.insert_ofBounds _ _ _ _)

theorem modifyMessage_orderly {f : MessageDescriptor → MessageDescriptor}
    (hf : ∀ m, m.IsFresh → (f m).IsFresh) (honeofs : ∀ m, m.oneofs.length ≤ (f m).oneofs.length) :
    Steady (.element (some .message) :: levels) (modifyMessage f) := by
  rw [modifyMessage_eq]
  exact .onStack (.reviseMessage hf honeofs _)

theorem walkReserved_orderly (r : Reserved) :
    Steady (.element (some .message) :: levels) (walkReserved r) := by
  refine (modifyMessage_orderly (fun m hm => ?_) fun m => ?_).bind fun _ =>
    .aside fun _ _ => ⟨rfl, rfl, rfl⟩
  · exact { hm with }
  · exact le_refl _

theorem walkEnumValue_orderly (v : EnumValue) :
    Steady (.element (some .enum) :: levels) (walkEnumValue scope v) := by
  refine takeName_orderly.bind fun taken => .ite (.pure _) ?_
  refine (openElement_orderly (by exact areFresh_none _) rfl).bind fun _ => ?_
  refine (addOptions_orderly rfl).bind fun _ => ?_
  exact close_inner.bind fun _ => .pure _

theorem walkEnumMember_orderly (scope : Nat) (c : EnumClaims) (m : EnumMember) :
    Steady (.element (some .enum) :: levels) (walkEnumMember scope c m) := by
  cases m with
  | value v => exact (walkEnumValue_orderly _ _).bind fun _ => .ite (.pure _) (.pure _)
  | option a => exact (addOption_orderly rfl).bind fun _ => .pure _
  | reserved r =>
    rw [walkEnumMember_reserved]
    refine (Orderly.onStack (.reviseEnum (fun e he => ?_) _)).bind fun _ => .pure _
    exact { he with }

theorem checkReserved_orderly {kind : String} {f : ClaimedField} {number name : Bool} :
    Steady levels (checkReserved kind f number name) := by
  refine .ite ((Orderly.report _ _ _).bind fun _ => ?_) ?_
  · exact .ite (.report _ _ _) (.pure _)
  · exact .ite (.report _ _ _) (.pure _)

theorem walkEnum_orderly (h : admits levels (some .enum) = true) (e : Enum) :
    Steady levels (walkEnum e) := by
  refine .look (fun _ _ => rfl) fun a => declare_orderly.bind fun node? => .ite (.pure _) ?_
  refine (openElement_orderly (e := .enum _) ⟨areFresh_none _, by simp⟩ h).bind fun _ => ?_
  refine (Orderly.foldlM (walkEnumMember_orderly _) _ _).bind fun claims => ?_
  refine (Orderly.forM (fun _ => checkReserved_orderly) _).bind fun _ => ?_
  exact close_orderly (ne_nil_of_admits h)

theorem walkMethod_orderly (node : Nat) (m : Method) :
    Steady (.element (some .service) :: levels) (walkMethod node m) := by
  refine takeName_orderly.bind fun taken => .ite (.pure _) ?_
  refine (openElement_orderly (by exact areFresh_none _) rfl).bind fun path => ?_
  refine refer_orderly.bind fun _ => refer_orderly.bind fun _ => ?_
  exact (addOptions_orderly rfl).bind fun _ => close_inner

theorem walkServiceMember_orderly (node : Nat) (seen : List String) (m : ServiceMember) :
    Steady (.element (some .service) :: levels) (walkServiceMember node seen m) := by
  cases m with
  | option a => exact addOption_orderly rfl
  | method x => exact (walkMethod_orderly _ _).bind fun _ => .pure _

theorem within_orderly {body : Assemble Unit} (h : Steady levels body) :
    Steady levels (within node body) := by
  refine .look (fun _ _ => rfl) fun a => ?_
  refine .bind (.aside fun _ _ => ⟨rfl, rfl, rfl⟩) fun _ => ?_
  exact h.bind fun _ => .aside fun _ _ => ⟨rfl, rfl, rfl⟩

theorem walkService_orderly (h : admits levels (some .service) = true) (s : Service) :
    Steady levels (walkService s) := by
  refine declare_orderly.bind fun node? => ?_
  cases node? with
  | none => exact .pure _
  | some node =>
    refine (openElement_orderly (e := .service _) ⟨areFresh_none _, by simp⟩ h).bind fun _ => ?_
    refine (within_orderly ?_).bind fun _ => close_orderly (ne_nil_of_admits h)
    exact (Orderly.foldlM (walkServiceMember_orderly node) _ _).bind fun _ => .pure _

theorem checkField_orderly (c : Claims) (f : ClaimedField) : Steady levels (checkField c f) := by
  unfold checkField
  cases c.ranges.rangeOf? f.number with
  | some r => exact (Orderly.report _ _ _).bind fun _ => checkReserved_orderly
  | none => exact checkReserved_orderly

theorem addOptionalOneofs_isFresh {fields : List FieldDescriptor}
    (hfields : ∀ f ∈ fields, AreFresh f.slots) (used : List String) {oneofs : List OneofDescriptor}
    (honeofs : ∀ o ∈ oneofs, AreFresh o.slots) :
    (∀ f ∈ (addOptionalOneofs used oneofs fields).1, AreFresh f.slots) ∧
      ∀ o ∈ (addOptionalOneofs used oneofs fields).2, AreFresh o.slots := by
  induction fields generalizing used oneofs with
  | nil => exact ⟨hfields, honeofs⟩
  | cons f fs ih =>
    obtain ⟨hf, hfs⟩ := List.forall_mem_cons.mp hfields
    unfold addOptionalOneofs
    split
    · have hname : AreFresh (OneofDescriptor.slots
          { name? := some (freshName used used.length ("_" ++ f.name)) }) := areFresh_none _
      obtain ⟨hfields', honeofs'⟩ := ih hfs _ (areFresh_snoc honeofs hname)
      exact ⟨List.forall_mem_cons.mpr ⟨hf, hfields'⟩, honeofs'⟩
    · obtain ⟨hfields', honeofs'⟩ := ih hfs used honeofs
      exact ⟨List.forall_mem_cons.mpr ⟨hf, hfields'⟩, honeofs'⟩

theorem length_addOptionalOneofs (used : List String) (oneofs : List OneofDescriptor)
    (fields : List FieldDescriptor) :
    oneofs.length ≤ (addOptionalOneofs used oneofs fields).2.length := by
  induction fields generalizing used oneofs with
  | nil => exact le_refl _
  | cons f fs ih =>
    unfold addOptionalOneofs
    split
    · refine le_trans ?_ (ih _ _)
      rw [List.length_append]
      exact Nat.le_add_right _ _
    · exact ih used oneofs

theorem finishMessage_orderly : Steady (.element (some .message) :: levels) finishMessage := by
  refine .look (fun _ _ => rfl) fun a => (Orderly.forM (checkField_orderly _) _).bind fun _ => ?_
  refine modifyMessage_orderly (fun m hm => ?_) fun m => ?_
  · obtain ⟨hfields, honeofs⟩ := addOptionalOneofs_isFresh hm.fields (namesInUse m) hm.oneofs
    exact { hm with fields := hfields, oneofs := honeofs }
  · exact length_addOptionalOneofs (namesInUse m) m.oneofs m.fields

theorem messageBody_orderly (h : admits levels (some .message) = true)
    (hmembers : Steady (.element (some .message) :: levels) members) :
    Steady levels (messageBody node name span comment? members) := by
  have hfresh : MessageDescriptor.IsFresh { name? := some name } := by
    constructor <;> simp [AreFresh, OptionsKind.slot]
  refine (openElement_orderly (e := .message _) hfresh h).bind fun _ => ?_
  refine .look (fun _ _ => rfl) fun a => ?_
  refine .bind (.aside fun _ _ => ⟨rfl, rfl, rfl⟩) fun _ => ?_
  refine (within_orderly (hmembers.bind fun _ => finishMessage_orderly)).bind fun _ => ?_
  exact .bind (.aside fun _ _ => ⟨rfl, rfl, rfl⟩) fun _ =>
    close_orderly (ne_nil_of_admits h)

theorem groupWith_orderly (hfield : admits levels (some .field) = true)
    (hmessage : admits levels (some .message) = true) {label? : Option Label}
    (hmembers : Steady (.element (some .message) :: levels) members) :
    Steady levels (groupWith label? name number options span comment? context members) := by
  refine claimField_orderly.bind fun claimed => .ite (.pure _) ?_
  refine declare_orderly.bind fun node? => ?_
  cases node? with
  | none => exact releaseField_orderly
  | some node =>
    refine .look (fun _ _ => rfl) fun a => ?_
    refine (addField_orderly hfield rfl fun _ => referExtendee_orderly).bind fun _ => ?_
    exact messageBody_orderly hmessage hmembers

theorem walkMessageOption_orderly :
    Steady (.element (some .message) :: levels) (walkMessageOption a) :=
  .look (fun _ _ => rfl) fun _ => (addOption_orderly rfl).bind fun _ =>
    .aside fun _ _ => ⟨rfl, rfl, rfl⟩

theorem oneofWith_orderly (h : Steady (.oneof :: .element (some .message) :: levels) members) :
    Steady (.element (some .message) :: levels) (oneofWith name span members) := by
  refine .look (fun _ _ => rfl) fun a => takeName_orderly.bind fun taken => .ite (.pure _) ?_
  refine (Orderly.onStack (.openOneof rfl)).bind fun _ => ?_
  refine .look (fun _ _ => rfl) fun b => recordLocation_orderly.bind fun _ => ?_
  exact h.bind fun _ => close_inner

theorem extendWith_orderly {kind : OptionsKind} (hkind : kind = .file ∨ kind = .message)
    {extendee : String} {fields : Assemble Unit}
    (h : Steady (.extend :: .element (some kind) :: levels) fields) :
    Steady (.element (some kind) :: levels) (extendWith extendee span fields) := by
  refine (Orderly.onStack (.openExtend hkind extendee)).bind fun _ => ?_
  refine .look (fun _ _ => rfl) fun a => recordLocation_orderly.bind fun _ => ?_
  exact h.bind fun _ => close_inner

theorem messageWith_orderly (h : admits levels (some .message) = true)
    (hmembers : Steady (.element (some .message) :: levels) members) :
    Steady levels (messageWith name span comment? members) := by
  refine declare_orderly.bind fun node? => ?_
  cases node? with
  | none => exact .pure _
  | some node => exact messageBody_orderly h hmembers

-- The levels vary in the induction: a group or a message is declared in messages, blocks and files
-- alike.
mutual

theorem walkFieldMember_orderly {levels : List Level} (hfield : admits levels (some .field) = true)
    (hmessage : admits levels (some .message) = true) (context : FieldContext) :
    ∀ m : FieldMember, Steady levels (walkFieldMember context m)
  | .field f => by
    rw [walkFieldMember]
    exact walkField_orderly hfield f
  | .group ⟨label?, name, number, options, members, span, comment?⟩ => by
    rw [walkFieldMember]
    exact groupWith_orderly hfield hmessage (walkMembers_orderly members)

theorem walkFieldMembers_orderly {levels : List Level} (hfield : admits levels (some .field) = true)
    (hmessage : admits levels (some .message) = true) (context : FieldContext) :
    ∀ ms : List FieldMember, Steady levels (walkFieldMembers context ms)
  | [] => by
    rw [walkFieldMembers]
    exact .pure _
  | m :: ms => by
    rw [walkFieldMembers]
    exact (walkFieldMember_orderly hfield hmessage context m).bind fun _ =>
      walkFieldMembers_orderly hfield hmessage context ms

theorem walkOneofMembers_orderly {levels : List Level} (seen : List String) :
    ∀ ms : List OneofMember,
    Steady (.oneof :: .element (some .message) :: levels) (walkOneofMembers seen ms)
  | [] => by
    rw [walkOneofMembers]
    exact .pure _
  | .field f :: ms => by
    rw [walkOneofMembers]
    exact (walkFieldMember_orderly rfl rfl .oneof f).bind fun _ => walkOneofMembers_orderly seen ms
  | .option a :: ms => by
    rw [walkOneofMembers]
    exact (addOption_orderly rfl).bind fun seen' => walkOneofMembers_orderly seen' ms

theorem walkExtend_orderly {levels : List Level} {kind : OptionsKind}
    (hkind : kind = .file ∨ kind = .message) : ∀ x : Extend,
    Steady (.element (some kind) :: levels) (walkExtend x)
  | ⟨extendee, fields, span⟩ => by
    rw [walkExtend]
    refine extendWith_orderly hkind (walkFieldMembers_orderly ?_ ?_ (.extend extendee) fields)
    all_goals rcases hkind with rfl | rfl <;> rfl

theorem walkMessage_orderly {levels : List Level} (h : admits levels (some .message) = true) :
    ∀ m : Tree.Message, Steady levels (walkMessage m)
  | ⟨name, members, span, comment?⟩ => by
    rw [walkMessage]
    exact messageWith_orderly h (walkMembers_orderly members)

theorem walkMember_orderly {levels : List Level} : ∀ m : Member,
    Steady (.element (some .message) :: levels) (walkMember m)
  | .field f => by
    rw [walkMember]
    exact walkFieldMember_orderly rfl rfl .message f
  | .map m => by
    rw [walkMember]
    exact walkMap_orderly m
  | .oneof ⟨name, members, span⟩ => by
    rw [walkMember]
    exact oneofWith_orderly (walkOneofMembers_orderly [] members)
  | .message m => by
    rw [walkMember]
    exact walkMessage_orderly rfl m
  | .enum e => by
    rw [walkMember]
    exact walkEnum_orderly rfl e
  | .extend x => by
    rw [walkMember]
    exact walkExtend_orderly (.inr rfl) x
  | .extensions x => by
    rw [walkMember]
    exact .forM (fun _ => walkExtensionRange_orderly x _ _) _
  | .reserved r => by
    rw [walkMember]
    exact walkReserved_orderly r
  | .option a => by
    rw [walkMember]
    exact walkMessageOption_orderly

theorem walkMembers_orderly {levels : List Level} : ∀ ms : List Member,
    Steady (.element (some .message) :: levels) (walkMembers ms)
  | [] => by
    rw [walkMembers]
    exact .pure _
  | m :: ms => by
    rw [walkMembers]
    exact (walkMember_orderly m).bind fun _ => walkMembers_orderly ms

end

theorem walkItem_orderly (item : Item) :
    Steady (.element (some .file) :: levels) (walkItem item) := by
  cases item with
  | message m => exact walkMessage_orderly rfl m
  | enum e => exact walkEnum_orderly rfl e
  | service s => exact walkService_orderly rfl s
  | extend x => exact walkExtend_orderly (.inl rfl) x

theorem walkFile_orderly : Steady [.element (some .file)] (walkFile tree) := by
  have rest : Steady [.element (some .file)] (do
      tree.imports.zipIdx.forM fun x => recordImport x.2 x.1
      let _ ← addOptions [] tree.options
      tree.items.forM walkItem) := by
    refine (Orderly.forM (fun _ => recordLocation_orderly) _).bind fun _ => ?_
    exact (addOptions_orderly rfl).bind fun _ => .forM walkItem_orderly _
  unfold walkFile
  cases tree.package? with
  | some p => exact recordLocation_orderly.bind fun _ => rest
  | none => exact rest

end Assembly

theorem Tree.File.assemble_reports : Reports (fun _ => True) (tree.assemble name) := by
  obtain ⟨outcome, a, ds, hds, hrun⟩ :=
    (Assembly.walkFile_orderly tree).reports (.initial name tree .empty)
  have hwalk (log : Log) : Assembly.walkFile tree (.initial name tree log) = _ := hrun log
  cases outcome with
  | error e =>
    refine .of_run (r := .error e) hds fun log => ?_
    rw [assemble, hwalk log]
    rfl
  | ok u =>
    cases hfinish : a.stack.finish with
    | error e =>
      refine .of_run (r := .error e) hds fun log => ?_
      rw [assemble, hwalk log]
      simp [ended, withLog, hfinish]
    | ok file =>
      have hresolved (log : Log) : tree.assemble name log =
          .ok ⟨(Reference.resolveAll a.symbols file a.references).1,
            (Reference.resolveAll a.symbols file a.references).2, a.symbols, a.locations⟩
            (log.extend ds) := by
        rw [assemble, hwalk log]
        simp [ended, withLog, hfinish]
      exact .of_run (r := .ok _) hds hresolved

end ProtobufSchema

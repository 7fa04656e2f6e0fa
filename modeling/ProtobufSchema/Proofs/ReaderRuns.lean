import ProtobufSchema.Proofs.WireLocality

/-! Whatever is asked of a reader, it stays inside its buffer and never goes back. What succeeds
does not hang on the bytes behind it. -/

namespace ProtobufSchema

namespace Reader

theorem Advances.lt {r s : Reader} (h : Advances r s) (hlt : s.rest.length < r.rest.length) :
    r.position < s.position := by
  obtain ⟨raw, hrest, hposition⟩ := h
  rw [hrest, List.length_append] at hlt
  omega

/-- The same place in the buffer with more bytes behind it. -/
def extend (r : Reader) (more : Bytes) : Reader := ⟨r.position, r.rest ++ more⟩

end Reader

namespace Read

open Reader (Advances)

variable {α : Type} {m : Read α} {r r' : Reader} {field innermost : UInt32} {outer : List UInt32}
  {stop : Nat}

/-- Where a computation leaves a reader, whether it succeeds or fails. -/
def left (m : Read α) (r : Reader) : Reader :=
  match m r with
  | .ok _ r' => r'
  | .error _ r' => r'

/-- The reader is never taken back, and success does not hang on the bytes behind what was read. -/
structure Safe (m : Read α) : Prop where
  advances : ∀ r, Advances r (left m r)
  extend : ∀ ⦃r a r'⦄ more, m r = .ok a r' → m (r.extend more) = .ok a (r'.extend more)

theorem advances_left (hok : ∀ a r', m r = .ok a r' → Advances r r')
    (herror : ∀ e r', m r = .error e r' → Advances r r') : Advances r (left m r) := by
  unfold left
  split
  · next h => exact hok _ _ h
  · next h => exact herror _ _ h

theorem Local.safe (hm : Local m) : Safe m := by
  refine ⟨fun r => advances_left (fun _ _ h => hm.advances h) fun _ _ h => hm.error h,
    fun r a r' more h => ?_⟩
  obtain ⟨raw, hrest, hposition, hread⟩ := hm.ok h
  have hextended := hread r.position (r'.rest ++ more) (.inl (le_refl _))
  rwa [← List.append_assoc, ← hrest, ← hposition] at hextended

theorem safe_closeGroups (field : UInt32) : Safe (closeGroups field []) := by
  refine ⟨fun r => advances_left (fun stop r' h => ?_) fun _ _ h => closeGroups_error h,
    fun r a r' more h => ?_⟩
  · obtain ⟨content, closing, hrest, hstop, hposition, -⟩ := closeGroups_local h
    refine ⟨content ++ closing, by rw [hrest, List.append_assoc], ?_⟩
    rw [hposition, hstop, List.length_append, add_assoc]
  · obtain ⟨content, closing, hrest, hstop, hposition, hread⟩ := closeGroups_local h
    have hextended := hread r.position (r'.rest ++ more) (.inl (le_refl _))
    rwa [← List.append_assoc closing, ← List.append_assoc, ← hrest, ← hstop,
      ← hposition] at hextended

/-! ### Groups -/

/-- Whole fields, one after the other; a group is its key, the fields in it, and the key that closes
it. -/
inductive Fields : Reader → Reader → Prop
  | nil (r : Reader) : Fields r r
  | plain {r s t r' : Reader} {field : UInt32} {type : WireType} {p : Payload}
    (hkey : key r = .ok (field, type) s)
    (hpayload : plainPayload field type s = .ok p t) (h : Fields t r') : Fields r r'
  | group {r s t u r' : Reader} {field : UInt32} (hstart : key r = .ok (field, .startGroup) s)
    (hinner : Fields s t) (hend : key t = .ok (field, .endGroup) u) (h : Fields u r') : Fields r r'

theorem Fields.length_le (h : Fields r r') : r'.rest.length ≤ r.rest.length := by
  induction h with
  | nil r => exact le_refl _
  | plain hkey hpayload _ ih =>
    have := key_rest hkey
    have := plainPayload_rest hpayload
    omega
  | group hstart _ hend _ hinner ih =>
    have := key_rest hstart
    have := key_rest hend
    omega

theorem Fields.closeGroups_eq (h : Fields r r') (innermost : UInt32) (outer : List UInt32) :
    closeGroups innermost outer r = closeGroups innermost outer r' := by
  induction h generalizing innermost outer with
  | nil r => rfl
  | plain hkey hpayload _ ih => rw [closeGroups_plain hkey hpayload, ih]
  | group hstart _ hend _ hinner ih =>
    exact (closeGroups_start hstart).trans ((hinner _ _).trans
      ((closeGroups_end hend).trans (ih innermost outer)))

theorem exists_fields (h : closeGroups innermost outer r = .ok stop r') :
    ∃ s t, Fields r s ∧ key s = .ok (innermost, .endGroup) t ∧
      closeGroups innermost outer s = .ok stop r' := by
  induction r using Reader.induction generalizing innermost outer with
  | _ r ih =>
    rcases closeGroups_cases h with ⟨field, s, hk, hc⟩ | ⟨hk, rfl, rfl⟩ |
        ⟨next, others, s, hk, rfl, hc⟩ | ⟨field, type, s, p, t, hk, hp, hc⟩
    · obtain ⟨t, u, hinner, hend, hc⟩ := ih s (key_rest hk) hc
      rw [closeGroups_end hend] at hc
      have hlt : u.rest.length < r.rest.length := by
        have := hinner.length_le
        have := key_rest hend
        have := key_rest hk
        omega
      obtain ⟨v, w, hfields, hrest⟩ := ih u hlt hc
      exact ⟨v, w, .group hk hinner hend hfields, hrest⟩
    · exact ⟨r, r', .nil r, hk, h⟩
    · exact ⟨r, s, .nil r, hk, h⟩
    · obtain ⟨v, w, hfields, hrest⟩ := ih t (lt_trans (plainPayload_rest hp) (key_rest hk)) hc
      exact ⟨v, w, .plain hk hp hfields, hrest⟩

theorem closeGroups_ok_iff : closeGroups field [] r = .ok stop r' ↔
    ∃ s, Fields r s ∧ key s = .ok (field, .endGroup) r' ∧ stop = s.position := by
  constructor
  · intro h
    obtain ⟨s, t, hfields, hend, hc⟩ := exists_fields h
    rw [closeGroups_end hend] at hc
    cases hc
    exact ⟨s, hfields, hend, rfl⟩
  · rintro ⟨s, hfields, hend, rfl⟩
    rw [hfields.closeGroups_eq, closeGroups_end hend]

theorem skip_startGroup :
    skip field .startGroup r = .ok () r' ↔ ∃ stop, closeGroups field [] r = .ok stop r' := by
  simp only [skip, payload, if_true, groupContent, bind, EStateM.bind, pure, EStateM.pure]
  cases closeGroups field [] r <;> simp

/-! ### Operations -/

inductive Operation where
  | varint
  | key
  | fixed32
  | fixed64
  | bytes
  | string (field : UInt32)
  | skip (field : UInt32) (type : WireType)
  | groupEnd (field : UInt32)

namespace Operation

abbrev Answer : Operation → Type
  | varint | fixed64 => UInt64
  | key => UInt32 × WireType
  | fixed32 => UInt32
  | bytes => Bytes
  | string _ => String
  | skip _ _ => Unit
  | groupEnd _ => Nat

def run : (o : Operation) → Read o.Answer
  | varint => Read.varint
  | key => Read.key
  | fixed32 => Read.fixed32
  | fixed64 => Read.fixed64
  | bytes => Read.bytes
  | string field => Read.string field
  | skip field type => Read.skip field type
  | groupEnd field => closeGroups field []

/-- The operations that a loop of a decoder makes in every round. -/
def isStep : Operation → Bool
  | key | skip _ _ | groupEnd _ => true
  | _ => false

def runAll (ops : List Operation) (r : Reader) : Reader := ops.foldl (fun r o => left o.run r) r

theorem safe_run (o : Operation) : Safe o.run := by
  cases o with
  | varint => exact local_varint.safe
  | key => exact local_key.safe
  | fixed32 => exact local_fixed32.safe
  | fixed64 => exact local_fixed64.safe
  | bytes => exact local_bytes.safe
  | string field =>
    refine (local_bytes.bind fun content => ?_).safe
    split
    · exact .pure _
    · exact .throw _
  | skip field type => exact ((local_payload field type).bind fun _ => .pure _).safe
  | groupEnd field => exact safe_closeGroups field

theorem advances_runAll (ops : List Operation) (r : Reader) : Advances r (runAll ops r) := by
  induction ops generalizing r with
  | nil => exact .refl r
  | cons o ops ih => exact (o.safe_run.advances r).trans (ih _)

theorem run_isStep {o : Operation} (ho : o.isStep = true) {a : o.Answer} (h : o.run r = .ok a r') :
    r'.rest.length < r.rest.length := by
  cases o <;> cases ho
  case key => exact key_rest h
  case skip field type =>
    obtain ⟨p, s, hpayload, hdone⟩ := bind_ok h
    cases hdone
    exact payload_rest hpayload
  case groupEnd field => exact closeGroups_rest h

end Operation

open Operation in
/-- After any operations on a buffer, each of which succeeds or fails, a reader is inside the
buffer, and the next operation does not take it back or out. If it succeeds, it does so with any
bytes behind the buffer; a key, a value that is skipped and the end of a group take at least one
byte. A group ends behind the fields in it with the key that closes it, and where that key begins is
inside what was taken. -/
theorem runAll_safe (buffer : Bytes) (ops : List Operation) (o : Operation) :
    let r := runAll ops (.ofBytes buffer)
    (r.rest = buffer.drop r.position ∧ r.position ≤ buffer.length) ∧
    (r.position ≤ (left o.run r).position ∧ (left o.run r).position ≤ buffer.length ∧
      (left o.run r).rest = buffer.drop (left o.run r).position) ∧
    (∀ a r', o.run r = .ok a r' → (o.isStep = true → r.position < r'.position) ∧
      ∀ more, o.run (r.extend more) = .ok a (r'.extend more)) ∧
    ∀ field r', (skip field .startGroup r = .ok () r' ↔
        ∃ s, Fields r s ∧ Read.key s = .ok (field, .endGroup) r') ∧
      ∀ stop, (closeGroups field [] r = .ok stop r' ↔
        ∃ s, Fields r s ∧ Read.key s = .ok (field, .endGroup) r' ∧ stop = s.position) ∧
        (closeGroups field [] r = .ok stop r' → r.position ≤ stop ∧ stop ≤ r'.position) := by
  intro r
  have hinside {r' : Reader} (h : Advances (.ofBytes buffer) r') :
      r'.rest = buffer.drop r'.position ∧ r'.position ≤ buffer.length := by
    obtain ⟨raw, hrest, hposition⟩ := h
    have hrest : buffer = raw ++ r'.rest := hrest
    have hposition : r'.position = raw.length := hposition.trans (Nat.zero_add _)
    rw [hposition]
    refine ⟨?_, ?_⟩
    · rw [hrest, List.drop_left]
    · rw [hrest, List.length_append]
      exact Nat.le_add_right _ _
  have hreached := advances_runAll ops (.ofBytes buffer)
  obtain ⟨hrest, hposition⟩ := hinside (hreached.trans (o.safe_run.advances r))
  obtain ⟨raw, -, hforward⟩ := o.safe_run.advances r
  refine ⟨hinside hreached, ⟨by omega, hposition, hrest⟩,
    fun a r' h => ⟨fun ho => ?_, fun more => ?_⟩,
    fun field r' => ⟨?_, fun stop => ⟨closeGroups_ok_iff, fun h => ?_⟩⟩⟩
  · have hleft : Advances r (left o.run r) := o.safe_run.advances r
    rw [left, h] at hleft
    exact hleft.lt (run_isStep ho h)
  · exact o.safe_run.extend more h
  · rw [skip_startGroup]
    constructor
    · rintro ⟨stop, h⟩
      obtain ⟨s, hfields, hend, -⟩ := closeGroups_ok_iff.mp h
      exact ⟨s, hfields, hend⟩
    · rintro ⟨s, hfields, hend⟩
      exact ⟨s.position, closeGroups_ok_iff.mpr ⟨s, hfields, hend, rfl⟩⟩
  · obtain ⟨content, closing, -, hstop, hposition, -⟩ := closeGroups_local h
    omega

end Read

end ProtobufSchema

import ProtobufSchema.Proofs.ReportedLogs
import ProtobufSchema.Proofs.WireNumbers

/-! What a reader takes from a buffer does not hang on what surrounds it, so the bytes of a message
are exactly the sequence of its fields. -/

namespace ProtobufSchema

open List

namespace Wire

variable {bytes more : Bytes}

/-- Offsets into a buffer are 64-bit words, so that a buffer is shorter than 2 ^ 64 bytes. -/
def Addressable (bytes : Bytes) : Prop := bytes.length < UInt64.size

instance (bytes : Bytes) : Decidable (Addressable bytes) :=
  inferInstanceAs (Decidable (bytes.length < UInt64.size))

theorem Addressable.left (h : Addressable (bytes ++ more)) : Addressable bytes := by
  rw [Addressable, length_append] at h
  exact lt_of_le_of_lt (Nat.le_add_right _ _) h

theorem Addressable.right (h : Addressable (bytes ++ more)) : Addressable more := by
  rw [Addressable, length_append] at h
  exact lt_of_le_of_lt (Nat.le_add_left _ _) h

end Wire

namespace Reader

variable {r s t : Reader}

theorem induction {P : Reader → Prop} (h : ∀ r, (∀ s, s.rest.length < r.rest.length → P s) → P r)
    (r : Reader) : P r :=
  (measure fun r : Reader => r.rest.length).wf.induction r h

/-- The second reader is the first one after it took some of the bytes in front of it. -/
def Advances (r s : Reader) : Prop :=
  ∃ raw, r.rest = raw ++ s.rest ∧ s.position = r.position + raw.length

theorem Advances.refl (r : Reader) : Advances r r := ⟨[], rfl, rfl⟩

theorem Advances.trans (h : Advances r s) (h' : Advances s t) : Advances r t := by
  obtain ⟨raw, hrest, hposition⟩ := h
  obtain ⟨raw', hrest', hposition'⟩ := h'
  refine ⟨raw ++ raw', by rw [hrest, hrest', append_assoc], ?_⟩
  rw [hposition', hposition, length_append, add_assoc]

end Reader

namespace Read

open Reader (Advances)

variable {α β : Type} {m : Read α} {f : α → Read β} {r r' : Reader} {innermost field : UInt32}
  {outer : List UInt32} {stop : Nat}
variable {e : DecodeError} {position start count acc : Nat} {p : Payload} {bs : Bytes} {s : Reader}

/-- Reads `raw` as `a` and stops behind it, whatever follows. This is at every offset up to `p`, and
at every offset from which `raw` ends at an offset. -/
def Reads (m : Read α) (p : Nat) (raw : Bytes) (a : α) : Prop :=
  ∀ q rest, q ≤ p ∨ q + raw.length < UInt64.size →
    m ⟨q, raw ++ rest⟩ = .ok a ⟨q + raw.length, rest⟩

/-- What is read is the front of the rest, and is read in the same way elsewhere. A failure leaves
the reader there or further on. -/
structure Local (m : Read α) : Prop where
  ok : ∀ ⦃r a r'⦄, m r = .ok a r' → ∃ raw, r.rest = raw ++ r'.rest ∧
    r'.position = r.position + raw.length ∧ Reads m r.position raw a
  error : ∀ ⦃r e r'⦄, m r = .error e r' → Advances r r'

theorem Local.advances {a : α} (hm : Local m) (h : m r = .ok a r') : Advances r r' := by
  obtain ⟨raw, hrest, hposition, -⟩ := hm.ok h
  exact ⟨raw, hrest, hposition⟩

theorem Reads.bind {p : Nat} {raw₁ raw₂ : Bytes} {a : α} {b : β} (h₁ : Reads m p raw₁ a)
    (h₂ : Reads (f a) (p + raw₁.length) raw₂ b) :
    Reads (m >>= f) p (raw₁ ++ raw₂) b := by
  intro q rest hq
  rw [length_append] at hq ⊢
  have hm := h₁ q (raw₂ ++ rest) (by omega)
  have hf := h₂ (q + raw₁.length) rest (by omega)
  rw [append_assoc]
  simp [Bind.bind, EStateM.bind, hm, hf, add_assoc]

theorem Reads.pure (a : α) (p : Nat) : Reads (pure a) p [] a := by
  intro q rest _
  rfl

theorem Local.pure (a : α) : Local (pure a) := by
  refine ⟨fun r b r' h => ?_, fun r e r' h => ?_⟩ <;> cases h
  exact ⟨[], rfl, rfl, .pure a _⟩

theorem Local.throw (e : DecodeError) : Local (throw e : Read α) := by
  refine ⟨fun r a r' h => ?_, fun r e' r' h => ?_⟩ <;> cases h
  exact .refl r

theorem Local.bind (hm : Local m) (hf : ∀ a, Local (f a)) : Local (m >>= f) := by
  refine ⟨fun r b r' h => ?_, fun r e r' h => ?_⟩
  swap
  · simp only [Bind.bind, EStateM.bind] at h
    split at h
    · next a s hrun => exact (hm.advances hrun).trans ((hf a).error h)
    · next hrun =>
      cases h
      exact hm.error hrun
  obtain ⟨a, s, ha, hb⟩ := bind_ok h
  obtain ⟨raw₁, hrest₁, hpos₁, h₁⟩ := hm.ok ha
  obtain ⟨raw₂, hrest₂, hpos₂, h₂⟩ := (hf a).ok hb
  refine ⟨raw₁ ++ raw₂, ?_, ?_, ?_⟩
  · rw [hrest₁, hrest₂, append_assoc]
  · rw [hpos₂, hpos₁, length_append, add_assoc]
  · rw [hpos₁] at h₂
    exact h₁.bind h₂

theorem varintFrom_local {v : UInt64} (h : varintFrom start count acc position bs = .ok v r) :
    ∃ raw, bs = raw ++ r.rest ∧ r.position = position + raw.length ∧
      ∀ s q rest, varintFrom s count acc q (raw ++ rest) = .ok v ⟨q + raw.length, rest⟩ := by
  induction bs generalizing count acc position with
  | nil => cases h
  | cons b rest ih =>
    simp only [varintFrom] at h
    split at h
    · cases h
    · rename_i hcount
      split at h
      · rename_i hb
        cases h
        refine ⟨[b], rfl, rfl, ?_⟩
        simp [varintFrom, hcount, hb]
      · rename_i hb
        obtain ⟨raw, hrest, hpos, hread⟩ := ih h
        refine ⟨b :: raw, by rw [hrest]; rfl, by rw [length_cons]; omega, ?_⟩
        intro s q more
        simp only [cons_append, varintFrom, hcount, hb, if_false, hread, length_cons]
        congr 2
        omega

theorem varintFrom_error
    (h : varintFrom start count acc position bs = .error e r) : Advances ⟨position, bs⟩ r := by
  induction bs generalizing count acc position with
  | nil =>
    cases h
    exact .refl _
  | cons b rest ih =>
    have hbyte : Advances ⟨position, b :: rest⟩ ⟨position + 1, rest⟩ := ⟨[b], rfl, rfl⟩
    simp only [varintFrom] at h
    split at h
    · cases h
      exact hbyte
    · split at h
      · cases h
      · exact hbyte.trans (ih h)

theorem local_varint : Local varint := by
  refine ⟨fun r v r' h => ?_, fun r e r' h => varintFrom_error h⟩
  obtain ⟨raw, hrest, hpos, hread⟩ := varintFrom_local h
  refine ⟨raw, hrest, hpos, ?_⟩
  intro q rest _
  exact hread q q rest

theorem take_append {n q : Nat} {raw : Bytes} (rest : Bytes) (hlen : raw.length = n)
    (hq : q + n < UInt64.size) : take n ⟨q, raw ++ rest⟩ = .ok raw ⟨q + n, rest⟩ := by
  subst hlen
  have hfit : ¬ UInt64.size ≤ q + raw.length := by omega
  simp [take, Reader.size, Reader.skip, hfit]

theorem local_take (n : Nat) : Local (take n) := by
  refine ⟨fun r bs r' h => ?_, fun r e r' h => ?_⟩ <;> simp only [take] at h <;> split at h
  rotate_left 2
  · cases h
    exact .refl r
  · split at h <;> cases h
    exact .refl r
  · cases h
  · split at h
    · cases h
    · rename_i hsize
      cases h
      have hlen : (r.rest.take n).length = n := by
        simp only [Reader.size] at hsize
        rw [length_take]
        omega
      refine ⟨r.rest.take n, (take_append_drop n r.rest).symm, by simp [Reader.skip, hlen], ?_⟩
      intro q rest hq
      rw [hlen] at hq ⊢
      exact take_append rest hlen (by omega)

theorem local_key : Local key := by
  refine local_varint.bind fun v => ?_
  dsimp only
  split
  · exact .throw _
  · split
    · exact .throw _
    · exact .pure _

theorem local_fixed32 : Local fixed32 := (local_take 4).bind fun _ => .pure _

theorem local_fixed64 : Local fixed64 := (local_take 8).bind fun _ => .pure _

theorem local_bytes : Local bytes := local_varint.bind fun _ => local_take _

theorem local_plainPayload (field : UInt32) (type : WireType) :
    Local (plainPayload field type) := by
  cases type with
  | varint => exact local_varint.bind fun _ => .pure _
  | fixed64 => exact local_fixed64.bind fun _ => .pure _
  | lengthDelimited => exact local_bytes.bind fun _ => .pure _
  | fixed32 => exact local_fixed32.bind fun _ => .pure _
  | startGroup => exact .throw _
  | endGroup => exact .throw _

/-! Groups: what one key does to the open groups, and then what a whole group does. -/

theorem closeGroups_start (h : key r = .ok (field, .startGroup) r') :
    closeGroups innermost outer r = closeGroups field (innermost :: outer) r' := by
  rw [closeGroups]
  split <;> simp_all

theorem closeGroups_end (h : key r = .ok (innermost, .endGroup) r') :
    closeGroups innermost outer r =
      match outer with
      | [] => .ok r.position r'
      | next :: others => closeGroups next others r' := by
  rw [closeGroups]
  split
  · simp_all
  · simp_all
  · rename_i field s hk
    rw [h] at hk
    cases hk
    cases outer <;> simp
  · rename_i hend hk
    rw [h] at hk
    cases hk
    exact absurd rfl hend

theorem plainPayload_type {type : WireType} (h : plainPayload field type r = .ok p r') :
    type ≠ .startGroup ∧ type ≠ .endGroup := by
  constructor <;> rintro rfl <;> cases h

theorem closeGroups_plain {type : WireType} (hk : key r = .ok (field, type) s)
    (hp : plainPayload field type s = .ok p r') :
    closeGroups innermost outer r = closeGroups innermost outer r' := by
  obtain ⟨hstart, hend⟩ := plainPayload_type hp
  rw [closeGroups]
  split
  · simp_all
  · simp_all
  · simp_all
  · rename_i hk'
    rw [hk] at hk'
    split
    · simp_all
    · simp_all

/-- A key either opens a group, closes the innermost one, or begins a field between them. -/
theorem closeGroups_cases (h : closeGroups innermost outer r = .ok stop r') :
    (∃ field s, key r = .ok (field, .startGroup) s ∧
      closeGroups field (innermost :: outer) s = .ok stop r') ∨
    (key r = .ok (innermost, .endGroup) r' ∧ outer = [] ∧ stop = r.position) ∨
    (∃ next others s, key r = .ok (innermost, .endGroup) s ∧ outer = next :: others ∧
      closeGroups next others s = .ok stop r') ∨
    (∃ field type s p t, key r = .ok (field, type) s ∧ plainPayload field type s = .ok p t ∧
      closeGroups innermost outer t = .ok stop r') := by
  rw [closeGroups] at h
  split at h
  · cases h
  · rename_i field s hk
    exact .inl ⟨field, s, hk, h⟩
  · rename_i field s hk
    split at h
    · cases h
    · rename_i hfield
      have hfield : field = innermost := by simpa using hfield
      subst field
      split at h
      · cases h
        exact .inr (.inl ⟨hk, rfl, rfl⟩)
      · exact .inr (.inr (.inl ⟨_, _, s, hk, rfl, h⟩))
  · rename_i field type s _ _ hk
    split at h
    · cases h
    · rename_i p t hp
      exact .inr (.inr (.inr ⟨field, type, s, p, t, hk, hp, h⟩))

/-- Closing the open groups reads what is in them and the key that closes the last, wherever that
stands and whatever follows. -/
def ClosesLocally (innermost : UInt32) (outer : List UInt32) (r : Reader) (stop : Nat)
    (r' : Reader) : Prop :=
  ∃ content closing, r.rest = content ++ (closing ++ r'.rest) ∧
    stop = r.position + content.length ∧ r'.position = stop + closing.length ∧
    ∀ q rest, q ≤ r.position ∨ q + (content ++ closing).length < UInt64.size →
      closeGroups innermost outer ⟨q, content ++ (closing ++ rest)⟩ =
        .ok (q + content.length) ⟨q + content.length + closing.length, rest⟩

theorem ClosesLocally.prepend {innermost' : UInt32} {outer' : List UInt32} (raw : Bytes)
    (hrest : r.rest = raw ++ s.rest) (hpos : s.position = r.position + raw.length)
    (hread : ∀ q rest, q ≤ r.position ∨ q + raw.length < UInt64.size →
      closeGroups innermost outer ⟨q, raw ++ rest⟩ =
      closeGroups innermost' outer' ⟨q + raw.length, rest⟩)
    (h : ClosesLocally innermost' outer' s stop r') : ClosesLocally innermost outer r stop r' := by
  obtain ⟨content, closing, hrest', hstop, hpos', hread'⟩ := h
  refine ⟨raw ++ content, closing, ?_, ?_, hpos', ?_⟩
  · rw [hrest, hrest', append_assoc]
  · rw [hstop, hpos, length_append, add_assoc]
  · intro q rest hq
    simp only [length_append] at hq ⊢
    rw [append_assoc, hread q _ (by omega),
      hread' (q + raw.length) rest (by rw [length_append]; omega)]
    simp [add_assoc]

theorem closeGroups_local (h : closeGroups innermost outer r = .ok stop r') :
    ClosesLocally innermost outer r stop r' := by
  induction r using Reader.induction generalizing innermost outer with
  | _ r ih =>
    rcases closeGroups_cases h with ⟨field, s, hk, hc⟩ | ⟨hk, rfl, rfl⟩ |
        ⟨next, others, s, hk, rfl, hc⟩ | ⟨field, type, s, p, t, hk, hp, hc⟩
    · obtain ⟨raw, hrest, hpos, hread⟩ := local_key.ok hk
      refine (ih s (key_rest hk) hc).prepend raw hrest hpos ?_
      intro q rest hq
      exact closeGroups_start (hread q rest hq)
    · obtain ⟨raw, hrest, hpos, hread⟩ := local_key.ok hk
      refine ⟨[], raw, hrest, rfl, hpos, ?_⟩
      intro q rest hq
      rw [nil_append] at hq ⊢
      rw [closeGroups_end (hread q rest hq)]
      rfl
    · obtain ⟨raw, hrest, hpos, hread⟩ := local_key.ok hk
      refine (ih s (key_rest hk) hc).prepend raw hrest hpos ?_
      intro q rest hq
      exact closeGroups_end (hread q rest hq)
    · obtain ⟨raw, hrest, hpos, hread⟩ := local_key.ok hk
      obtain ⟨body, hrest', hpos', hread'⟩ := (local_plainPayload field type).ok hp
      have hlt := lt_trans (plainPayload_rest hp) (key_rest hk)
      refine (ih t hlt hc).prepend (raw ++ body) ?_ ?_ ?_
      · rw [hrest, hrest', append_assoc]
      · rw [hpos', hpos, length_append, add_assoc]
      · intro q rest hq
        rw [length_append] at hq ⊢
        rw [append_assoc, ← add_assoc]
        exact closeGroups_plain (hread q _ (by omega)) (hread' (q + raw.length) rest (by omega))

theorem closeGroups_append {next : UInt32} {others : List UInt32}
    (h : closeGroups innermost outer r = .ok stop r') :
    closeGroups innermost (outer ++ next :: others) r = closeGroups next others r' := by
  induction r using Reader.induction generalizing innermost outer with
  | _ r ih =>
    rcases closeGroups_cases h with ⟨field, s, hk, hc⟩ | ⟨hk, rfl, rfl⟩ |
        ⟨first, more, s, hk, rfl, hc⟩ | ⟨field, type, s, p, t, hk, hp, hc⟩
    · rw [closeGroups_start hk]
      exact ih s (key_rest hk) hc
    · rw [closeGroups_end hk]
      rfl
    · rw [closeGroups_end hk]
      exact ih s (key_rest hk) hc
    · rw [closeGroups_plain hk hp]
      exact ih t (lt_trans (plainPayload_rest hp) (key_rest hk)) hc

theorem closeGroups_error (h : closeGroups innermost outer r = .error e r') : Advances r r' := by
  induction r using Reader.induction generalizing innermost outer with
  | _ r ih =>
    rw [closeGroups] at h
    split at h
    · next hk =>
      cases h
      exact local_key.error hk
    · next s hk => exact (local_key.advances hk).trans (ih s (key_rest hk) h)
    · next s hk =>
      split at h
      · cases h
        exact local_key.advances hk
      · split at h
        · cases h
        · exact (local_key.advances hk).trans (ih s (key_rest hk) h)
    · next field type s _ _ hk =>
      refine (local_key.advances hk).trans ?_
      split at h
      · next hp =>
        cases h
        exact (local_plainPayload field type).error hp
      · next t hp =>
        have hlt := lt_trans (plainPayload_rest hp) (key_rest hk)
        exact ((local_plainPayload field type).advances hp).trans (ih t hlt h)

theorem local_groupContent (field : UInt32) : Local (groupContent field) := by
  refine ⟨fun r bs r' h => ?_, fun r e r' h => ?_⟩ <;> simp only [groupContent] at h <;> split at h
  rotate_left 2
  · cases h
  · next hc =>
    cases h
    exact closeGroups_error hc
  · rename_i stop s hc
    cases h
    obtain ⟨content, closing, hrest, hstop, hpos, hread⟩ := closeGroups_local hc
    refine ⟨content ++ closing, by rw [hrest, append_assoc],
      by rw [hpos, hstop, length_append, add_assoc], ?_⟩
    intro q rest hq
    have hlen : stop - r.position = content.length := by omega
    simp [groupContent, hread q rest hq, hrest, hlen, add_assoc]
  · cases h

theorem local_payload (field : UInt32) (type : WireType) : Local (payload field type) := by
  unfold payload
  split
  · exact (local_groupContent field).bind fun _ => .pure _
  · exact local_plainPayload field type

theorem field_local {w : WireField} (h : Read.field r = .ok w r') : ∃ raw, r.rest = raw ++ r'.rest ∧
    r'.position = r.position + raw.length ∧ Reads .field r.position raw w := by
  simp only [field] at h
  split at h
  · cases h
  · rename_i number type s hk
    split at h
    · cases h
    · rename_i p hp
      cases h
      obtain ⟨raw₁, hrest₁, hpos₁, hread₁⟩ := local_key.ok hk
      obtain ⟨raw₂, hrest₂, hpos₂, hread₂⟩ := (local_payload number type).ok hp
      have hlen : r'.position - r.position = (raw₁ ++ raw₂).length := by
        rw [length_append]
        omega
      refine ⟨raw₁ ++ raw₂, by rw [hrest₁, hrest₂, append_assoc],
        by rw [hpos₂, hpos₁, length_append, add_assoc], ?_⟩
      intro q rest hq
      have hk' := hread₁ q (raw₂ ++ rest) (by omega)
      have hp' := hread₂ (q + raw₁.length) rest (by omega)
      have hraw : r.rest.take (r'.position - r.position) = raw₁ ++ raw₂ := by
        rw [hlen, hrest₁, hrest₂, ← append_assoc, take_left]
      simp only [field, append_assoc, hk', hp', hraw, add_assoc]
      rw [Nat.add_sub_cancel_left, ← length_append, ← append_assoc, take_left]

end Read

end ProtobufSchema

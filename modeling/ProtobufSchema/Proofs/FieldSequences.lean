import ProtobufSchema.Proofs.WireLocality

/-! Bytes made of complete fields are read as these fields, and only in this way. -/

namespace ProtobufSchema

open Wire Read

variable {ws : List WireField} {rest : Bytes}

def Payload.content : Payload → Bytes
  | lengthDelimited c | group c => c
  | _ => []

namespace WireField

/-- The bytes of the field, standing alone, are read as the field, and nothing is left. -/
def IsComplete (w : WireField) : Prop := Read.field ⟨0, w.raw⟩ = .ok w ⟨w.raw.length, []⟩

def concat (ws : List WireField) : Bytes := ws.flatMap WireField.raw

@[simp] theorem concat_nil : concat [] = [] := rfl

@[simp] theorem concat_cons (w : WireField) (ws : List WireField) :
    concat (w :: ws) = w.raw ++ concat ws := rfl

@[simp] theorem concat_append (ws vs : List WireField) :
    concat (ws ++ vs) = concat ws ++ concat vs := List.flatMap_append

end WireField

open WireField

namespace Read

variable {r r' : Reader} {w : WireField} {type : WireType} {p : Payload}

theorem field_cases (h : field r = .ok w r') :
    ∃ type s, key r = .ok (w.number, type) s ∧ payload w.number type s = .ok w.payload r' ∧
      w.raw = r.rest.take (r'.position - r.position) := by
  simp only [field] at h
  split at h
  · cases h
  · rename_i number type s hk
    split at h
    · cases h
    · rename_i p hp
      cases h
      exact ⟨type, s, hk, hp, rfl⟩

theorem field_of_cases {s : Reader} {number : UInt32} (hk : key r = .ok (number, type) s)
    (hp : payload number type s = .ok p r') :
    field r = .ok ⟨number, p, r.rest.take (r'.position - r.position)⟩ r' := by
  simp [field, hk, hp]

theorem field_complete (h : field r = .ok w r') :
    w.IsComplete ∧ r.rest = w.raw ++ r'.rest ∧ r'.position = r.position + w.raw.length := by
  obtain ⟨raw, hrest, hpos, hread⟩ := field_local h
  obtain ⟨_, _, _, _, hraw⟩ := field_cases h
  have hlen : r'.position - r.position = raw.length := by omega
  rw [hlen, hrest, List.take_left] at hraw
  subst hraw
  refine ⟨?_, hrest, hpos⟩
  simpa [WireField.IsComplete] using hread 0 [] (.inl (Nat.zero_le _))

theorem reads_of_complete (h : w.IsComplete) : Reads field 0 w.raw w := by
  obtain ⟨raw, hrest, _, hread⟩ := field_local h
  have hraw : w.raw = raw := by simpa using hrest
  rw [hraw]
  exact hread

theorem plainPayload_content {field : UInt32} (h : plainPayload field type r = .ok p r') :
    p.content.length + r'.rest.length ≤ r.rest.length := by
  have hlt := plainPayload_rest h
  cases type with
  | varint =>
    obtain ⟨v, s, _, hp⟩ := bind_ok h
    cases hp
    simp only [Payload.content, List.length_nil]
    omega
  | fixed64 =>
    obtain ⟨v, s, _, hp⟩ := bind_ok h
    cases hp
    simp only [Payload.content, List.length_nil]
    omega
  | fixed32 =>
    obtain ⟨v, s, _, hp⟩ := bind_ok h
    cases hp
    simp only [Payload.content, List.length_nil]
    omega
  | lengthDelimited =>
    obtain ⟨c, s, hb, hp⟩ := bind_ok h
    cases hp
    obtain ⟨n, t, hv, ht⟩ := bind_ok hb
    have hvarint := varint_rest hv
    have htake := take_rest ht
    have hc : c.length ≤ n.toNat := by
      simp only [take] at ht
      split at ht
      · cases ht
      · split at ht <;> cases ht
        simp
    simp only [Payload.content]
    omega
  | startGroup => cases h
  | endGroup => cases h

theorem payload_content {field : UInt32} (h : payload field type r = .ok p r') :
    p.content.length + r'.rest.length ≤ r.rest.length := by
  unfold payload at h
  split at h
  · obtain ⟨c, s, hg, hp⟩ := bind_ok h
    cases hp
    simp only [groupContent] at hg
    split at hg
    · rename_i stop s hc
      cases hg
      obtain ⟨content, closing, hrest, hstop, _, _⟩ := closeGroups_local hc
      have hlen := congrArg List.length hrest
      simp only [List.length_append] at hlen
      simp only [Payload.content, List.length_take]
      omega
    · cases hg
  · exact plainPayload_content h

theorem field_content (h : field r = .ok w r') :
    w.payload.content.length + r'.rest.length < r.rest.length := by
  obtain ⟨type, s, hk, hp, _⟩ := field_cases h
  have := key_rest hk
  have := payload_content hp
  omega

end Read

namespace WireField

variable {w : WireField}
variable {vs : List WireField}

theorem IsComplete.field (h : w.IsComplete) (q : Nat) (rest : Bytes)
    (hq : q + w.raw.length < UInt64.size) :
    field ⟨q, w.raw ++ rest⟩ = .ok w ⟨q + w.raw.length, rest⟩ :=
  reads_of_complete h q rest (.inr hq)

theorem IsComplete.raw_ne_nil (h : w.IsComplete) : w.raw ≠ [] := by
  intro hnil
  have hlt := field_content h
  simp [hnil] at hlt

theorem exists_of_concat_eq (hws : ∀ w ∈ ws, w.IsComplete)
    (hvs : ∀ v ∈ vs, v.IsComplete) (h : concat ws = concat vs ++ rest) :
    ∃ us, ws = vs ++ us ∧ rest = concat us := by
  induction vs generalizing ws with
  | nil => exact ⟨ws, rfl, h.symm⟩
  | cons v vs ih =>
    obtain ⟨hv, hvs⟩ := List.forall_mem_cons.mp hvs
    rw [concat_cons, List.append_assoc] at h
    cases ws with
    | nil => exact absurd (List.append_eq_nil_iff.mp h.symm).1 hv.raw_ne_nil
    | cons w ws =>
      obtain ⟨hw, hws⟩ := List.forall_mem_cons.mp hws
      have hread := reads_of_complete hw 0 (concat ws) (.inl (le_refl 0))
      rw [← concat_cons, h, reads_of_complete hv 0 _ (.inl (le_refl 0))] at hread
      injection hread with hsame hrest
      injection hrest with _ hrest
      obtain ⟨us, rfl, hus⟩ := ih hws hvs hrest.symm
      exact ⟨us, by rw [hsame, List.cons_append], hus⟩

theorem concat_injective (hws : ∀ w ∈ ws, w.IsComplete)
    (hvs : ∀ v ∈ vs, v.IsComplete) (h : concat ws = concat vs) : ws = vs := by
  obtain ⟨us, rfl, hnil⟩ := exists_of_concat_eq hws hvs (h.trans (List.append_nil _).symm)
  cases us with
  | nil => exact List.append_nil vs
  | cons u us => exact absurd (List.append_eq_nil_iff.mp hnil.symm).1 (hws u (by simp)).raw_ne_nil

end WireField

theorem Read.closeGroups_complete {w : WireField} (h : w.IsComplete) {innermost : UInt32}
    {outer : List UInt32} {q : Nat} {rest : Bytes} (hq : q + w.raw.length < UInt64.size) :
    closeGroups innermost outer ⟨q, w.raw ++ rest⟩ =
      closeGroups innermost outer ⟨q + w.raw.length, rest⟩ := by
  obtain ⟨type, s, hk, hp, _⟩ := field_cases (h.field q rest hq)
  unfold payload at hp
  split at hp
  · rename_i htype
    subst htype
    obtain ⟨c, t, hg, hpure⟩ := bind_ok hp
    injection hpure with _ hreader
    subst hreader
    simp only [groupContent] at hg
    split at hg
    · rename_i stop t hc
      cases hg
      rw [closeGroups_start hk]
      exact closeGroups_append hc
    · cases hg
  · exact closeGroups_plain hk hp

theorem Read.closeGroups_concat (h : ∀ w ∈ ws, w.IsComplete) {innermost : UInt32}
    {outer : List UInt32} {q : Nat} (hq : q + (concat ws).length < UInt64.size) :
    closeGroups innermost outer ⟨q, concat ws ++ rest⟩ =
      closeGroups innermost outer ⟨q + (concat ws).length, rest⟩ := by
  induction ws generalizing q with
  | nil => rfl
  | cons w ws ih =>
    rw [concat_cons, List.length_append] at hq ⊢
    rw [List.append_assoc, closeGroups_complete (h w (by simp)) (by omega),
      ih (fun x hx => h x (by simp [hx])) (by omega), add_assoc]

namespace Read

variable (field : UInt32) (v : UInt64)

def IsPlain (field : UInt32) (kind : WireType) (body : Bytes) (p : Payload) : Prop :=
  ∀ q rest, q + body.length < UInt64.size →
    plainPayload field kind ⟨q, body ++ rest⟩ = .ok p ⟨q + body.length, rest⟩

theorem isPlain_varint : IsPlain field .varint (Wire.varint v) (.varint v) := by
  intro q rest _
  simp only [plainPayload, bind, EStateM.bind, varint_varint]
  rfl

theorem isPlain_fixed32 (v : UInt32) : IsPlain field .fixed32 (word32 v) (.fixed32 v) := by
  intro q rest hq
  have hlen : (word32 v).length = 4 := littleEndian_length 4 _
  rw [hlen] at hq ⊢
  simp [plainPayload, fixed32, bind, EStateM.bind, take_append rest hlen hq, pure, EStateM.pure]

theorem isPlain_fixed64 : IsPlain field .fixed64 (word64 v) (.fixed64 v) := by
  intro q rest hq
  have hlen : (word64 v).length = 8 := littleEndian_length 8 _
  rw [hlen] at hq ⊢
  simp [plainPayload, fixed64, bind, EStateM.bind, take_append rest hlen hq, pure, EStateM.pure]

theorem isPlain_bytes (content : Bytes) :
    IsPlain field .lengthDelimited (Wire.varint content.length.toUInt64 ++ content)
      (.lengthDelimited content) := by
  intro q rest hq
  rw [List.length_append] at hq ⊢
  have hlen : content.length.toUInt64.toNat = content.length := UInt64.toNat_ofNat_of_lt (by omega)
  have ht := take_append (q := q + (Wire.varint content.length.toUInt64).length) rest
    (rfl : content.length = _) (by omega)
  simp [plainPayload, bytes, bind, EStateM.bind, varint_varint, hlen, ht, pure, EStateM.pure,
    add_assoc]

end Read

namespace WireField

variable {number : UInt32}

theorem isComplete_key {type : WireType} {body : Bytes} {p : Payload} (hnumber : number ≠ 0)
    (hsize : Addressable (key number type ++ body))
    (h : ∀ q, q + body.length < UInt64.size →
      Read.payload number type ⟨q, body⟩ = .ok p ⟨q + body.length, []⟩) :
    (mk number p (key number type ++ body)).IsComplete := by
  rw [Addressable, List.length_append] at hsize
  have hk := key_key number type hnumber 0 body
  have hp := h (0 + (key number type).length) (by omega)
  have hf := field_of_cases hk hp
  have htake : (key number type ++ body).take
      ((key number type).length + body.length) = key number type ++ body := by
    rw [← List.length_append, List.take_length]
  simpa [IsComplete, htake] using hf

theorem isComplete_plain {kind : WireType} {body : Bytes} {p : Payload} (hnumber : number ≠ 0)
    (h : IsPlain number kind body p) (hsize : Addressable (key number kind ++ body)) :
    (mk number p (key number kind ++ body)).IsComplete := by
  apply isComplete_key hnumber hsize
  intro q hq
  have hp := h q [] hq
  rw [List.append_nil] at hp
  simp [Read.payload, if_neg (plainPayload_type hp).1, hp]

theorem isComplete_block (h : number ≠ 0) {content : Bytes}
    (hsize : Addressable (block number content)) :
    (mk number (.lengthDelimited content) (block number content)).IsComplete := by
  rw [block, List.append_assoc] at hsize ⊢
  exact isComplete_plain h (isPlain_bytes number content) hsize

theorem isComplete_group (h : number ≠ 0) (hws : ∀ w ∈ ws, w.IsComplete)
    (hsize : Addressable (key number .startGroup ++ concat ws ++ key number .endGroup)) :
    (mk number (.group (concat ws))
      (key number .startGroup ++ concat ws ++ key number .endGroup)).IsComplete := by
  rw [List.append_assoc] at hsize ⊢
  apply isComplete_key h hsize
  intro q hq
  rw [List.length_append] at hq
  have hkey := key_key number .endGroup h (q + (concat ws).length) []
  rw [List.append_nil] at hkey
  have hclose : closeGroups number [] ⟨q, concat ws ++ key number .endGroup⟩ =
      .ok (q + (concat ws).length) ⟨q + (concat ws).length + (key number .endGroup).length,
          []⟩ := by
    rw [Read.closeGroups_concat hws (by omega), closeGroups_end hkey]
  simp [Read.payload, groupContent, bind, EStateM.bind, hclose, pure, EStateM.pure, add_assoc]

end WireField

namespace FieldSequence

variable {s : FieldSequence}

theorem ofReader_cons {r r' : Reader} {w : WireField} (h : field r = .ok w r') :
    ofReader r = ⟨w :: (ofReader r').fields, (ofReader r').failure⟩ := by
  have hne : r.rest ≠ [] := by
    intro hnil
    have hlt := field_rest h
    simp [hnil] at hlt
  rw [ofReader, if_neg hne]
  split
  · simp_all
  · rename_i hf
    rw [h] at hf
    cases hf
    rfl

theorem ofReader_complete (r : Reader) : ∀ w ∈ (ofReader r).fields, w.IsComplete := by
  induction r using Reader.induction with
  | _ r ih =>
    intro w hw
    rw [ofReader] at hw
    split at hw
    · cases hw
    · split at hw
      · cases hw
      · rename_i f r' hf
        rcases List.mem_cons.mp hw with rfl | hmem
        · exact (field_complete hf).1
        · exact ih r' (field_rest hf) w hmem

theorem ofReader_content (r : Reader) :
    ∀ w ∈ (ofReader r).fields, w.payload.content.length < r.rest.length := by
  induction r using Reader.induction with
  | _ r ih =>
    intro w hw
    rw [ofReader] at hw
    split at hw
    · cases hw
    · split at hw
      · cases hw
      · rename_i f r' hf
        have hlt := field_content hf
        rcases List.mem_cons.mp hw with rfl | hmem
        · omega
        · exact lt_trans (ih r' (field_rest hf) w hmem) (field_rest hf)

theorem ofReader_rest {r : Reader} (h : (ofReader r).failure = none) :
    r.rest = concat (ofReader r).fields := by
  induction r using Reader.induction with
  | _ r ih =>
    by_cases hnil : r.rest = []
    · rw [ofReader, if_pos hnil]
      exact hnil
    · cases hf : field r with
      | error e s =>
        rw [ofReader, if_neg hnil] at h
        split at h
        · cases h
        · simp_all
      | ok w s =>
        rw [ofReader_cons hf] at h ⊢
        rw [concat_cons, ← ih s (field_rest hf) h]
        exact (field_complete hf).2.1

variable {ws : List WireField}

theorem ofReader_concat (h : ∀ w ∈ ws, w.IsComplete) (q : Nat)
    (hq : q + (concat ws).length < UInt64.size) : ofReader ⟨q, concat ws⟩ = ⟨ws, none⟩ := by
  induction ws generalizing q with
  | nil =>
    rw [ofReader]
    rfl
  | cons w ws ih =>
    rw [concat_cons, List.length_append] at hq
    have hw := (h w (by simp)).field q (concat ws) (by omega)
    rw [concat_cons, ofReader_cons hw,
      ih (fun x hx => h x (by simp [hx])) (q + w.raw.length) (by omega)]

variable {σ : Type} {step step' : σ → WireField → Except DecodeError σ} {init result : σ}

theorem interpret_ok (h : s.interpret init step = .ok result) :
    s.failure = none ∧ s.fields.foldlM step init = .ok result := by
  unfold interpret at h
  cases hf : s.fields.foldlM step init with
  | error e => simp [hf, bind, Except.bind] at h
  | ok x =>
    cases he : s.failure with
    | some e => simp [hf, he, bind, Except.bind] at h
    | none => simpa [hf, he, bind, Except.bind, pure, Except.pure] using h

theorem interpret_fields : (mk ws none).interpret init step = ws.foldlM step init := by
  unfold interpret
  cases ws.foldlM step init <;> rfl

theorem foldlM_congr (h : ∀ w ∈ ws, ∀ s, step s w = step' s w) (init : σ) :
    ws.foldlM step init = ws.foldlM step' init := by
  induction ws generalizing init with
  | nil => rfl
  | cons w ws ih =>
    simp only [List.foldlM_cons, h w (by simp)]
    congr 1
    funext s
    exact ih (fun v hv => h v (by simp [hv])) s

theorem interpret_congr (h : ∀ w ∈ s.fields, ∀ x, step x w = step' x w) :
    s.interpret init step = s.interpret init step' := by
  simp [interpret, foldlM_congr h]

theorem foldlM_invariant {P : σ → Prop} (hinit : P init)
    (hstep : ∀ s w s', w ∈ ws → P s → step s w = .ok s' → P s')
    (h : ws.foldlM step init = .ok result) : P result := by
  induction ws generalizing init with
  | nil =>
    cases h
    exact hinit
  | cons w ws ih =>
    rw [List.foldlM_cons] at h
    cases hw : step init w with
    | error e => simp [hw, bind, Except.bind] at h
    | ok s =>
      simp only [hw] at h
      exact ih (hstep init w s (by simp) hinit hw) (fun s v s' hv => hstep s v s' (by simp [hv])) h

end FieldSequence

namespace Wire

variable {σ : Type} {p : WireField → Prop} {step : σ → WireField → Except DecodeError σ}
  {bytes : Bytes} {s s' : σ}

/-- Bytes that are complete fields, one behind the other, which all satisfy a condition. -/
def AreFields (p : WireField → Prop) (bytes : Bytes) : Prop :=
  ∃ ws, bytes = concat ws ∧ ∀ w ∈ ws, w.IsComplete ∧ p w

def Carries (p : WireField → Prop) (step : σ → WireField → Except DecodeError σ) (bytes : Bytes)
    (s s' : σ) : Prop :=
  ∃ ws, bytes = concat ws ∧ (∀ w ∈ ws, w.IsComplete ∧ p w) ∧ ws.foldlM step s = .ok s'

theorem Carries.areFields (h : Carries p step bytes s s') : AreFields p bytes := by
  obtain ⟨ws, hbytes, hws, _⟩ := h
  exact ⟨ws, hbytes, hws⟩

theorem Carries.mono {q : WireField → Prop} (h : Carries p step bytes s s') (hpq : ∀ w, p w → q w) :
    Carries q step bytes s s' := by
  obtain ⟨ws, hbytes, hws, hfold⟩ := h
  exact ⟨ws, hbytes, fun w hw => ⟨(hws w hw).1, hpq w (hws w hw).2⟩, hfold⟩

theorem Carries.nil (s : σ) : Carries p step [] s s := ⟨[], rfl, by simp, rfl⟩

theorem Carries.single {w : WireField} (hw : w.IsComplete) (hp : p w) (h : step s w = .ok s') :
    Carries p step w.raw s s' := by
  refine ⟨[w], by simp, by simpa using ⟨hw, hp⟩, ?_⟩
  simp [h]

theorem Carries.append {more : Bytes} {s'' : σ} (h : Carries p step bytes s s')
    (h' : Carries p step more s' s'') : Carries p step (bytes ++ more) s s'' := by
  obtain ⟨ws, rfl, hws, hfold⟩ := h
  obtain ⟨vs, rfl, hvs, hfold'⟩ := h'
  refine ⟨ws ++ vs, by simp, ?_, ?_⟩
  · intro w hw
    rcases List.mem_append.mp hw with hw | hw
    · exact hws w hw
    · exact hvs w hw
  · rw [List.foldlM_append, hfold]
    exact hfold'

theorem Carries.interpret (h : Carries p step bytes s s') (hsize : Addressable bytes) :
    (FieldSequence.ofBytes bytes).interpret s step = .ok s' := by
  obtain ⟨ws, rfl, hws, hfold⟩ := h
  have hread := FieldSequence.ofReader_concat (fun w hw => (hws w hw).1) 0 (by rwa [Nat.zero_add])
  rw [FieldSequence.ofBytes, Reader.ofBytes, hread, FieldSequence.interpret_fields]
  exact hfold

end Wire

end ProtobufSchema

import ProtobufSchema.Proofs.DecodeFixpoint

/-! If a message holds no bytes that nobody explains, each field that it is written as stands for
one of its entries. -/

namespace ProtobufSchema

open WireField Wire

variable {bytes : Bytes}

namespace Read

variable {innermost : UInt32} {outer : List UInt32}

theorem key_zero (type : WireType) (position : Nat) (rest : Bytes) (k : UInt32 × WireType)
    (r : Reader) : key ⟨position, Wire.key 0 type ++ rest⟩ ≠ .ok k r := by
  have ht := type.number_lt
  have hnat : type.number.toUInt64.toNat = type.number := by
    simp
    omega
  simp only [key, Wire.key, bind, EStateM.bind, UInt32.toNat_zero, zero_mul, zero_add,
    varint_varint, hnat, Nat.mod_eq_of_lt ht, Nat.div_eq_of_lt ht]
  rw [WireType.ofNumber?_number]
  intro h
  cases h

theorem number_ne_zero {number : UInt32} {type : WireType} {q stop : Nat} {rest : Bytes}
    {r : Reader} (h : closeGroups innermost outer ⟨q, Wire.key number type ++ rest⟩ = .ok stop r) :
    number ≠ 0 := by
  rintro rfl
  rcases closeGroups_cases h with ⟨_, _, hk, _⟩ | ⟨hk, _⟩ | ⟨_, _, _, hk, _⟩ |
    ⟨_, _, _, _, _, hk, _⟩ <;>
    exact key_zero _ _ _ _ _ hk

end Read

namespace Wire

variable {p p' : WireField → Prop} {bytes more : Bytes}

theorem AreFields.mono (h : AreFields p bytes) (hp : ∀ w, p w → p' w) : AreFields p' bytes := by
  obtain ⟨ws, hbytes, hws⟩ := h
  exact ⟨ws, hbytes, fun w hw => ⟨(hws w hw).1, hp w (hws w hw).2⟩⟩

theorem AreFields.append (h : AreFields p bytes) (h' : AreFields p more) :
    AreFields p (bytes ++ more) := by
  obtain ⟨ws, rfl, hws⟩ := h
  obtain ⟨vs, rfl, hvs⟩ := h'
  exact ⟨ws ++ vs, (concat_append ws vs).symm, List.forall_mem_append.mpr ⟨hws, hvs⟩⟩

theorem AreFields.single {w : WireField} (h : w.IsComplete) (hp : p w) : AreFields p w.raw :=
  nil.append_raw h hp

/-- Where a reader inside a group gets past the bytes, they are such fields. -/
def Frames (p : WireField → Prop) (bytes : Bytes) : Prop :=
  ∀ innermost outer q rest stop r, q + bytes.length < UInt64.size →
    Read.closeGroups innermost outer ⟨q, bytes ++ rest⟩ = .ok stop r → AreFields p bytes

namespace Frames

theorem nil : Frames p [] := fun _ _ _ _ _ _ _ _ => .nil

theorem mono (h : Frames p bytes) (hp : ∀ w, p w → p' w) : Frames p' bytes :=
  fun _ _ _ _ _ _ hq hread => (h _ _ _ _ _ _ hq hread).mono hp

theorem append (h : Frames p bytes) (h' : Frames p more) : Frames p (bytes ++ more) := by
  intro innermost outer q rest stop r hq hread
  rw [List.length_append] at hq
  rw [List.append_assoc] at hread
  have hfields := h _ _ _ _ _ _ (by omega) hread
  obtain ⟨ws, rfl, hws⟩ := hfields
  rw [Read.closeGroups_concat (fun w hw => (hws w hw).1) (by omega)] at hread
  exact .append ⟨ws, rfl, hws⟩ (h' _ _ _ _ _ _ (by omega) hread)

theorem areFields (h : Frames p bytes) (hfields : AreFields (fun _ => True) bytes)
    (hsize : Addressable bytes) : AreFields p bytes := by
  obtain ⟨ws, rfl, hws⟩ := hfields
  have hkey := Read.key_key 1 .endGroup (by decide) (0 + (concat ws).length) []
  rw [List.append_nil] at hkey
  have hq : 0 + (concat ws).length < UInt64.size := by simpa [Addressable] using hsize
  have hclosed : ∃ stop r, Read.closeGroups 1 [] ⟨0, concat ws ++ key 1 .endGroup⟩ =
      .ok stop r := by
    rw [Read.closeGroups_concat (fun w hw => (hws w hw).1) hq, Read.closeGroups_end hkey]
    exact ⟨_, _, rfl⟩
  obtain ⟨stop, r, hclosed⟩ := hclosed
  exact h _ _ _ _ _ _ hq hclosed

theorem block (number : UInt32) (content : Bytes) :
    Frames (fun w => w.number = number ∧ w.payload.wireType = .lengthDelimited)
      (Wire.block number content) := by
  intro innermost outer q rest stop r hq hread
  have hkey := hread
  rw [Wire.block, List.append_assoc, List.append_assoc] at hkey
  have hsize : Addressable (Wire.block number content) :=
    Nat.lt_of_le_of_lt (Nat.le_add_left _ _) hq
  exact AreFields.single (isComplete_block (Read.number_ne_zero hkey) hsize) ⟨rfl, rfl⟩

end Frames

end Wire

namespace Value

variable {number : UInt32} {type : FieldType} {v : Value} {bytes : Bytes}

theorem isScalarOf_of_scalarBytes? (h : v.scalarBytes? type = some bytes) :
    v.isScalarOf type = true := by
  cases type <;> cases v <;> first | rfl | cases h

theorem encodeScalar_frames (h : v.encodeScalar number type = .ok bytes) :
    Frames (fun w => w.number = number ∧ w.payload.wireType = type.wireType)
      (key number type.wireType ++ bytes) := by
  unfold encodeScalar at h
  split at h
  · rename_i body hbody
    cases h
    have hscalar := isScalarOf_of_scalarBytes? hbody
    obtain ⟨body', p, hbody', hplain, hp⟩ := scalarBytes_payload hscalar
      (fun typeName _ => .ok (.empty typeName)) {} number
    cases hbody.symm.trans hbody'
    intro innermost outer q rest stop r hq hread
    rw [List.append_assoc] at hread
    have hnumber := Read.number_ne_zero hread
    refine .single (isComplete_plain hnumber hplain ?_) ⟨rfl, ?_⟩
    · exact lt_of_le_of_lt (Nat.le_add_left _ _) hq
    · by_contra hkind
      rw [ofPayload_other hkind] at hp
      cases hp
  · cases h

theorem encodeField_frames
    (hin : ∀ x, v = .message x → ∀ content, x.encode = .ok content → Frames (fun _ => True) content)
    (h : v.encodeField number type = .ok bytes) :
    Frames (fun w => w.number = number ∧ w.payload.wireType = type.wireType) bytes := by
  cases v with
  | message x =>
    unfold encodeField at h
    split at h
    · obtain ⟨content, hcontent, h⟩ := bind_eq_ok.mp h
      cases h
      intro innermost outer q rest stop r hq hread
      simp only [List.append_assoc] at hread
      simp only [List.length_append] at hq
      have hnumber := Read.number_ne_zero hread
      rw [Read.closeGroups_start (Read.key_key number .startGroup hnumber q _)] at hread
      obtain ⟨ws, rfl, hws⟩ := hin x rfl content hcontent _ _ _ _ _ _ (by omega) hread
      refine .single (isComplete_group hnumber (fun w hw => (hws w hw).1) ?_) ⟨rfl, rfl⟩
      simp only [Addressable, List.length_append]
      omega
    · obtain ⟨content, hcontent, h⟩ := bind_eq_ok.mp h
      cases h
      exact .block number content
    · cases h
  | _ =>
    simp only [encodeField] at h
    split at h
    · cases h
    · obtain ⟨content, hcontent, h⟩ := bind_eq_ok.mp h
      cases h
      exact encodeScalar_frames hcontent

theorem encodeFields_frames {vs : List Value}
    (hin : ∀ x, .message x ∈ vs → ∀ content, x.encode = .ok content →
      Frames (fun _ => True) content)
    (h : encodeFields number type vs = .ok bytes) :
    Frames (fun w => w.number = number ∧ w.payload.wireType = type.wireType) bytes := by
  induction vs generalizing bytes with
  | nil =>
    cases h
    exact .nil
  | cons v vs ih =>
    obtain ⟨head, hhead, h⟩ := bind_eq_ok.mp h
    obtain ⟨tail, htail, h⟩ := bind_eq_ok.mp h
    cases h
    refine (encodeField_frames ?_ hhead).append (ih (fun x hx => hin x (by simp [hx])) htail)
    rintro x rfl
    exact hin x (by simp)

end Value

namespace Entry

/-- A field of the wire may stand for the entry, or for a value in it. -/
def Spells (e : Entry) (w : WireField) : Prop :=
  w.number = e.number ∧ (w.payload.wireType = e.type.wireType ∨
    e.packed = true ∧ e.type.isPackable = true ∧ w.payload.wireType = .lengthDelimited)

theorem encode_frames {e : Entry}
    (hin : ∀ x, .message x ∈ e.value.items → ∀ content, x.encode = .ok content →
      Frames (fun _ => True) content) (h : e.encode = .ok bytes) : Frames e.Spells bytes := by
  have hkind (w : WireField) (hw : w.number = e.number ∧ w.payload.wireType = e.type.wireType) :
      e.Spells w := ⟨hw.1, .inl hw.2⟩
  obtain ⟨number, type, packed, value⟩ := e
  cases value with
  | list items =>
    simp only [encode] at h
    split at h
    · rename_i hpacked
      obtain ⟨hpacked, hpackable⟩ := Bool.and_eq_true_iff.mp hpacked
      split at h
      · cases h
        exact .nil
      · obtain ⟨run, _, h⟩ := bind_eq_ok.mp h
        cases h
        exact (Frames.block number run).mono fun w hw => ⟨hw.1, .inr ⟨hpacked, hpackable, hw.2⟩⟩
    · exact (Value.encodeFields_frames hin h).mono hkind
  | message x =>
    refine (Value.encodeField_frames ?_ h).mono hkind
    rintro y ⟨⟩
    exact hin x (List.mem_singleton_self _)
  | _ => exact (Value.encodeField_frames (by rintro _ ⟨⟩) h).mono hkind

theorem encodeAll_frames {es : List Entry}
    (hin : ∀ e ∈ es, ∀ x, .message x ∈ e.value.items → ∀ content, x.encode = .ok content →
      Frames (fun _ => True) content) (h : encodeAll es = .ok bytes) :
    Frames (fun w => ∃ e ∈ es, e.Spells w) bytes := by
  induction es generalizing bytes with
  | nil =>
    cases h
    exact .nil
  | cons e es ih =>
    obtain ⟨hown, hrest⟩ := List.forall_mem_cons.mp hin
    obtain ⟨head, hhead, h⟩ := bind_eq_ok.mp h
    obtain ⟨tail, htail, h⟩ := bind_eq_ok.mp h
    cases h
    refine ((encode_frames hown hhead).mono ?_).append ((ih hrest htail).mono ?_)
    · exact fun w hw => ⟨e, by simp, hw⟩
    · rintro w ⟨x, hx, hw⟩
      exact ⟨x, by simp [hx], hw⟩

end Entry

namespace Message

/-- Neither the message nor one inside it holds bytes that nobody explains. -/
inductive IsExplained : Message → Prop
  | of {m : Message} (hunknown : m.unknown = [])
    (hin : ∀ e ∈ m.entries, ∀ x, Value.message x ∈ e.value.items → IsExplained x) : IsExplained m

namespace IsExplained

variable {m : Message}

theorem unknown_eq (h : m.IsExplained) : m.unknown = [] := by
  cases h with
  | of hunknown _ => exact hunknown

theorem empty (typeName : String) : (empty typeName).IsExplained := .of rfl (by nofun)

theorem encode_frames (h : m.IsExplained) (hbytes : m.encode = .ok bytes) :
    Frames (fun w => ∃ e ∈ m.entries, e.Spells w) bytes := by
  induction h generalizing bytes with
  | @of m hunknown _ ih =>
    obtain ⟨typeName, entries, unknown⟩ := m
    obtain ⟨known, hknown, hbytes⟩ := bind_eq_ok.mp hbytes
    cases hunknown
    cases hbytes
    rw [List.append_nil]
    refine Entry.encodeAll_frames ?_ hknown
    intro e he x hx content hcontent
    exact (ih e he x hx hcontent).mono fun _ _ => trivial

theorem decode_unknown (h : m.IsExplained) {ctx : DecodeContext} {typeName : String}
    {m' : Message} (htakes : ∀ e ∈ m.entries, ∀ w, e.Spells w → ctx.consumes typeName w = true)
    (hbytes : m.encode = .ok bytes) (hsize : Addressable bytes)
    (hread : decode ctx typeName bytes = .ok m') : m'.unknown = [] := by
  have hfields : AreFields (fun _ => True) bytes := by
    have hinterpret := hread
    have hconcat := FieldSequence.ofReader_rest (FieldSequence.interpret_ok hinterpret).1
    exact ⟨_, hconcat, fun w hw => ⟨FieldSequence.ofReader_complete _ w hw, trivial⟩⟩
  have htaken : AreFields (fun w => ctx.consumes typeName w = true) bytes :=
    ((h.encode_frames hbytes).areFields hfields hsize).mono fun w ⟨e, he, hw⟩ => htakes e he w hw
  obtain ⟨ws, hunknown, hws⟩ := (decode_origin htaken hread).2
  -- The bytes left over are fields that are taken, and also fields that are not.
  obtain ⟨hname, htyped⟩ := decode_wellTyped hread
  obtain ⟨_, _, hleft⟩ := wellTyped_iff.mp htyped
  rw [hname, hunknown] at hleft
  have hnone := hleft.forall fun w hw => (hws w hw).1
  cases ws with
  | nil => exact hunknown
  | cons w ws =>
    have htaken : ctx.consumes typeName w = true := (hws w (by simp)).2
    rw [hnone w (by simp)] at htaken
    cases htaken

end IsExplained

end Message

end ProtobufSchema

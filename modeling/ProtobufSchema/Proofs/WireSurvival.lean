import ProtobufSchema.Proofs.DecodeFixpoint

/-! An entry under the number of the waiting assignments is not written, so a file survives being
written and read only if it has none. -/

namespace ProtobufSchema

open Wire

variable {ctx : DecodeContext} {number : UInt32} {es : List Entry}

section Encode

variable {g : Option Options → Option Options}
  (hg : ∀ number o?, Options.encodeField number (g o?) = Options.encodeField number o?)

theorem Wire.blocksM_map {α : Type} (number : UInt32) {encode : α → Except EncodeError Bytes}
    {change : α → α} {xs : List α} (h : ∀ x ∈ xs, encode (change x) = encode x) :
    blocksM number encode (xs.map change) = blocksM number encode xs := by
  induction xs with
  | nil => rfl
  | cons x xs ih =>
    rw [List.map_cons, blocksM, blocksM, h x (by simp), ih fun y hy => h y (by simp [hy])]

include hg

theorem FieldDescriptor.encode_mapOptions (f : FieldDescriptor) :
    (f.mapOptions g).encode = f.encode := by
  simp [encode, mapOptions, hg]

theorem OneofDescriptor.encode_mapOptions (o : OneofDescriptor) :
    (o.mapOptions g).encode = o.encode := by
  simp [encode, mapOptions, hg]

theorem ExtensionRange.encode_mapOptions (r : ExtensionRange) :
    (r.mapOptions g).encode = r.encode := by
  simp [encode, mapOptions, hg]

theorem EnumValueDescriptor.encode_mapOptions (v : EnumValueDescriptor) :
    (v.mapOptions g).encode = v.encode := by
  simp [encode, mapOptions, hg]

theorem MethodDescriptor.encode_mapOptions (m : MethodDescriptor) :
    (m.mapOptions g).encode = m.encode := by
  simp [encode, mapOptions, hg]

theorem EnumDescriptor.encode_mapOptions (e : EnumDescriptor) :
    (e.mapOptions g).encode = e.encode := by
  simp only [encode, mapOptions, hg]
  rw [blocksM_map 2 fun v _ => v.encode_mapOptions hg]

theorem ServiceDescriptor.encode_mapOptions (s : ServiceDescriptor) :
    (s.mapOptions g).encode = s.encode := by
  simp only [encode, mapOptions, hg]
  rw [blocksM_map 2 fun m _ => m.encode_mapOptions hg]

theorem MessageDescriptor.encode_mapOptions (m : MessageDescriptor) :
    (m.mapOptions g).encode = m.encode := by
  induction m using nesting with
  | _ _ _ ih =>
    simp only [encode, mapOptions, mapNestedOptions_eq, encodeNested_eq, hg]
    rw [blocksM_map 2 fun f _ => f.encode_mapOptions hg, blocksM_map 3 ih,
      blocksM_map 4 fun e _ => e.encode_mapOptions hg,
      blocksM_map 5 fun r _ => r.encode_mapOptions hg,
      blocksM_map 6 fun f _ => f.encode_mapOptions hg,
      blocksM_map 8 fun o _ => o.encode_mapOptions hg]

theorem FileDescriptor.encode_mapOptions (f : FileDescriptor) :
    (f.mapOptions g).encode = f.encode := by
  simp only [encode, mapOptions, hg]
  rw [blocksM_map 4 fun m _ => m.encode_mapOptions hg,
    blocksM_map 5 fun e _ => e.encode_mapOptions hg,
    blocksM_map 6 fun s _ => s.encode_mapOptions hg,
    blocksM_map 7 fun x _ => x.encode_mapOptions hg]

end Encode

theorem Entry.erase_eq (h : es.Pairwise fun a b => a.number < b.number) :
    alter number (fun _ => none) es = es.filter (·.number ≠ number) := by
  induction es with
  | nil => rfl
  | cons x es ih =>
    obtain ⟨hx, hes⟩ := List.pairwise_cons.mp h
    unfold alter
    split
    · rename_i hlt
      refine (List.filter_eq_self.mpr (List.forall_mem_cons.mpr ⟨?_, fun e he => ?_⟩)).symm
      · exact decide_eq_true (UInt32.ne_of_lt hlt).symm
      · exact decide_eq_true (UInt32.ne_of_lt (UInt32.lt_trans hlt (hx e he))).symm
    · split
      · rename_i heq
        rw [List.filter_cons_of_neg (by simp [heq])]
        exact (List.filter_eq_self.mpr fun e he => decide_eq_true (heq ▸
          (UInt32.ne_of_lt (hx e he)).symm)).symm
      · rename_i hne
        rw [ih hes, List.filter_cons_of_pos (by simpa using Ne.symm hne)]

theorem Entry.filter_erase {p : Entry → Bool} (hp : ∀ e ∈ es, e.number = number → p e = false) :
    (alter number (fun _ => none) es).filter p = es.filter p := by
  induction es with
  | nil => rfl
  | cons x es ih =>
    simp only [alter]
    split
    · rfl
    · split
      · rename_i heq
        have hx := hp x (by simp) heq.symm
        simp [hx]
      · simp [List.filter_cons, ih fun e he => hp e (by simp [he])]

namespace Options

def withoutAssignments (o : Options) : Options :=
  { o with message := o.message.erase Tag.uninterpreted.number }

theorem encode_withoutAssignments (o : Options) : o.withoutAssignments.encode = o.encode := by
  simp only [withoutAssignments, encode, Message.erase, Message.alter]
  rw [Entry.filter_erase (by simp +contextual), Entry.filter_erase (by simp +contextual)]

theorem FitsSlot.withoutAssignments {kind : OptionsKind} {o : Options}
    (h : o.FitsSlot ctx kind) : o.withoutAssignments.WellTyped ctx kind := by
  obtain ⟨hsorted, hall, hunknown⟩ := Message.wellTyped_iff.mp h.message_wellTyped
  have hentries : o.withoutAssignments.message.entries =
      o.message.entries.filter (·.number ≠ Tag.uninterpreted.number) := Entry.erase_eq hsorted
  have htyped : o.withoutAssignments.message.WellTyped ctx := by
    refine Message.wellTyped_iff.mpr ⟨?_, ?_, hunknown⟩
    · rw [hentries]
      exact hsorted.filter _
    · rw [hentries]
      exact fun e he => hall e (List.mem_filter.mp he).1
  refine ⟨⟨h.kind_eq, h.typeName_eq, htyped, h.unknown_ne, h.span_eq⟩, ?_⟩
  rw [StoresNoAssignment, hentries]
  exact fun e he => of_decide_eq_true (List.mem_filter.mp he).2

end Options

namespace FileDescriptor

/-- Whether a file can be written, and reading what was written gives the file. -/
def Survives (ctx : DecodeContext) (f : FileDescriptor) : Prop :=
  ∃ bytes, f.encode = .ok bytes ∧ decode ctx bytes = .ok f

def withoutAssignments (f : FileDescriptor) : FileDescriptor :=
  f.mapOptions (Option.map Options.withoutAssignments)

theorem encode_withoutAssignments (f : FileDescriptor) :
    f.withoutAssignments.encode = f.encode := by
  refine encode_mapOptions ?_ f
  intro number o?
  cases o? with
  | none => rfl
  | some o =>
    have hone : blocksM number Options.encode ([o].map .withoutAssignments) =
        blocksM number Options.encode [o] :=
      blocksM_map number fun o _ => o.encode_withoutAssignments
    exact hone

theorem survives_iff_optionsWellTyped {f : FileDescriptor}
    (hsize : ∀ bytes, f.encode = .ok bytes → Addressable bytes) :
    f.Survives ctx ↔ f.OptionsWellTyped ctx := by
  constructor
  · rintro ⟨bytes, hbytes, hdecode⟩
    have hfits : ∀ s ∈ f.slots, s.2.FitsSlot ctx s.1 :=
      decode_slots (fun _ _ _ ho => (Options.decode_fitsSlot ho).1) hdecode
    have htyped : f.withoutAssignments.OptionsWellTyped ctx := by
      intro s hs
      rw [withoutAssignments, slots_mapOptions] at hs
      obtain ⟨t, ht, rfl⟩ := List.mem_map.mp hs
      exact (hfits t ht).withoutAssignments
    obtain ⟨written, hwritten, hback⟩ := comesBack htyped
    -- Both files are written as the same bytes, so they are what these bytes are read as.
    rw [encode_withoutAssignments, hbytes] at hwritten
    cases hwritten
    have hsame := hback (hsize bytes hbytes)
    rw [hdecode] at hsame
    injection hsame with hsame
    rw [hsame]
    exact htyped
  · intro h
    obtain ⟨bytes, hbytes, hback⟩ := comesBack h
    exact ⟨bytes, hbytes, hback (hsize bytes hbytes)⟩

end FileDescriptor

end ProtobufSchema

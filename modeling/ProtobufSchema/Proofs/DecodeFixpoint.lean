import Mathlib.Data.List.Permutation
import ProtobufSchema.Proofs.DescriptorRoundTrip

/-! What was read from the wire, from whatever bytes, is well typed, and is written and read again
without a change. -/

namespace ProtobufSchema

open DecodeContext Wire FieldSequence OptionsKind

variable {ctx : DecodeContext} {bytes : Bytes} {w : WireField} {f : FileDescriptor}

/-- Every options type declares the waiting assignments, as messages of a repeated field. -/
def DecodeContext.DeclaresAssignments (ctx : DecodeContext) : Prop :=
  ∀ kind : OptionsKind, ∃ type f, ctx.types.message? kind.typeName = some type ∧
    type.fieldNumbered? Tag.uninterpreted.number.toInt32 = some f ∧ f.isRepeated = true ∧
    f.type? = some .message

theorem DecodeContext.DeclaresAssignments.consumes (h : ctx.DeclaresAssignments)
    (kind : OptionsKind) (hnumber : w.number = Tag.uninterpreted.number)
    (hw : w.isWaiting = false) : ctx.consumes kind.typeName w = false := by
  obtain ⟨type, f, htype, hf, _, hmessage⟩ := h kind
  have hfield : ctx.field? kind.typeName w.number = some f := by simp [field?, htype, hnumber, hf]
  have hkind : w.payload.wireType ≠ .lengthDelimited := by
    simpa [WireField.isWaiting, hnumber] using hw
  simp [DecodeContext.consumes, hfield, FieldDescriptor.takes, hmessage, FieldType.wireType, hkind]

namespace Message

variable {m : Message}

theorem decodeStep_effect {decode : String → Bytes → Except DecodeError Message}
    {m' : Message} (h : decodeStep ctx decode m w = .ok m') :
    m'.typeName = m.typeName ∧ ((ctx.consumes m.typeName w = false ∧ m' = m.appendUnknown w.raw) ∨
        (ctx.consumes m.typeName w = true ∧ m'.unknown = m.unknown ∧
          ∀ e ∈ m'.entries, e ∈ m.entries ∨ e.number = w.number)) := by
  cases hc : ctx.consumes m.typeName w with
  | false =>
    rw [decodeStep_unknown hc] at h
    cases h
    exact ⟨rfl, .inl ⟨rfl, rfl⟩⟩
  | true =>
    rcases decodeStep_cases h with ⟨hleft, _⟩ | ⟨f, s, vs, _, hgives, rfl⟩
    · rw [hc] at hleft
      cases hleft
    · obtain ⟨hname, hunknown⟩ := putAll_parts
      exact ⟨hname, .inr ⟨rfl, hunknown, fun _ he => hgives.number_eq ▸ mem_putAll he⟩⟩

/-- What is read comes from the fields of the bytes: the entries from those that are consumed, and
the unknown bytes from the others. -/
theorem decode_origin {typeName : String} {p : WireField → Prop}
    (hbytes : AreFields p bytes) (h : decode ctx typeName bytes = .ok m) :
    (∀ e ∈ m.entries, ∃ w, p w ∧ w.number = e.number ∧ ctx.consumes typeName w = true) ∧
      AreFields p m.unknown := by
  obtain ⟨hfailure, hfold⟩ := interpret_ok h
  have hp : ∀ w ∈ (ofBytes bytes).fields, p w := by
    have hconcat := ofReader_rest hfailure
    simp only [Reader.ofBytes] at hconcat
    rw [hconcat] at hbytes
    exact hbytes.forall (ofReader_complete _)
  have hinvariant := foldlM_invariant (P := fun m : Message => m.typeName = typeName ∧
      (∀ e ∈ m.entries, ∃ w, p w ∧ w.number = e.number ∧ ctx.consumes typeName w = true) ∧
      AreFields p m.unknown) ⟨rfl, by simp [empty], .nil⟩ ?_ hfold
  · exact hinvariant.2
  · rintro s w s' hw ⟨htype, hentries, hunknown⟩ hstep
    obtain ⟨hname, ⟨_, rfl⟩ | ⟨hconsumed, hkept, hmem⟩⟩ := decodeStep_effect hstep
    · have hcomplete := ofReader_complete _ w hw
      exact ⟨htype, hentries, hunknown.append_raw hcomplete (hp w hw)⟩
    · refine ⟨hname.trans htype, ?_, hkept ▸ hunknown⟩
      intro e he
      rcases hmem e he with he | he
      · exact hentries e he
      · exact ⟨w, hp w hw, he.symm, htype ▸ hconsumed⟩

end Message

theorem Options.splitStep_cases {s s' : List RawOption × Bytes} (h : splitStep s w = .ok s') :
    (w.isWaiting = false ∧ s' = (s.1, s.2 ++ w.raw)) ∨
      ∃ c raw, RawOption.decode c = .ok raw ∧ s' = (s.1 ++ [raw], s.2) := by
  unfold splitStep at h
  cases hp : w.payload with
  | lengthDelimited c =>
    simp only [hp] at h
    split at h
    · obtain ⟨raw, hraw, h⟩ := bind_eq_ok.mp h
      cases h
      exact .inr ⟨c, raw, hraw, rfl⟩
    · rename_i hne
      cases h
      exact .inl ⟨by simp [WireField.isWaiting, hne], rfl⟩
  | _ =>
    simp only [hp] at h
    cases h
    exact .inl ⟨by simp [WireField.isWaiting, hp, Payload.wireType], rfl⟩

theorem RawOption.decode_span {raw : RawOption} (h : decode bytes = .ok raw) : raw.span = none := by
  obtain ⟨_, hfold⟩ := interpret_ok h
  refine foldlM_invariant (P := fun o : RawOption => o.span = none) rfl ?_ hfold
  intro o w o' _ ho hstep
  simp only [decodeStep] at hstep
  split at hstep
  all_goals first
    | (cases hstep; exact ho)
    | (obtain ⟨_, _, hstep⟩ := bind_eq_ok.mp hstep; cases hstep; exact ho)

namespace Options

variable {kind : OptionsKind} {o : Options}

theorem split_ok {rest : Bytes} {raws : List RawOption} (h : split bytes = .ok (raws, rest)) :
    (∀ raw ∈ raws, raw.span = none) ∧ AreFields (fun w => w.isWaiting = false) rest := by
  obtain ⟨_, hfold⟩ := interpret_ok h
  refine foldlM_invariant (P := fun s : List RawOption × Bytes => (∀ raw ∈ s.1, raw.span = none) ∧
      AreFields (fun w => w.isWaiting = false) s.2) ⟨by simp, .nil⟩ ?_ hfold
  rintro s w s' hw ⟨hspans, hfields⟩ hstep
  rcases splitStep_cases hstep with ⟨hwaiting, rfl⟩ | ⟨c, raw, hraw, rfl⟩
  · exact ⟨hspans, hfields.append_raw (ofReader_complete _ w hw) hwaiting⟩
  · refine ⟨?_, hfields⟩
    intro x hx
    rcases List.mem_append.mp hx with hx | hx
    · exact hspans x hx
    · rw [List.mem_singleton.mp hx]
      exact RawOption.decode_span hraw

theorem decode_fitsSlot (h : decode ctx kind bytes = .ok o) :
    o.FitsSlot ctx kind ∧ ∀ e ∈ o.message.entries, ∃ w : WireField, w.isWaiting = false ∧
      w.number = e.number ∧ ctx.consumes kind.typeName w = true := by
  obtain ⟨⟨raws, rest⟩, hsplit, h⟩ := bind_eq_ok.mp h
  obtain ⟨m, hm, h⟩ := bind_eq_ok.mp h
  cases h
  obtain ⟨hspans, hrest⟩ := split_ok hsplit
  obtain ⟨hname, htyped⟩ := Message.decode_wellTyped hm
  obtain ⟨hentries, hunknown⟩ := Message.decode_origin hrest hm
  exact ⟨⟨rfl, hname, htyped, hunknown, hspans⟩, hentries⟩

theorem decode_wellTyped_options (hctx : ctx.DeclaresAssignments)
    (h : decode ctx kind bytes = .ok o) : o.WellTyped ctx kind := by
  obtain ⟨hfits, hentries⟩ := decode_fitsSlot h
  refine ⟨hfits, ?_⟩
  intro e he hnumber
  obtain ⟨w, hwaiting, hw, hconsumed⟩ := hentries e he
  have hleft := hctx.consumes kind (hw.trans hnumber) hwaiting
  rw [hconsumed] at hleft
  cases hleft

end Options

/-- After a step there are options that were there before, and options that have a property. -/
def Offers {σ : Type} (slots : σ → List (OptionsKind × Options)) (P : OptionsKind × Options → Prop)
    (s : σ) (x : Except DecodeError σ) : Prop :=
  ∀ s', x = .ok s' → ∀ o ∈ slots s', o ∈ slots s ∨ P o

section Offers

variable {σ α : Type} {slots : σ → List (OptionsKind × Options)} {P : OptionsKind × Options → Prop}
  {s : σ}

theorem Offers.same {s' : σ} (h : slots s' = slots s) : Offers slots P s (.ok s') := by
  rintro _ ⟨⟩ o ho
  exact .inl (h ▸ ho)

theorem Offers.read {x : Except DecodeError α} {f : α → σ}
    (h : ∀ a, x = .ok a → ∀ o ∈ slots (f a), o ∈ slots s ∨ P o) :
    Offers slots P s (do return f (← x)) := by
  intro s' hs'
  obtain ⟨a, ha, hs'⟩ := bind_eq_ok.mp hs'
  cases hs'
  exact h a ha

theorem reading_slots {init result : σ} {step : σ → WireField → Except DecodeError σ}
    (hinit : slots init = [])
    (hstep : ∀ s w, w.payload.content.length < bytes.length → Offers slots P s (step s w))
    (h : reading bytes init step = .ok result) : ∀ x ∈ slots result, P x := by
  obtain ⟨_, hfold⟩ := interpret_ok h
  refine foldlM_invariant (P := fun s => ∀ x ∈ slots s, P x) ?_ ?_ hfold
  · simp [hinit]
  · intro s w s' hw hs hs' x hx
    have hlt := ofReader_content _ w hw
    rcases hstep s w hlt s' hs' x hx with hx | hx
    · exact hs x hx
    · exact hx

end Offers

section Slots

variable {ctx : DecodeContext} {P : OptionsKind × Options → Prop}
  (hP : ∀ kind bytes o, Options.decode ctx kind bytes = .ok o → P (kind, o)) {bytes : Bytes}
include hP

theorem ExtensionRange.decode_slots {r : ExtensionRange} (h : decode ctx bytes = .ok r) :
    ∀ s ∈ r.slots, P s := by
  refine reading_slots rfl (fun r w _ => ?_) h
  unfold decodeStep
  split
  case h_3 => exact .read fun o ho => by simp [slots, slot, hP _ _ _ ho]
  all_goals exact .same rfl

theorem FieldDescriptor.decode_slots {f : FieldDescriptor} (h : decode ctx bytes = .ok f) :
    ∀ s ∈ f.slots, P s := by
  refine reading_slots rfl (fun f w _ => ?_) h
  unfold decodeStep
  split
  case h_8 => exact .read fun o ho => by simp [slots, slot, hP _ _ _ ho]
  all_goals first | exact .same rfl | exact .read fun _ _ _ => .inl

theorem OneofDescriptor.decode_slots {d : OneofDescriptor} (h : decode ctx bytes = .ok d) :
    ∀ s ∈ d.slots, P s := by
  refine reading_slots rfl (fun d w _ => ?_) h
  unfold decodeStep
  split
  case h_2 => exact .read fun o ho => by simp [slots, slot, hP _ _ _ ho]
  all_goals first | exact .same rfl | exact .read fun _ _ _ => .inl

theorem EnumValueDescriptor.decode_slots {v : EnumValueDescriptor} (h : decode ctx bytes = .ok v) :
    ∀ s ∈ v.slots, P s := by
  refine reading_slots rfl (fun v w _ => ?_) h
  unfold decodeStep
  split
  case h_3 => exact .read fun o ho => by simp [slots, slot, hP _ _ _ ho]
  all_goals first | exact .same rfl | exact .read fun _ _ _ => .inl

theorem MethodDescriptor.decode_slots {m : MethodDescriptor} (h : decode ctx bytes = .ok m) :
    ∀ s ∈ m.slots, P s := by
  refine reading_slots rfl (fun m w _ => ?_) h
  unfold decodeStep
  split
  case h_4 => exact .read fun o ho => by simp [slots, slot, hP _ _ _ ho]
  all_goals first | exact .same rfl | exact .read fun _ _ _ => .inl

theorem EnumDescriptor.decode_slots {e : EnumDescriptor} (h : decode ctx bytes = .ok e) :
    ∀ s ∈ e.slots, P s := by
  refine reading_slots rfl (fun e w _ => ?_) h
  unfold decodeStep
  split
  case h_2 =>
    exact .read fun _ hx => by have := EnumValueDescriptor.decode_slots hP hx; grind [slots]
  case h_3 => exact .read fun _ ho => by grind [slots, slot]
  all_goals first | exact .same rfl | exact .read fun _ _ _ => .inl

theorem ServiceDescriptor.decode_slots {s : ServiceDescriptor} (h : decode ctx bytes = .ok s) :
    ∀ x ∈ s.slots, P x := by
  refine reading_slots rfl (fun s w _ => ?_) h
  unfold decodeStep
  split
  case h_2 => exact .read fun _ hx => by have := MethodDescriptor.decode_slots hP hx; grind [slots]
  case h_3 => exact .read fun _ ho => by grind [slots, slot]
  all_goals first | exact .same rfl | exact .read fun _ _ _ => .inl

theorem MessageDescriptor.decode_slots {m : MessageDescriptor} (h : decode ctx bytes = .ok m) :
    ∀ s ∈ m.slots, P s := by
  induction hn : bytes.length using Nat.strong_induction_on generalizing bytes m with
  | _ n ih =>
    subst hn
    rw [decode_eq] at h
    refine reading_slots rfl (fun m w hlt => ?_) h
    unfold decodeStep
    split
    case h_2 | h_6 =>
      exact .read fun _ hx => by have := FieldDescriptor.decode_slots hP hx; grind [mem_slots]
    case h_3 c _ hc =>
      rw [hc] at hlt
      exact .read fun _ hx => by have := ih _ hlt hx rfl; grind [mem_slots]
    case h_4 =>
      exact .read fun _ hx => by have := EnumDescriptor.decode_slots hP hx; grind [mem_slots]
    case h_5 =>
      exact .read fun _ hx => by have := ExtensionRange.decode_slots hP hx; grind [mem_slots]
    case h_7 => exact .read fun _ ho => by grind [mem_slots, slot]
    case h_8 =>
      exact .read fun _ hx => by have := OneofDescriptor.decode_slots hP hx; grind [mem_slots]
    all_goals cases m; first | exact .same rfl | exact .read fun _ _ _ => .inl

theorem FileDescriptor.decode_slots (h : decode ctx bytes = .ok f) : ∀ s ∈ f.slots, P s := by
  refine reading_slots rfl (fun f w _ => ?_) h
  unfold decodeStep
  split
  case h_4 =>
    exact .read fun _ hx => by have := MessageDescriptor.decode_slots hP hx; grind [mem_slots]
  case h_5 =>
    exact .read fun _ hx => by have := EnumDescriptor.decode_slots hP hx; grind [mem_slots]
  case h_6 =>
    exact .read fun _ hx => by have := ServiceDescriptor.decode_slots hP hx; grind [mem_slots]
  case h_7 =>
    exact .read fun _ hx => by have := FieldDescriptor.decode_slots hP hx; grind [mem_slots]
  case h_8 => exact .read fun _ ho => by grind [mem_slots, slot]
  all_goals first | exact .same rfl | exact .read fun _ _ _ => .inl

end Slots

theorem FileDescriptor.decode_optionsWellTyped (hctx : ctx.DeclaresAssignments)
    (h : decode ctx bytes = .ok f) : f.OptionsWellTyped ctx :=
  decode_slots (fun _ _ _ ho => Options.decode_wellTyped_options hctx ho) h

/-- What was read can be written, and is then read again as it was. -/
theorem reencode_fixpoint (ctx : DecodeContext) :
    (∀ typeName bytes m, Message.decode ctx typeName bytes = .ok m →
      ∃ written, m.encode = .ok written ∧
        (Addressable written → Message.decode ctx typeName written = .ok m)) ∧
    (ctx.DeclaresAssignments → ∀ bytes f, FileDescriptor.decode ctx bytes = .ok f →
      ∃ written, f.encode = .ok written ∧
        (Addressable written → FileDescriptor.decode ctx written = .ok f)) := by
  constructor
  · intro typeName bytes m h
    obtain ⟨rfl, htyped⟩ := Message.decode_wellTyped h
    obtain ⟨written, hwritten, hcarries⟩ := Message.returns_of_wellTyped htyped
    refine ⟨written, hwritten, ?_⟩
    intro hsize
    exact Message.Returns.decode (hcarries hsize) hsize
  · intro hctx bytes f h
    exact FileDescriptor.comesBack (FileDescriptor.decode_optionsWellTyped hctx h)

def assignmentContext : DecodeContext where
  types :=
    { message? := fun _ => some (.mk none
        [{ number? := some 1, label? := some .repeated, type? := some .sint32 },
         { number? := some 2, type? := some .bool },
         { number? := some 999, label? := some .repeated, type? := some .message }]
        [] [] [] [] [] none [] [])
      enum? := fun _ => none
      extension? := fun _ => none }
  extensions? := none

/-- Numbers with a needless digit, alone and in a run, a flag that is set twice, a field of another
kind than declared and one that nothing explains, in no order. -/
def looseBytes : Bytes := [8, 130, 0, 72, 1, 10, 2, 4, 6, 16, 1, 16, 0, 21, 0, 0, 0, 0]

def looseMessage : Message :=
  ⟨"T", [⟨1, .sint32, false, .list [.int32 1, .int32 2, .int32 3]⟩, ⟨2, .bool, false, .bool false⟩],
    [72, 1, 21, 0, 0, 0, 0]⟩

def looseOptionsBytes : Bytes := [16, 1, 184, 62, 1, 186, 62, 0, 8, 130, 0]

def looseOptions : Options where
  kind := .file
  message :=
    ⟨"google.protobuf.FileOptions",
      [⟨1, .sint32, false, .list [.int32 1]⟩, ⟨2, .bool, false, .bool true⟩], [184, 62, 1]⟩
  uninterpreted := [{}]

def looseFileBytes : Bytes := 66 :: 11 :: (looseOptionsBytes ++ [10, 1, 102])

def looseFile : FileDescriptor where
  name? := some "f"
  options := some looseOptions

set_option maxRecDepth 1000 in
theorem looseFile_decode :
    FileDescriptor.decode assignmentContext looseFileBytes = .ok looseFile := by
  have hfields : ofBytes looseFileBytes =
      ⟨[⟨8, .lengthDelimited looseOptionsBytes, 66 :: 11 :: looseOptionsBytes⟩,
        ⟨1, .lengthDelimited [102], [10, 1, 102]⟩], none⟩ := by cbv
  have hsplit : Options.split looseOptionsBytes = .ok ([{}], [16, 1, 184, 62, 1, 8, 130, 0]) := by
    cbv
  have hmessage : Message.decode assignmentContext "google.protobuf.FileOptions"
      [16, 1, 184, 62, 1, 8, 130, 0] = .ok ⟨"google.protobuf.FileOptions",
        [⟨1, .sint32, false, .list [.int32 1]⟩, ⟨2, .bool, false, .bool true⟩], [184, 62, 1]⟩ := by
    cbv
  have hname : file.typeName = "google.protobuf.FileOptions" := rfl
  have hoptions : Options.decode assignmentContext .file looseOptionsBytes = .ok looseOptions := by
    unfold Options.decode
    rw [hsplit, hname]
    change (do return Options.mk .file (← Message.decode assignmentContext _ _) _) = _
    rw [hmessage]
    rfl
  have hstep (raw : Bytes) : FileDescriptor.decodeStep assignmentContext {}
      ⟨8, .lengthDelimited looseOptionsBytes, raw⟩ = (do
        return { options := some (← Options.decode assignmentContext .file looseOptionsBytes) }) :=
    rfl
  rw [FileDescriptor.decode, reading, hfields, interpret_fields, List.foldlM_cons, hstep, hoptions]
  rfl

theorem reencode_fixpoint_loose :
    Message.decode assignmentContext "T" looseBytes = .ok looseMessage ∧
      (∃ written, looseMessage.encode = .ok written ∧
        Message.decode assignmentContext "T" written = .ok looseMessage) ∧
      assignmentContext.DeclaresAssignments ∧
      FileDescriptor.decode assignmentContext looseFileBytes = .ok looseFile ∧
      ∃ written, looseFile.encode = .ok written ∧
        FileDescriptor.decode assignmentContext written = .ok looseFile := by
  have hmessage : Message.decode assignmentContext "T" looseBytes = .ok looseMessage := by cbv
  have hctx : assignmentContext.DeclaresAssignments := fun _ => ⟨_, _, rfl, rfl, rfl, rfl⟩
  obtain ⟨written, hwritten, hdecode⟩ := (reencode_fixpoint assignmentContext).1 _ _ _ hmessage
  obtain ⟨writtenFile, hwrittenFile, hdecodeFile⟩ :=
    (reencode_fixpoint assignmentContext).2 hctx _ _ looseFile_decode
  have hbytes : looseMessage.encode =
      .ok [8, 2, 8, 4, 8, 6, 16, 0, 72, 1, 21, 0, 0, 0, 0] := rfl
  have hfileBytes : looseFile.encode =
      .ok [10, 1, 102, 66, 10, 8, 2, 16, 1, 186, 62, 0, 184, 62, 1] := rfl
  rw [hbytes] at hwritten
  rw [hfileBytes] at hwrittenFile
  cases hwritten
  cases hwrittenFile
  exact ⟨hmessage, ⟨_, hbytes, hdecode (by decide)⟩, hctx, looseFile_decode, _, hfileBytes,
    hdecodeFile (by decide)⟩

end ProtobufSchema

import ProtobufSchema.Descriptor.Decode
import ProtobufSchema.Proofs.MessageRoundTrip
import ProtobufSchema.Proofs.OptionSlots

/-! Descriptors whose options are well typed are read back as they were, property by property. -/

namespace ProtobufSchema

open List DecodeContext

variable {bytes : Bytes}

namespace Wire

variable {α β σ : Type} {step : σ → WireField → Except DecodeError σ}

inductive Holds (kind : β → Payload) (read : β → Except DecodeError α) (number : UInt32) :
    Bytes → List α → Prop where
  | nil : Holds kind read number [] []
  | cons {raw rest : Bytes} {x : α} {xs : List α} (content : β)
      (head : Addressable raw →
        (WireField.mk number (kind content) raw).IsComplete ∧ read content = .ok x)
      (tail : Holds kind read number rest xs) : Holds kind read number (raw ++ rest) (x :: xs)

theorem Holds.single {kind : β → Payload} {read : β → Except DecodeError α} {number : UInt32}
    {raw : Bytes} {x : α} (content : β)
    (h : Addressable raw → (WireField.mk number (kind content) raw).IsComplete ∧
      read content = .ok x) : Holds kind read number raw [x] := by
  have hcons := cons content h .nil
  rwa [append_nil] at hcons

/-- Bytes that, if they have offsets, take a reader from a state to another. -/
def Feeds (step : σ → WireField → Except DecodeError σ) (bytes : Bytes) (s s' : σ) : Prop :=
  Addressable bytes → Carries (fun _ => True) step bytes s s'

namespace Feeds

theorem nil (s : σ) : Feeds step [] s s := fun _ => .nil s

theorem append {more : Bytes} {s s' s'' : σ} (h : Feeds step bytes s s')
    (h' : Feeds step more s' s'') : Feeds step (bytes ++ more) s s'' := by
  intro hsize
  exact (h hsize.left).append (h' hsize.right)

theorem of_append_nil {s s' : σ} (h : Feeds step (bytes ++ []) s s') : Feeds step bytes s s' := by
  rwa [append_nil] at h

theorem reading {s s' : σ} (h : Feeds step bytes s s')
    (hsize : Addressable bytes) : reading bytes s step = .ok s' :=
  (h hsize).interpret hsize

variable {kind : β → Payload} {read : β → Except DecodeError α} {number : UInt32}
  {bytes rest : Bytes} {s s' : σ}

theorem list {xs : List α} (h : Holds kind read number bytes xs) (put : σ → List α → σ)
    (hput : put s [] = s)
    (hstep : (fun ys c raw => step (put s ys) ⟨number, kind c, raw⟩) =
      fun ys c _ => do return put s (ys ++ [← read c]))
    (hrest : Feeds step rest (put s xs) s') : Feeds step (bytes ++ rest) s s' := by
  have grow : ∀ {bytes xs}, Holds kind read number bytes xs → ∀ ys,
      Feeds step bytes (put s ys) (put s (ys ++ xs)) := by
    intro bytes xs h
    induction h with
    | nil =>
      intro ys
      rw [append_nil]
      exact nil _
    | @cons raw rest x xs c head _ ih =>
      intro ys
      have hhead : Feeds step raw (put s ys) (put s (ys ++ [x])) := by
        intro hsize
        obtain ⟨hcomplete, hread⟩ := head hsize
        refine .single hcomplete trivial ((congrFun (congrFun (congrFun hstep ys) c) raw).trans ?_)
        rw [hread]
        rfl
      have htail := ih (ys ++ [x])
      rw [append_assoc] at htail
      exact hhead.append htail
  have hall := grow h []
  rw [hput] at hall
  exact hall.append hrest

theorem option {x? : Option α} (h : Holds kind read number bytes x?.toList) (put : σ → Option α → σ)
    (hput : put s none = s)
    (hstep : (fun c raw => step s ⟨number, kind c, raw⟩) =
      fun c _ => do return put s (some (← read c)))
    (hrest : Feeds step rest (put s x?) s') : Feeds step (bytes ++ rest) s s' := by
  refine append ?_ hrest
  cases x? with
  | none =>
    cases h
    rw [hput]
    exact nil s
  | some x =>
    intro hsize
    cases h with
    | cons content head tail =>
      cases tail
      rw [append_nil] at hsize ⊢
      obtain ⟨hcomplete, hread⟩ := head hsize
      refine .single hcomplete trivial ((congrFun (congrFun hstep content) _).trans ?_)
      rw [hread]
      rfl

end Feeds

def ComesBack (encode : α → Except EncodeError Bytes) (decode : Bytes → Except DecodeError α)
    (x : α) : Prop :=
  ∃ bytes, encode x = .ok bytes ∧ (Addressable bytes → decode bytes = .ok x)

section Writers

variable {number : UInt32}

theorem blocks_holds (hnumber : number != 0) {encode : α → Bytes}
    {decode : Bytes → Except DecodeError α} {xs : List α}
    (h : ∀ x ∈ xs, Addressable (encode x) → decode (encode x) = .ok x) :
    Holds .lengthDelimited decode number (blocks number encode xs) xs := by
  induction xs with
  | nil => exact .nil
  | cons x xs ih =>
    refine .cons (encode x) ?_ (ih fun y hy => h y (by simp [hy]))
    intro hsize
    exact ⟨WireField.isComplete_block (bne_iff_ne.mp hnumber) hsize, h x (by simp) (.right hsize)⟩

theorem blocksM_holds (number : UInt32) (hnumber : number != 0)
    {encode : α → Except EncodeError Bytes} {decode : Bytes → Except DecodeError α} {xs : List α}
    (h : ∀ x ∈ xs, ComesBack encode decode x) :
    ∃ bytes, blocksM number encode xs = .ok bytes ∧
      Holds .lengthDelimited decode number bytes xs := by
  induction xs with
  | nil => exact ⟨[], rfl, .nil⟩
  | cons x xs ih =>
    obtain ⟨head, hhead, hread⟩ := h x (by simp)
    obtain ⟨tail, htail, hholds⟩ := ih fun y hy => h y (by simp [hy])
    refine ⟨block number head ++ tail, ?_, .cons head ?_ hholds⟩
    · simp only [blocksM, hhead, htail]
      rfl
    · intro hsize
      exact ⟨WireField.isComplete_block (bne_iff_ne.mp hnumber) hsize, hread (.right hsize)⟩

theorem text_encode (number : UInt32) (s : String) : Read.text number (Utf8.encode s) = .ok s := by
  rw [Read.text, Utf8.decode?_encode]

variable (hnumber : number != 0)
include hnumber

theorem textFields_holds (xs : List String) :
    Holds .lengthDelimited (Read.text number) number (textFields number xs) xs :=
  blocks_holds hnumber fun s _ _ => text_encode number s

theorem textField_holds (s? : Option String) :
    Holds .lengthDelimited (Read.text number) number (textField number s?) s?.toList := by
  have hall := textFields_holds hnumber s?.toList
  cases s? with
  | none => exact hall
  | some s => simpa [textFields, textField] using hall

theorem varintField_holds {read : UInt64 → Except DecodeError α}
    {write : α → UInt64} (h : ∀ x, read (write x) = .ok x) (x? : Option α) :
    Holds .varint read number (varintField number (x?.map write)) x?.toList := by
  cases x? with
  | none => exact .nil
  | some x =>
    refine .single (write x) ?_
    intro hsize
    exact ⟨WireField.isComplete_plain (bne_iff_ne.mp hnumber) (Read.isPlain_varint number _) hsize,
      h x⟩

theorem int32Field_holds (v? : Option Int32) :
    Holds .varint (fun v => .ok (int32Of v)) number (int32Field number v?) v?.toList :=
  varintField_holds hnumber (by simp [int32Of]) v?

theorem int32Fields_holds (vs : List Int32) :
    Holds .varint (fun v => .ok (int32Of v)) number (int32Fields number vs) vs := by
  induction vs with
  | nil => exact .nil
  | cons v vs ih =>
    refine .cons (signExtended v) (fun hsize => ⟨?_, ?_⟩) ih
    · exact WireField.isComplete_plain (bne_iff_ne.mp hnumber) (Read.isPlain_varint number _) hsize
    · simp [int32Of]

theorem boolField_holds (b? : Option Bool) :
    Holds .varint (fun v => .ok (v != 0)) number (boolField number b?) b?.toList :=
  varintField_holds hnumber (by decide) b?

theorem labelField_holds (l? : Option Label) :
    Holds .varint label number (int32Field number (l?.map Label.number)) l?.toList := by
  have hread : ∀ l : Label, label (signExtended l.number) = .ok l := by
    intro l
    cases l <;> rfl
  rw [int32Field, Option.map_map]
  exact varintField_holds hnumber hread l?

theorem typeField_holds (t? : Option FieldType) :
    Holds .varint fieldType number (int32Field number (t?.map FieldType.number)) t?.toList := by
  have hread : ∀ t : FieldType, fieldType (signExtended t.number) = .ok t := by
    intro t
    cases t <;> rfl
  rw [int32Field, Option.map_map]
  exact varintField_holds hnumber hread t?

end Writers

end Wire

open Wire

theorem NamePart.decode_encode_part (part : NamePart) (hsize : Addressable part.encode) :
    decode part.encode = .ok part := by
  refine Feeds.reading (.of_append_nil ?_) hsize
  simp only [encode, append_assoc]
  refine .option (textField_holds rfl (some part.name)) (fun p x => { p with name := x.getD "" })
    rfl rfl ?_
  refine .option (boolField_holds rfl (some part.isExtension))
    (fun p x => { p with isExtension := x.getD false }) rfl rfl ?_
  exact .nil _

theorem RawOption.decode_encode_raw {raw : RawOption} (h : raw.span = none)
    (hsize : Addressable raw.encode) : decode raw.encode = .ok raw := by
  refine Feeds.reading (.of_append_nil ?_) hsize
  simp only [encode, append_assoc]
  have hdouble : Holds .fixed64 (fun v => .ok (.mk v)) 6
      (raw.double.elim [] fun v => key 6 .fixed64 ++ word64 v.bits) raw.double.toList := by
    cases raw.double with
    | none => exact .nil
    | some v =>
      refine .single v.bits fun hsize => ⟨?_, rfl⟩
      exact WireField.isComplete_plain (by decide) (Read.isPlain_fixed64 6 v.bits) hsize
  have hstring : Holds .lengthDelimited .ok 7 (raw.string.elim [] fun bs => block 7 bs)
      raw.string.toList := by
    cases raw.string with
    | none => exact .nil
    | some bs => exact .single bs fun hsize => ⟨WireField.isComplete_block (by decide) hsize, rfl⟩
  have hpositive : Holds .varint .ok 4 (varintField 4 (raw.positiveInt.map id))
      raw.positiveInt.toList := varintField_holds rfl (fun _ => rfl) raw.positiveInt
  rw [Option.map_id] at hpositive
  have hnegative : Holds .varint (fun v => .ok v.toInt64) 5
      (varintField 5 (raw.negativeInt.map Int64.toUInt64)) raw.negativeInt.toList :=
    varintField_holds rfl (by simp) raw.negativeInt
  refine .list (blocks_holds rfl fun part _ => part.decode_encode_part)
    (fun o x => { o with name := x }) rfl rfl ?_
  refine .option (textField_holds rfl raw.identifier) (fun o x => { o with identifier := x })
    rfl rfl ?_
  refine .option hpositive (fun o x => { o with positiveInt := x }) rfl rfl ?_
  refine .option hnegative (fun o x => { o with negativeInt := x }) rfl rfl ?_
  refine .option hdouble (fun o x => { o with double := x }) rfl rfl ?_
  refine .option hstring (fun o x => { o with string := x }) rfl rfl ?_
  refine .option (textField_holds rfl raw.aggregate) (fun o x => { o with aggregate := x })
    rfl rfl ?_
  obtain ⟨name, identifier, positive, negative, double, string, aggregate, span⟩ := raw
  cases h
  exact .nil _

theorem Entry.filter_append {n : UInt32} {es : List Entry}
    (hsorted : es.Pairwise fun a b => a.number < b.number) (hne : ∀ e ∈ es, e.number ≠ n) :
    es.filter (·.number < n) ++ es.filter (n < ·.number) = es := by
  induction es with
  | nil => rfl
  | cons e es ih =>
    obtain ⟨he, hes⟩ := pairwise_cons.mp hsorted
    have htail := ih hes fun x hx => hne x (by simp [hx])
    by_cases hlt : e.number < n
    · have hnot : ¬ n < e.number := UInt32.lt_asymm hlt
      simp [hlt, hnot, htail]
    · have hgt : n < e.number := UInt32.lt_of_le_of_ne (UInt32.not_lt.mp hlt) (hne e (by simp)).symm
      -- All that follows is higher still.
      have hlow : es.filter (·.number < n) = [] := by
        rw [filter_eq_nil_iff]
        intro x hx
        have := UInt32.lt_asymm (UInt32.lt_trans hgt (he x hx))
        simpa using this
      rw [hlow, nil_append] at htail
      simp [hlt, hgt, hlow, htail]

namespace Options

variable {ctx : DecodeContext} {kind : OptionsKind}
variable {o : Options}

theorem split_other (s : List RawOption × Bytes)
    (h : Addressable bytes → AreFields (fun w => w.isWaiting = false) bytes) :
    Feeds splitStep bytes s (s.1, s.2 ++ bytes) := by
  intro hsize
  obtain ⟨ws, rfl, hws⟩ := h hsize
  refine ⟨ws, rfl, fun w hw => ⟨(hws w hw).1, trivial⟩, ?_⟩
  clear h hsize
  induction ws generalizing s with
  | nil => simp [pure, Except.pure]
  | cons w ws ih =>
    have hstep : splitStep s w = .ok (s.1, s.2 ++ w.raw) := by
      have hw := (hws w (by simp)).2
      cases hp : w.payload with
      | lengthDelimited c =>
        have hne : w.number ≠ Tag.uninterpreted.number := by
          simpa [WireField.isWaiting, hp, Payload.wireType] using hw
        simp only [splitStep, hp, if_neg hne]
        rfl
      | _ =>
        simp only [splitStep, hp]
        rfl
    rw [foldlM_cons, hstep]
    simpa [bind, Except.bind] using ih (s.1, s.2 ++ w.raw) fun x hx => hws x (by simp [hx])

theorem encode_parts (h : o.WellTyped ctx kind) : ∃ low high,
      o.encode = .ok (low ++ blocks Tag.uninterpreted.number RawOption.encode o.uninterpreted ++
        high ++ o.message.unknown) ∧
      o.message.encode = .ok (low ++ high ++ o.message.unknown) ∧
      (Addressable low → AreFields (fun w => w.isWaiting = false) low) ∧
      (Addressable high → AreFields (fun w => w.isWaiting = false) high) := by
  obtain ⟨hsorted, hall, _⟩ := Message.wellTyped_iff.mp h.message_wellTyped
  have part {es : List Entry} (hes : es.Sublist o.message.entries) :
        ∃ bytes, Entry.encodeAll es = .ok bytes ∧
        (Addressable bytes → AreFields (fun w => w.isWaiting = false) bytes) := by
    obtain ⟨bytes, hbytes, hfields⟩ := Entry.encodeAll_fields
      (fun e he => hall e (hes.subset he)) (hsorted.sublist hes)
    refine ⟨bytes, hbytes, ?_⟩
    intro hsize
    obtain ⟨ws, rfl, hws⟩ := hfields hsize
    refine ⟨ws, rfl, fun w hw => ⟨(hws w hw).1, ?_⟩⟩
    obtain ⟨e, he, hnumber⟩ := (hws w hw).2
    simp [WireField.isWaiting, hnumber, h.entries_ne e (hes.subset he)]
  obtain ⟨low, hlow, hlowFields⟩ :=
    part (filter_sublist (p := fun e => e.number < Tag.uninterpreted.number))
  obtain ⟨high, hhigh, hhighFields⟩ := part
    (filter_sublist (p := fun e => Tag.uninterpreted.number < e.number))
  refine ⟨low, high, ?_, ?_, hlowFields, hhighFields⟩
  · simp only [encode, hlow, hhigh]
    rfl
  · have hknown : Entry.encodeAll o.message.entries = .ok (low ++ high) := by
      rw [← Entry.filter_append hsorted h.entries_ne, Entry.encodeAll_append, hlow, hhigh]
      rfl
    cases hm : o.message with
    | mk typeName entries unknown =>
      rw [hm] at hknown
      simp only [Message.encode, hknown]
      rfl

theorem comesBack (h : o.WellTyped ctx kind) : ComesBack encode (decode ctx kind) o := by
  obtain ⟨low, high, hencode, hmessage, hlow, hhigh⟩ := encode_parts h
  refine ⟨_, hencode, ?_⟩
  intro hsize
  have hraws : Holds .lengthDelimited RawOption.decode Tag.uninterpreted.number
      (blocks Tag.uninterpreted.number RawOption.encode o.uninterpreted) o.uninterpreted :=
    blocks_holds rfl fun raw hraw => RawOption.decode_encode_raw (h.span_eq raw hraw)
  have hsplit : split (low ++ blocks Tag.uninterpreted.number RawOption.encode o.uninterpreted ++
      high ++ o.message.unknown) = .ok (o.uninterpreted, low ++ high ++ o.message.unknown) := by
    refine Feeds.reading ?_ hsize
    rw [append_assoc, append_assoc]
    refine (split_other ([], []) hlow).append ?_
    refine .list hraws (fun s raws => (raws, s.2)) rfl rfl ?_
    refine (split_other _ hhigh).append ?_
    exact split_other _ fun _ => h.unknown_ne
  have hrest : Addressable (low ++ high ++ o.message.unknown) := by
    simp only [Addressable, length_append] at hsize ⊢
    omega
  obtain ⟨bytes, hbytes, hcarries⟩ := Message.returns_of_wellTyped h.message_wellTyped
  rw [hmessage] at hbytes
  cases hbytes
  have hdecode := Message.Returns.decode (hcarries hrest) hrest
  rw [h.typeName_eq] at hdecode
  rw [decode, hsplit]
  simp only [bind, Except.bind, hdecode]
  rw [← h.kind_eq]
  rfl

theorem encodeField_holds (number : UInt32) (hnumber : number != 0) {o? : Option Options}
    (h : ∀ s ∈ kind.slot o?, s.2.WellTyped ctx s.1) :
    ∃ bytes, encodeField number o? = .ok bytes ∧
      Holds .lengthDelimited (decode ctx kind) number bytes o?.toList := by
  refine blocksM_holds number hnumber ?_
  intro o ho
  exact comesBack (h (kind, o) (mem_map_of_mem ho))

end Options

theorem ReservedRange.decode_encode_range (r : ReservedRange) (hsize : Addressable r.encode) :
    decode r.encode = .ok r := by
  refine Feeds.reading (.of_append_nil ?_) hsize
  simp only [encode, append_assoc]
  refine .option (int32Field_holds rfl r.start?) (fun r x => { r with start? := x }) rfl rfl ?_
  refine .option (int32Field_holds rfl r.stop?) (fun r x => { r with stop? := x }) rfl rfl ?_
  exact .nil _

section Descriptors

variable {ctx : DecodeContext}

theorem ExtensionRange.comesBack {r : ExtensionRange}
    (h : ∀ s ∈ r.slots, s.2.WellTyped ctx s.1) : ComesBack encode (decode ctx) r := by
  obtain ⟨options, hoptions, hholds⟩ := Options.encodeField_holds 3 rfl h
  refine ⟨int32Field 1 r.start? ++ int32Field 2 r.stop? ++ options, ?_, ?_⟩
  · simp only [encode, hoptions]
    rfl
  · refine Feeds.reading (.of_append_nil ?_)
    simp only [append_assoc]
    refine .option (int32Field_holds rfl r.start?) (fun r x => { r with start? := x }) rfl rfl ?_
    refine .option (int32Field_holds rfl r.stop?) (fun r x => { r with stop? := x }) rfl rfl ?_
    refine .option hholds (fun r x => { r with options := x }) rfl rfl ?_
    exact .nil _

theorem FieldDescriptor.comesBack {f : FieldDescriptor}
    (h : ∀ s ∈ f.slots, s.2.WellTyped ctx s.1) : ComesBack encode (decode ctx) f := by
  obtain ⟨options, hoptions, hholds⟩ := Options.encodeField_holds 8 rfl h
  refine ⟨_, by rw [encode, hoptions]; rfl, ?_⟩
  refine Feeds.reading (.of_append_nil ?_)
  simp only [append_assoc]
  refine .option (textField_holds rfl f.name?) (fun f x => { f with name? := x }) rfl rfl ?_
  refine .option (textField_holds rfl f.extendee?) (fun f x => { f with extendee? := x }) rfl rfl ?_
  refine .option (int32Field_holds rfl f.number?) (fun f x => { f with number? := x }) rfl rfl ?_
  refine .option (labelField_holds rfl f.label?) (fun f x => { f with label? := x }) rfl rfl ?_
  refine .option (typeField_holds rfl f.type?) (fun f x => { f with type? := x }) rfl rfl ?_
  refine .option (textField_holds rfl f.typeName?) (fun f x => { f with typeName? := x }) rfl rfl ?_
  refine .option (textField_holds rfl f.defaultValue?) (fun f x => { f with defaultValue? := x })
    rfl rfl ?_
  refine .option hholds (fun f x => { f with options := x }) rfl rfl ?_
  refine .option (int32Field_holds rfl f.oneofIndex?) (fun f x => { f with oneofIndex? := x })
    rfl rfl ?_
  refine .option (textField_holds rfl f.jsonName?) (fun f x => { f with jsonName? := x }) rfl rfl ?_
  refine .option (boolField_holds rfl f.proto3Optional?)
    (fun f x => { f with proto3Optional? := x }) rfl rfl ?_
  exact .nil _

theorem OneofDescriptor.comesBack {o : OneofDescriptor}
    (h : ∀ s ∈ o.slots, s.2.WellTyped ctx s.1) : ComesBack encode (decode ctx) o := by
  obtain ⟨options, hoptions, hholds⟩ := Options.encodeField_holds 2 rfl h
  refine ⟨_, by rw [encode, hoptions]; rfl, ?_⟩
  refine Feeds.reading (.of_append_nil ?_)
  simp only [append_assoc]
  refine .option (textField_holds rfl o.name?) (fun o x => { o with name? := x }) rfl rfl ?_
  refine .option hholds (fun o x => { o with options := x }) rfl rfl ?_
  exact .nil _

theorem EnumValueDescriptor.comesBack {v : EnumValueDescriptor}
    (h : ∀ s ∈ v.slots, s.2.WellTyped ctx s.1) : ComesBack encode (decode ctx) v := by
  obtain ⟨options, hoptions, hholds⟩ := Options.encodeField_holds 3 rfl h
  refine ⟨_, by rw [encode, hoptions]; rfl, ?_⟩
  refine Feeds.reading (.of_append_nil ?_)
  simp only [append_assoc]
  refine .option (textField_holds rfl v.name?) (fun v x => { v with name? := x }) rfl rfl ?_
  refine .option (int32Field_holds rfl v.number?) (fun v x => { v with number? := x }) rfl rfl ?_
  refine .option hholds (fun v x => { v with options := x }) rfl rfl ?_
  exact .nil _

theorem EnumDescriptor.comesBack {e : EnumDescriptor}
    (h : ∀ s ∈ e.slots, s.2.WellTyped ctx s.1) : ComesBack encode (decode ctx) e := by
  simp only [slots, forall_mem_append, forall_mem_flatMap] at h
  obtain ⟨values, hvalues, hvaluesHold⟩ := blocksM_holds 2 rfl fun v hv =>
    EnumValueDescriptor.comesBack (h.2 v hv)
  obtain ⟨options, hoptions, hholds⟩ := Options.encodeField_holds 3 rfl h.1
  refine ⟨_, by rw [encode, hvalues, hoptions]; rfl, ?_⟩
  refine Feeds.reading (.of_append_nil ?_)
  simp only [append_assoc]
  refine .option (textField_holds rfl e.name?) (fun e x => { e with name? := x }) rfl rfl ?_
  refine .list hvaluesHold (fun e x => { e with values := x }) rfl rfl ?_
  refine .option hholds (fun e x => { e with options := x }) rfl rfl ?_
  refine .list (blocks_holds rfl fun r _ => r.decode_encode_range)
    (fun e x => { e with reservedRanges := x }) rfl rfl ?_
  refine .list (textFields_holds rfl e.reservedNames) (fun e x => { e with reservedNames := x })
    rfl rfl ?_
  exact .nil _

theorem MethodDescriptor.comesBack {m : MethodDescriptor}
    (h : ∀ s ∈ m.slots, s.2.WellTyped ctx s.1) : ComesBack encode (decode ctx) m := by
  obtain ⟨options, hoptions, hholds⟩ := Options.encodeField_holds 4 rfl h
  refine ⟨_, by rw [encode, hoptions]; rfl, ?_⟩
  refine Feeds.reading (.of_append_nil ?_)
  simp only [append_assoc]
  refine .option (textField_holds rfl m.name?) (fun m x => { m with name? := x }) rfl rfl ?_
  refine .option (textField_holds rfl m.inputType?) (fun m x => { m with inputType? := x })
    rfl rfl ?_
  refine .option (textField_holds rfl m.outputType?) (fun m x => { m with outputType? := x })
    rfl rfl ?_
  refine .option hholds (fun m x => { m with options := x }) rfl rfl ?_
  refine .option (boolField_holds rfl m.clientStreaming?)
    (fun m x => { m with clientStreaming? := x }) rfl rfl ?_
  refine .option (boolField_holds rfl m.serverStreaming?)
    (fun m x => { m with serverStreaming? := x }) rfl rfl ?_
  exact .nil _

theorem ServiceDescriptor.comesBack {s : ServiceDescriptor}
    (h : ∀ x ∈ s.slots, x.2.WellTyped ctx x.1) : ComesBack encode (decode ctx) s := by
  simp only [slots, forall_mem_append, forall_mem_flatMap] at h
  obtain ⟨methods, hmethods, hmethodsHold⟩ := blocksM_holds 2 rfl fun m hm =>
    MethodDescriptor.comesBack (h.2 m hm)
  obtain ⟨options, hoptions, hholds⟩ := Options.encodeField_holds 3 rfl h.1
  refine ⟨_, by rw [encode, hmethods, hoptions]; rfl, ?_⟩
  refine Feeds.reading (.of_append_nil ?_)
  simp only [append_assoc]
  refine .option (textField_holds rfl s.name?) (fun s x => { s with name? := x }) rfl rfl ?_
  refine .list hmethodsHold (fun s x => { s with methods := x }) rfl rfl ?_
  refine .option hholds (fun s x => { s with options := x }) rfl rfl ?_
  exact .nil _

namespace MessageDescriptor

theorem encodeNested_eq (ms : List MessageDescriptor) : encodeNested ms = blocksM 3 encode ms := by
  induction ms with
  | nil => rfl
  | cons m ms ih => rw [encodeNested, blocksM, ih]

theorem decodeStep_congr {decode decode' : Bytes → Except DecodeError MessageDescriptor}
    {w : WireField} (h : decode w.payload.content = decode' w.payload.content)
    (m : MessageDescriptor) : decodeStep ctx decode m w = decodeStep ctx decode' m w := by
  simp only [decodeStep]
  split
  case h_3 c _ hc =>
    rw [hc, Payload.content] at h
    rw [h]
  all_goals rfl

theorem decodeWithin_depth {depth depth' : Nat} (h : bytes.length < depth)
    (h' : bytes.length < depth') :
    decodeWithin ctx depth bytes = decodeWithin ctx depth' bytes := by
  induction depth generalizing depth' bytes with
  | zero => omega
  | succ depth ih =>
    cases depth' with
    | zero => omega
    | succ depth' =>
      apply FieldSequence.interpret_congr
      intro w hw m
      have hlt := FieldSequence.ofReader_content _ w hw
      simp only [Reader.ofBytes] at hlt
      exact decodeStep_congr (ih (by omega) (by omega)) m

theorem decode_eq (ctx : DecodeContext) (bytes : Bytes) :
    decode ctx bytes = reading bytes {} (decodeStep ctx (decode ctx)) := by
  apply FieldSequence.interpret_congr
  intro w hw m
  have hlt := FieldSequence.ofReader_content _ w hw
  apply decodeStep_congr
  exact decodeWithin_depth hlt (Nat.lt_succ_self _)

theorem comesBack {m : MessageDescriptor} (h : ∀ s ∈ m.slots, s.2.WellTyped ctx s.1) :
    ComesBack encode (decode ctx) m := by
  induction m using nesting with
  | _ name? _ ih fields extensions _ _ oneofs options _ names =>
    simp only [slots, nestedSlots_eq, forall_mem_append, forall_mem_flatMap] at h
    obtain ⟨⟨⟨⟨⟨hslot, hfields, hextensions⟩, honeofs⟩, hranges⟩, henums⟩, hnested⟩ := h
    obtain ⟨fieldBytes, hfieldBytes, hfieldsHold⟩ := blocksM_holds 2 rfl fun f hf =>
      FieldDescriptor.comesBack (hfields f hf)
    obtain ⟨nestedBytes, hnestedBytes, hnestedHold⟩ := blocksM_holds 3 rfl fun x hx =>
      ih x hx (hnested x hx)
    obtain ⟨enumBytes, henumBytes, henumsHold⟩ := blocksM_holds 4 rfl fun e he =>
      EnumDescriptor.comesBack (henums e he)
    obtain ⟨rangeBytes, hrangeBytes, hrangesHold⟩ := blocksM_holds 5 rfl fun r hr =>
      ExtensionRange.comesBack (hranges r hr)
    obtain ⟨extensionBytes, hextensionBytes, hextensionsHold⟩ :=
      blocksM_holds 6 rfl fun f hf => FieldDescriptor.comesBack (hextensions f hf)
    obtain ⟨optionBytes, hoptionBytes, hoptionsHold⟩ := Options.encodeField_holds 7 rfl hslot
    obtain ⟨oneofBytes, honeofBytes, honeofsHold⟩ := blocksM_holds 8 rfl fun o ho =>
      OneofDescriptor.comesBack (honeofs o ho)
    refine ⟨_, by
      rw [encode, encodeNested_eq, hfieldBytes, hnestedBytes, henumBytes, hrangeBytes,
        hextensionBytes, hoptionBytes, honeofBytes]
      rfl, ?_⟩
    rw [decode_eq]
    refine Feeds.reading (.of_append_nil ?_)
    simp only [append_assoc]
    refine .option (textField_holds rfl name?) (fun m x => { m with name? := x }) rfl rfl ?_
    refine .list hfieldsHold (fun m x => { m with fields := x }) rfl rfl ?_
    refine .list hnestedHold (fun m x => { m with nestedTypes := x }) rfl rfl ?_
    refine .list henumsHold (fun m x => { m with enumTypes := x }) rfl rfl ?_
    refine .list hrangesHold (fun m x => { m with extensionRanges := x }) rfl rfl ?_
    refine .list hextensionsHold (fun m x => { m with extensions := x }) rfl rfl ?_
    refine .option hoptionsHold (fun m x => { m with options := x }) rfl rfl ?_
    refine .list honeofsHold (fun m x => { m with oneofs := x }) rfl rfl ?_
    refine .list (blocks_holds rfl fun r _ => r.decode_encode_range)
      (fun m x => { m with reservedRanges := x }) rfl rfl ?_
    refine .list (textFields_holds rfl names) (fun m x => { m with reservedNames := x }) rfl rfl ?_
    exact .nil _

end MessageDescriptor

namespace FileDescriptor

theorem comesBack {f : FileDescriptor} (h : f.OptionsWellTyped ctx) :
    ComesBack encode (decode ctx) f := by
  simp only [OptionsWellTyped, slots, MessageDescriptor.nestedSlots_eq, forall_mem_append,
    forall_mem_flatMap] at h
  obtain ⟨⟨⟨⟨hslot, hmessages⟩, henums⟩, hextensions⟩, hservices⟩ := h
  obtain ⟨messageBytes, hmessageBytes, hmessagesHold⟩ := blocksM_holds 4 rfl fun m hm =>
    MessageDescriptor.comesBack (hmessages m hm)
  obtain ⟨enumBytes, henumBytes, henumsHold⟩ := blocksM_holds 5 rfl fun e he =>
    EnumDescriptor.comesBack (henums e he)
  obtain ⟨serviceBytes, hserviceBytes, hservicesHold⟩ := blocksM_holds 6 rfl fun s hs =>
    ServiceDescriptor.comesBack (hservices s hs)
  obtain ⟨extensionBytes, hextensionBytes, hextensionsHold⟩ :=
    blocksM_holds 7 rfl fun x hx => FieldDescriptor.comesBack (hextensions x hx)
  obtain ⟨optionBytes, hoptionBytes, hoptionsHold⟩ := Options.encodeField_holds 8 rfl hslot
  refine ⟨_, by
    rw [encode, hmessageBytes, henumBytes, hserviceBytes, hextensionBytes, hoptionBytes]
    rfl, ?_⟩
  refine Feeds.reading (.of_append_nil ?_)
  simp only [append_assoc]
  refine .option (textField_holds rfl f.name?) (fun f x => { f with name? := x }) rfl rfl ?_
  refine .option (textField_holds rfl f.package?) (fun f x => { f with package? := x }) rfl rfl ?_
  refine .list (textFields_holds rfl f.dependencies) (fun f x => { f with dependencies := x })
    rfl rfl ?_
  refine .list hmessagesHold (fun f x => { f with messageTypes := x }) rfl rfl ?_
  refine .list henumsHold (fun f x => { f with enumTypes := x }) rfl rfl ?_
  refine .list hservicesHold (fun f x => { f with services := x }) rfl rfl ?_
  refine .list hextensionsHold (fun f x => { f with extensions := x }) rfl rfl ?_
  refine .option hoptionsHold (fun f x => { f with options := x }) rfl rfl ?_
  refine .list (int32Fields_holds rfl f.publicDependencies)
    (fun f x => { f with publicDependencies := x }) rfl rfl ?_
  refine .list (int32Fields_holds rfl f.weakDependencies)
    (fun f x => { f with weakDependencies := x }) rfl rfl ?_
  refine .option (textField_holds rfl f.dialect?) (fun f x => { f with dialect? := x }) rfl rfl ?_
  exact .nil _

theorem set_comesBack {files : List FileDescriptor} (h : ∀ f ∈ files, f.OptionsWellTyped ctx) :
    ComesBack encodeSet (decodeSet ctx) files := by
  obtain ⟨bytes, hbytes, hholds⟩ := blocksM_holds 1 rfl fun f hf => comesBack (h f hf)
  refine ⟨bytes, hbytes, ?_⟩
  refine Feeds.reading (.of_append_nil ?_)
  refine .list hholds (fun _ x => x) rfl rfl ?_
  exact .nil _

/-- Files whose options are well typed can be written, alone and as a set, and reading what was
written gives the files. -/
theorem decode_encode_file (ctx : DecodeContext) :
    (∀ f : FileDescriptor, f.OptionsWellTyped ctx → ∃ bytes, f.encode = .ok bytes ∧
      (Addressable bytes → decode ctx bytes = .ok f)) ∧
    ∀ files : List FileDescriptor, (∀ f ∈ files, f.OptionsWellTyped ctx) →
      ∃ bytes, encodeSet files = .ok bytes ∧
        (Addressable bytes → decodeSet ctx bytes = .ok files) :=
  ⟨fun _ h => comesBack h, fun _ h => set_comesBack h⟩

def flagContext : DecodeContext where
  types :=
    { message? := fun _ => some (.mk none [{ number? := some 3, type? := some .bool }]
        [] [] [] [] [] none [] [])
      enum? := fun _ => none
      extension? := fun _ => none }
  extensions? := none

/-- A message type inside another, whose options hold a flag, an assignment that waits and a field
that nothing explains. -/
def flaggedFile : FileDescriptor where
  name? := some "f"
  messageTypes :=
    [.mk (some "M") [] []
      [.mk (some "N") [] [] [] [] [] [] none [⟨some 1, some (-1)⟩] []] [] [] []
      (some ⟨.message,
        ⟨OptionsKind.message.typeName, [⟨3, .bool, false, .bool true⟩], [72, 1]⟩,
        [{ name := [⟨"x", true⟩], double := some ⟨1⟩ }]⟩) [] []]
  publicDependencies := [0]

theorem flaggedFile_wellTyped : flaggedFile.OptionsWellTyped flagContext := by
  intro s hs
  cases mem_singleton.mp hs
  have hunknown {p : WireField → Prop} (h : p ⟨9, .varint 1, [72, 1]⟩) : AreFields p [72, 1] := by
    refine ⟨[⟨9, .varint 1, [72, 1]⟩], rfl, ?_⟩
    intro w hw
    cases mem_singleton.mp hw
    exact ⟨rfl, h⟩
  have hflag : (Entry.mk 3 .bool false (.bool true)).WellTyped flagContext
      OptionsKind.message.typeName := ⟨by decide, _, rfl, rfl, rfl, rfl, rfl⟩
  exact ⟨⟨rfl, rfl, ⟨by simp, ⟨hflag, trivial⟩, hunknown rfl⟩, hunknown rfl, by simp⟩,
    by simp [Options.StoresNoAssignment, Tag.number]⟩

def flaggedBytes : Bytes :=
  [10, 1, 102, 34, 48, 10, 1, 77, 26, 18, 10, 1, 78, 74, 13, 8, 1, 16, 255, 255, 255, 255, 255, 255,
    255, 255, 255, 1, 58, 23, 24, 1, 186, 62, 16, 18, 5, 10, 1, 120, 16, 1, 49, 1, 0, 0, 0, 0, 0, 0,
    0, 72, 1, 80, 0]

theorem decode_encode_flaggedFile :
    flaggedFile.OptionsWellTyped flagContext ∧ flaggedFile.encode = .ok flaggedBytes ∧
      decode flagContext flaggedBytes = .ok flaggedFile ∧
      decodeSet flagContext (10 :: 55 :: flaggedBytes) = .ok [flaggedFile] := by
  have hwritten : flaggedFile.encode = .ok flaggedBytes := rfl
  have hset : encodeSet [flaggedFile] = .ok (10 :: 55 :: flaggedBytes) := rfl
  obtain ⟨bytes, hbytes, hdecode⟩ := (decode_encode_file flagContext).1 _ flaggedFile_wellTyped
  obtain ⟨all, hall, hdecodeSet⟩ := (decode_encode_file flagContext).2 [flaggedFile]
    (by simpa using flaggedFile_wellTyped)
  rw [hwritten] at hbytes
  rw [hset] at hall
  cases hbytes
  cases hall
  exact ⟨flaggedFile_wellTyped, hwritten, hdecode (by decide), hdecodeSet (by decide)⟩

end FileDescriptor

end Descriptors

end ProtobufSchema

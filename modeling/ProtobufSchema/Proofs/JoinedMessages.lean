import ProtobufSchema.Proofs.LateExtensions

/-! A field makes of an entry that holds something what it makes of one that begins empty, behind
that. So the second part of some bytes can be read by itself. -/

namespace ProtobufSchema

open Wire

namespace Entry

variable {n : UInt32} {f : Option Entry → Option Entry} {es : List Entry}

/-- The entry of a number after both parts. Where it is repeated its values are those of the first
part and then those of the second, under the flag of the first; else the last value counts. -/
def joined (repeated : Bool) : Option Entry → Option Entry → Option Entry
  | some e, some e' =>
    some (if repeated then { e with value := .list (e.value.items ++ e'.value.items) } else e')
  | some e, none => some e
  | none, e? => e?

theorem storing_joined (s : Holding) (v : Value) (first second : Option Entry) :
    s.storing v (joined s.repeated first second) =
      joined s.repeated first (s.storing v second) := by
  obtain ⟨repeated, number, type, packed⟩ := s
  cases first with
  | none => rfl
  | some e =>
    cases repeated with
    | false => rfl
    | true => cases second <;> simp [joined, Holding.storing, Value.items]

theorem Fills.find?_alter (h : Fills n f) (hes : es.Pairwise fun a b => a.number < b.number)
    (k : UInt32) : (alter n f es).find? (·.number == k) =
      if k = n then f (es.find? (·.number == n)) else es.find? (·.number == k) := by
  obtain ⟨x, hx, rfl⟩ := h.of_none
  induction es with
  | nil => grind [alter]
  | cons e es ih =>
    have hnew : e.number = x.number → ∃ z, f (some e) = some z ∧ z.number = x.number := h.of_some
    grind [alter]

end Entry

/-- Whether a number belongs to a field or extension that is repeated. -/
def DecodeContext.repeats (ctx : DecodeContext) (typeName : String) (number : UInt32) : Bool :=
  (ctx.field? typeName number).any FieldDescriptor.isRepeated

namespace Message

variable {m : Message}

/-- What a message holds after a part of its bytes, and then another, from what each part holds by
itself. -/
structure IsJoined (ctx : DecodeContext) (first second m : Message) : Prop where
  typeName : m.typeName = second.typeName
  unknown : m.unknown = first.unknown ++ second.unknown
  entries : ∀ number, m.entry? number =
    Entry.joined (ctx.repeats second.typeName number) (first.entry? number) (second.entry? number)

def IsSorted (m : Message) : Prop := m.entries.Pairwise fun a b => a.number < b.number

section Step

variable {ctx : DecodeContext} {decode : String → Bytes → Except DecodeError Message}
  {first m m' x x' : Message} {w : WireField}

theorem entry?_put (s : Holding) (v : Value) (hm : m.IsSorted) (k : UInt32) :
    entry? (m.put s v) k = if k = s.number then s.storing v (m.entry? s.number) else m.entry? k :=
  (s.storing_fills v).find?_alter hm k

theorem IsJoined.putAll {s : Holding} {vs : List Value} (h : IsJoined ctx first m x)
    (hm : m.IsSorted) (hx : x.IsSorted) (hs : ctx.repeats m.typeName s.number = s.repeated) :
    IsJoined ctx first (m.putAll s vs) (x.putAll s vs) ∧ (m.putAll s vs).IsSorted ∧
      (x.putAll s vs).IsSorted := by
  induction vs generalizing m x with
  | nil => exact ⟨h, hm, hx⟩
  | cons v vs ih =>
    have hfills := s.storing_fills v
    refine ih ⟨h.typeName, h.unknown, fun number => ?_⟩ (hfills.alter_pairwise hm)
      (hfills.alter_pairwise hx) hs
    rw [entry?_put s v hx, entry?_put s v hm]
    split
    · next hnumber =>
      subst hnumber
      rw [h.entries]
      exact hs ▸ Entry.storing_joined s v _ _
    · exact h.entries number

theorem decodeStep_ok (h : decodeStep ctx decode m w = .ok m') (hname : x.typeName = m.typeName) :
    ∃ x', decodeStep ctx decode x w = .ok x' := by
  cases hc : ctx.consumes m.typeName w with
  | false => exact ⟨_, decodeStep_unknown (hname ▸ hc)⟩
  | true =>
    obtain ⟨_, _, _, _, _, hstore⟩ := decodeStep_stores h hc
    exact ⟨_, hstore x hname⟩

theorem IsJoined.step (h : IsJoined ctx first m x) (hm : m.IsSorted) (hx : x.IsSorted)
    (hstep : decodeStep ctx decode m w = .ok m') (hstep' : decodeStep ctx decode x w = .ok x') :
    IsJoined ctx first m' x' ∧ m'.IsSorted ∧ x'.IsSorted := by
  cases hc : ctx.consumes m.typeName w with
  | false =>
    cases decodeStep_unknown hc ▸ hstep
    cases decodeStep_unknown (h.typeName ▸ hc) ▸ hstep'
    refine ⟨⟨h.typeName, ?_, h.entries⟩, hm, hx⟩
    simp [appendUnknown, h.unknown]
  | true =>
    obtain ⟨d, s, vs, hd, hgives, hstore⟩ := decodeStep_stores hstep hc
    cases hstore m rfl ▸ hstep
    cases hstore x h.typeName ▸ hstep'
    refine h.putAll hm hx ?_
    rw [DecodeContext.repeats, hgives.number_eq, hd]
    exact hgives.isRepeated

theorem foldlM_ok {ws : List WireField} (h : ws.foldlM (decodeStep ctx decode) m = .ok m')
    (hname : x.typeName = m.typeName) : ∃ x', ws.foldlM (decodeStep ctx decode) x = .ok x' := by
  induction ws generalizing m x with
  | nil => exact ⟨x, rfl⟩
  | cons w ws ih =>
    obtain ⟨y, hy, h⟩ := bind_eq_ok.mp h
    obtain ⟨z, hz⟩ := decodeStep_ok hy hname
    have hnext : z.typeName = y.typeName := by
      rw [(decodeStep_effect hz).1, (decodeStep_effect hy).1, hname]
    obtain ⟨x', hx'⟩ := ih h hnext
    exact ⟨x', by rw [List.foldlM_cons, hz]; exact hx'⟩

end Step

variable {ctx : DecodeContext} {typeName : String} {bytes more : Bytes} {first : Message}

theorem decode_ok_iff (hsize : Addressable bytes) : decode ctx typeName bytes = .ok m ↔
    Carries (fun _ => True) (decodeStep ctx (decode ctx)) bytes (.empty typeName) m := by
  rw [decode_eq]
  refine ⟨fun h => ?_, fun h => h.interpret hsize⟩
  obtain ⟨hfailure, hfold⟩ := FieldSequence.interpret_ok h
  exact ⟨_, FieldSequence.ofReader_rest hfailure,
    fun w hw => ⟨FieldSequence.ofReader_complete _ w hw, trivial⟩, hfold⟩

/-- Bytes behind a part that was read are read on from what that part was read as. -/
theorem decode_append_iff (h : decode ctx typeName bytes = .ok first)
    (hsize : Addressable (bytes ++ more)) : decode ctx typeName (bytes ++ more) = .ok m ↔
      Carries (fun _ => True) (decodeStep ctx (decode ctx)) more first m := by
  have hfirst := (decode_ok_iff hsize.left).mp h
  rw [decode_ok_iff hsize]
  refine ⟨fun hall => ?_, hfirst.append⟩
  obtain ⟨vs, rfl, hvs, hfold⟩ := hfirst
  obtain ⟨ws, hws, hcomplete, hfold'⟩ := hall
  obtain ⟨us, rfl, rfl⟩ := WireField.exists_of_concat_eq (fun w hw => (hcomplete w hw).1)
    (fun v hv => (hvs v hv).1) hws.symm
  rw [List.foldlM_append, hfold] at hfold'
  exact ⟨us, rfl, fun u hu => hcomplete u (by simp [hu]), hfold'⟩

/-- Reading bytes in two parts. Where the first part can be read, all can be read just if the second
part can, and the message is then joined from what the two parts are read as. -/
theorem decode_append (h : decode ctx typeName bytes = .ok first)
    (hsize : Addressable (bytes ++ more)) :
    ((∃ m, decode ctx typeName (bytes ++ more) = .ok m) ↔
      ∃ second, decode ctx typeName more = .ok second) ∧
      ∀ second m, decode ctx typeName more = .ok second →
      decode ctx typeName (bytes ++ more) = .ok m →
        IsJoined ctx first second m := by
  obtain ⟨hname, htyped⟩ := decode_wellTyped h
  simp only [decode_append_iff h hsize, decode_ok_iff hsize.right]
  refine ⟨⟨?_, ?_⟩, ?_⟩
  · rintro ⟨m, ws, hws, hcomplete, hfold⟩
    obtain ⟨second, hsecond⟩ := foldlM_ok hfold (x := .empty typeName) hname.symm
    exact ⟨second, ws, hws, hcomplete, hsecond⟩
  · rintro ⟨second, ws, hws, hcomplete, hfold⟩
    obtain ⟨m, hm⟩ := foldlM_ok hfold (x := first) hname
    exact ⟨m, ws, hws, hcomplete, hm⟩
  · rintro second m ⟨ws, rfl, hws, hsecond⟩ ⟨vs, hvs, hcomplete, hm⟩
    cases WireField.concat_injective (fun w hw => (hws w hw).1) (fun v hv => (hcomplete v hv).1) hvs
    have hempty : IsJoined ctx first (.empty typeName) first :=
      ⟨hname, (List.append_nil _).symm, fun number => by cases first.entry? number <;> rfl⟩
    refine (FieldSequence.foldlM_related
      (P := fun s t => IsJoined ctx first s t ∧ IsSorted s ∧ IsSorted t)
      ⟨hempty, List.Pairwise.nil, (wellTyped_iff.mp htyped).1⟩ ?_ hsecond hm).1
    rintro s t w s' t' - ⟨hs, hsorted, hsorted'⟩ hstep hstep'
    exact hs.step hsorted hsorted' hstep hstep'

/-- A run of numbers, a flag that the first part has too, and a field that nothing explains. -/
def looseMore : Bytes := [10, 1, 8, 72, 2, 16, 1]

set_option maxRecDepth 1000 in
theorem decode_append_loose :
    ∃ second m, decode assignmentContext "T" looseBytes = .ok looseMessage ∧
    decode assignmentContext "T" looseMore = .ok second ∧
    decode assignmentContext "T" (looseBytes ++ looseMore) = .ok m ∧
    IsJoined assignmentContext looseMessage second m := by
  have hfirst : decode assignmentContext "T" looseBytes = .ok looseMessage := by cbv
  have hsecond : decode assignmentContext "T" looseMore = .ok ⟨"T",
      [⟨1, .sint32, true, .list [.int32 4]⟩, ⟨2, .bool, false, .bool true⟩], [72, 2]⟩ := by cbv
  have hsize : Addressable (looseBytes ++ looseMore) := by decide
  obtain ⟨hok, hjoined⟩ := decode_append hfirst hsize
  obtain ⟨m, hm⟩ := hok.mpr ⟨_, hsecond⟩
  exact ⟨_, m, hfirst, hsecond, hm, hjoined _ _ hsecond hm⟩

end Message

end ProtobufSchema

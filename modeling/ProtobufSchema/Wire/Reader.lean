import ProtobufSchema.Wire.Varint

/-! Reading the wire format. A reader is what is left of a buffer and how much was taken from it; a
step that fails leaves the reader where it stopped. -/

namespace ProtobufSchema

inductive DecodeError where
  | truncated (need available : Nat)
  | invalidVarint (offset : Nat)
  | invalidWireType (field : UInt32) (wireType : Nat)
  | invalidUtf8 (field : UInt32)
  | fieldNumberZero
  | mismatchedEndGroup (found opened : UInt32)
  | unexpectedEndGroup (field : UInt32)
  | invalidLabel (number : Int32)
  | invalidType (number : Int32)
  deriving DecidableEq, Repr

def DecodeError.message : DecodeError → String
  | truncated need available => s!"truncated data: need {need} bytes, have {available}"
  | invalidVarint offset => s!"invalid varint at offset {offset}"
  | invalidWireType field wireType => s!"invalid wire type {wireType} for field {field}"
  | invalidUtf8 field => s!"invalid utf-8 string in field {field}"
  | fieldNumberZero => "invalid data: field number 0"
  | mismatchedEndGroup found opened =>
    s!"invalid data: mismatched end group {found} for group {opened}"
  | unexpectedEndGroup field => s!"invalid data: unexpected end group for field {field}"
  | invalidLabel number => s!"invalid data: invalid field label {number}"
  | invalidType number => s!"invalid data: invalid field type {number}"

structure Reader where
  position : Nat
  rest : Bytes
  deriving DecidableEq, Repr

namespace Reader

def ofBytes (bytes : Bytes) : Reader := ⟨0, bytes⟩

def isEmpty (r : Reader) : Bool := r.rest.isEmpty

def size (r : Reader) : Nat := r.position + r.rest.length

def skip (r : Reader) (count : Nat) : Reader := ⟨r.position + count, r.rest.drop count⟩

end Reader

abbrev Read := EStateM DecodeError Reader

namespace Read

/-- The digits that follow `count` digits of value `acc`. Ten bytes hold every 64-bit number; bits
beyond the sixty-fourth are dropped, and an eleventh byte is refused. -/
def varintFrom (start : Nat) : (count acc position : Nat) → Bytes →
    EStateM.Result DecodeError Reader UInt64
  | _, _, position, [] => .error (.truncated (position + 1) position) ⟨position, []⟩
  | count, acc, position, b :: rest =>
    if 10 ≤ count then .error (.invalidVarint start) ⟨position + 1, rest⟩
    else
      let sum := acc + b.toNat % 128 * Nat.pow 128 count
      if b.toNat < 128 then .ok sum.toUInt64 ⟨position + 1, rest⟩
      else varintFrom start (count + 1) sum (position + 1) rest

def varint : Read UInt64 := fun r => varintFrom r.position 0 0 r.position r.rest

/-- A field number, of which a key carries at least 32 bits, and how the payload is written. -/
def key : Read (UInt32 × WireType) := do
  let v ← varint
  let field := (v.toNat / 8).toUInt32
  match WireType.ofNumber? (v.toNat % 8) with
  | none => throw (.invalidWireType field (v.toNat % 8))
  | some type => if field = 0 then throw .fieldNumberZero else pure (field, type)

def take (count : Nat) : Read Bytes := fun r =>
  let stop := r.position + count
  if UInt64.size ≤ stop then .error (.truncated (UInt64.size - 1) r.size) r
  else if r.size < stop then .error (.truncated stop r.size) r
  else .ok (r.rest.take count) (r.skip count)

def fixed32 : Read UInt32 := return (Wire.ofLittleEndian (← take 4)).toUInt32

def fixed64 : Read UInt64 := return (Wire.ofLittleEndian (← take 8)).toUInt64

def bytes : Read Bytes := do
  let length ← varint
  take length.toNat

def text (field : UInt32) (content : Bytes) : Except DecodeError String :=
  match Utf8.decode? content with
  | some s => .ok s
  | none => .error (.invalidUtf8 field)

def string (field : UInt32) : Read String := do
  match text field (← bytes) with
  | .ok s => pure s
  | .error e => throw e

theorem varintFrom_rest {start count acc position : Nat} {bs : Bytes} {v : UInt64} {r : Reader}
    (h : varintFrom start count acc position bs = .ok v r) : r.rest.length < bs.length := by
  induction bs generalizing count acc position with
  | nil => simp [varintFrom] at h
  | cons b rest ih =>
    simp only [varintFrom] at h
    split at h
    · cases h
    · split at h
      · cases h; simp
      · exact Nat.lt_succ_of_lt (ih h)

theorem varint_rest {r r' : Reader} {v : UInt64} (h : varint r = .ok v r') :
    r'.rest.length < r.rest.length := varintFrom_rest h

theorem key_rest {r r' : Reader} {k : UInt32 × WireType} (h : key r = .ok k r') :
    r'.rest.length < r.rest.length := by
  simp only [key, bind, EStateM.bind] at h
  cases hv : varint r with
  | error e s => rw [hv] at h; cases h
  | ok v s =>
    rw [hv] at h
    dsimp only at h
    cases ht : WireType.ofNumber? (v.toNat % 8) with
    | none => rw [ht] at h; cases h
    | some type =>
      rw [ht] at h
      dsimp only at h
      split at h <;> cases h
      exact varint_rest hv

theorem take_rest {n : Nat} {r r' : Reader} {bs : Bytes} (h : take n r = .ok bs r') :
    r'.rest.length + n = r.rest.length := by
  simp only [take] at h
  split at h
  · cases h
  · split at h <;> cases h
    rename_i hsize
    simp only [Reader.skip, List.length_drop]
    simp only [Reader.size] at hsize
    omega

end Read

/-- What stands after a key. The content of a group is what stands between its two keys. -/
inductive Payload where
  | varint (value : UInt64)
  | fixed64 (value : UInt64)
  | lengthDelimited (content : Bytes)
  | group (content : Bytes)
  | fixed32 (value : UInt32)
  deriving DecidableEq, Repr

structure WireField where
  number : UInt32
  payload : Payload
  raw : Bytes
  deriving DecidableEq, Repr

namespace Read

def plainPayload (field : UInt32) : WireType → Read Payload
  | .varint => return .varint (← varint)
  | .fixed64 => return .fixed64 (← fixed64)
  | .lengthDelimited => return .lengthDelimited (← bytes)
  | .fixed32 => return .fixed32 (← fixed32)
  | .startGroup | .endGroup => throw (.unexpectedEndGroup field)

theorem plainPayload_rest {field : UInt32} {type : WireType} {r r' : Reader} {p : Payload}
    (h : plainPayload field type r = .ok p r') : r'.rest.length < r.rest.length := by
  cases type <;>
    simp only [plainPayload, fixed32, fixed64, bytes, bind, EStateM.bind, pure, EStateM.pure] at h
  case varint =>
    split at h <;> cases h
    rename_i v hv
    exact varint_rest hv
  case fixed64 =>
    split at h <;> cases h
    rename_i v hv
    split at hv <;> cases hv
    rename_i bs hb
    have := take_rest hb
    omega
  case fixed32 =>
    split at h <;> cases h
    rename_i v hv
    split at hv <;> cases hv
    rename_i bs hb
    have := take_rest hb
    omega
  case lengthDelimited =>
    split at h <;> cases h
    rename_i bs hb
    split at hb
    · rename_i v s hv
      have := take_rest hb
      have := varint_rest hv
      omega
    · cases hb
  all_goals cases h

/-- Reads up to the key that closes the outermost of the open groups, which are given innermost
first, and answers where that key began. -/
def closeGroups (innermost : UInt32) (outer : List UInt32) (r : Reader) :
    EStateM.Result DecodeError Reader Nat :=
  match hk : key r with
  | .error e r' => .error e r'
  | .ok (field, .startGroup) r' =>
    have := key_rest hk
    closeGroups field (innermost :: outer) r'
  | .ok (field, .endGroup) r' =>
    have := key_rest hk
    if field ≠ innermost then .error (.mismatchedEndGroup field innermost) r'
    else
      match outer with
      | [] => .ok r.position r'
      | next :: others => closeGroups next others r'
  | .ok (field, type) r' =>
    match hp : plainPayload field type r' with
    | .error e r'' => .error e r''
    | .ok _ r'' =>
      have := key_rest hk
      have := plainPayload_rest hp
      closeGroups innermost outer r''
termination_by r.rest.length

theorem closeGroups_rest {innermost : UInt32} {outer : List UInt32} {r r' : Reader} {n : Nat}
    (h : closeGroups innermost outer r = .ok n r') : r'.rest.length < r.rest.length := by
  induction r using WellFounded.induction (measure fun r : Reader => r.rest.length).wf
    generalizing innermost outer with
  | _ r ih =>
    rw [closeGroups] at h
    split at h
    · cases h
    · rename_i field s hk
      exact Nat.lt_trans (ih _ (key_rest hk) h) (key_rest hk)
    · rename_i field s hk
      split at h
      · cases h
      · split at h
        · cases h; exact key_rest hk
        · exact Nat.lt_trans (ih _ (key_rest hk) h) (key_rest hk)
    · rename_i field type s _ _ hk
      split at h
      · cases h
      · rename_i p t hp
        have hlt := Nat.lt_trans (plainPayload_rest hp) (key_rest hk)
        exact Nat.lt_trans (ih _ hlt h) hlt

def groupContent (field : UInt32) : Read Bytes := fun r =>
  match closeGroups field [] r with
  | .ok stop r' => .ok (r.rest.take (stop - r.position)) r'
  | .error e r' => .error e r'

def payload (field : UInt32) (type : WireType) : Read Payload :=
  if type = .startGroup then return .group (← groupContent field)
  else plainPayload field type

def skip (field : UInt32) (type : WireType) : Read Unit := do
  let _ ← payload field type

def field : Read WireField := fun r =>
  match key r with
  | .error e r' => .error e r'
  | .ok (number, type) r' =>
    match payload number type r' with
    | .error e r'' => .error e r''
    | .ok p r'' => .ok ⟨number, p, r.rest.take (r''.position - r.position)⟩ r''

theorem groupContent_rest {field : UInt32} {r r' : Reader} {bs : Bytes}
    (h : groupContent field r = .ok bs r') : r'.rest.length < r.rest.length := by
  cases hc : closeGroups field [] r with
  | error e s => simp [groupContent, hc] at h
  | ok n s =>
    simp only [groupContent, hc] at h
    cases h
    exact closeGroups_rest hc

theorem payload_rest {field : UInt32} {type : WireType} {r r' : Reader} {p : Payload}
    (h : payload field type r = .ok p r') : r'.rest.length < r.rest.length := by
  unfold payload at h
  split at h
  · cases hc : groupContent field r with
    | error e s => simp [bind, EStateM.bind, hc] at h
    | ok bs s =>
      simp only [bind, EStateM.bind, hc, pure, EStateM.pure] at h
      cases h
      exact groupContent_rest hc
  · exact plainPayload_rest h

theorem field_rest {r r' : Reader} {f : WireField} (h : field r = .ok f r') :
    r'.rest.length < r.rest.length := by
  simp only [field] at h
  split at h
  · cases h
  · rename_i number type s hk
    split at h <;> cases h
    rename_i p hp
    exact Nat.lt_trans (payload_rest hp) (key_rest hk)

end Read

/-- The fields of a message up to the first that cannot be read, with the reason. -/
structure FieldSequence where
  fields : List WireField
  failure : Option DecodeError
  deriving DecidableEq, Repr

namespace FieldSequence

def ofReader (r : Reader) : FieldSequence :=
  if r.rest = [] then ⟨[], none⟩
  else
    match h : Read.field r with
    | .error e _ => ⟨[], some e⟩
    | .ok f r' =>
      have := Read.field_rest h
      let more := ofReader r'
      ⟨f :: more.fields, more.failure⟩
termination_by r.rest.length

def ofBytes (bytes : Bytes) : FieldSequence := ofReader (.ofBytes bytes)

/-- Interprets the fields in order; what cannot be read fails after all that stands before it. -/
def interpret {σ : Type} (s : FieldSequence) (init : σ)
    (step : σ → WireField → Except DecodeError σ) : Except DecodeError σ := do
  let result ← s.fields.foldlM step init
  match s.failure with
  | none => pure result
  | some e => throw e

end FieldSequence

end ProtobufSchema

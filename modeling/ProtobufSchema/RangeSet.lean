import ProtobufSchema.Descriptor.Basic

/-!
The extension numbers of a message: half-open ranges, no two of which share a number, kept as one
ascending list of their boundaries. Ranges may touch, and a boundary then stands in it twice.
-/

namespace ProtobufSchema

/-- The numbers from `start` up to but not including `stop`. -/
structure NumberRange where
  start : Int32
  stop : Int32
  deriving DecidableEq, Repr

namespace NumberRange

/-- The range of a first and a last number. The largest number of all has none after it, and is left
out. -/
def ofBounds (first last : Int32) : NumberRange :=
  ⟨first, if last = Int32.maxValue then last else last + 1⟩

def contains (r : NumberRange) (n : Int32) : Bool := r.start ≤ n && n < r.stop

/-- The last number of a range, which need not have 32 bits. -/
def last (r : NumberRange) : Int := r.stop.toInt - 1

end NumberRange

inductive InvalidRange where
  | notPositive (start : Int32)
  | empty (r : NumberRange)
  | tooLarge (r : NumberRange)
  | atReserved (r : NumberRange)
  deriving DecidableEq, Repr

def InvalidRange.message : InvalidRange → String
  | notPositive start => s!"extension numbers must be positive, got {start.toInt}"
  | empty r =>
    s!"extension range end number must be greater than start number " ++
      s!"({r.start.toInt} to {r.last})"
  | tooLarge r =>
    s!"extension range end {r.last} exceeds maximum field number {maxFieldNumber.toInt}"
  | atReserved r =>
    s!"extension range {r.start.toInt} to {r.last} starts or ends inside the reserved " ++
      s!"numbers {reservedStart.toInt} to {(reservedEnd - 1).toInt}"

inductive RangeViolation where
  | invalid (reason : InvalidRange)
  | overlap (existing : NumberRange)
  | overflow (e : Overflow)
  deriving DecidableEq, Repr

/-- Boundaries at which ranges start and end by turns. -/
structure RangeSet where
  boundaries : List Int32
  paired : boundaries.length % 2 = 0
  deriving DecidableEq, Repr

/-- The last number is computed also for a range that is empty, where the message says it. -/
def NumberRange.check (r : NumberRange) : Except RangeViolation Unit :=
  if r.start < 1 then .error (.invalid (.notPositive r.start))
  else if r.last < Int32.minValue.toInt then .error (.overflow .subtraction)
  else if r.stop ≤ r.start then .error (.invalid (.empty r))
  else if maxFieldNumber.toInt < r.last then .error (.invalid (.tooLarge r))
  else if isReservedNumber r.start || isReservedNumber (r.stop - 1) then
    .error (.invalid (.atReserved r))
  else .ok ()

def NumberRange.pairUp : List Int32 → List NumberRange
  | start :: stop :: rest => ⟨start, stop⟩ :: pairUp rest
  | _ => []

namespace RangeSet

def empty : RangeSet := ⟨[], rfl⟩

def isEmpty (s : RangeSet) : Bool := s.boundaries.isEmpty

def ranges (s : RangeSet) : List NumberRange := NumberRange.pairUp s.boundaries

def reached (s : RangeSet) (n : Int32) : Nat := (s.boundaries.takeWhile (· ≤ n)).length

theorem reached_le (s : RangeSet) (n : Int32) : s.reached n ≤ s.boundaries.length :=
  (List.takeWhile_sublist _).length_le

def contains (s : RangeSet) (n : Int32) : Bool := s.reached n % 2 == 1

/-- The range whose start is at a position. The boundary after it is there, since they are
paired. -/
def rangeFrom (s : RangeSet) (i : Nat) (heven : i % 2 = 0) (hi : i < s.boundaries.length) :
    NumberRange :=
  have : i + 1 < s.boundaries.length := by have := s.paired; omega
  ⟨s.boundaries[i], s.boundaries[i + 1]⟩

def rangeOf? (s : RangeSet) (n : Int32) : Option NumberRange :=
  if h : s.reached n % 2 = 1 then
    some (s.rangeFrom (s.reached n - 1) (by omega) (by have := s.reached_le n; omega))
  else none

/-- A range that shares a number with a given one. If no range holds its first number, the next
boundary is a start. -/
def overlapping? (s : RangeSet) (r : NumberRange) : Option NumberRange :=
  if h : s.reached r.start % 2 = 1 then s.rangeOf? r.start
  else if hi : s.reached r.start < s.boundaries.length then
    (some (s.rangeFrom (s.reached r.start) (by omega) hi)).filter (·.start < r.stop)
  else none

def insert (s : RangeSet) (r : NumberRange) : Except RangeViolation RangeSet :=
  match r.check with
  | .error violation => .error violation
  | .ok () =>
    match s.overlapping? r with
    | some existing => .error (.overlap existing)
    | none =>
      let i := s.reached r.start
      .ok ⟨s.boundaries.take i ++ r.start :: r.stop :: s.boundaries.drop i, by
        have := s.paired
        simp only [List.length_append, List.length_cons, List.length_take, List.length_drop]
        omega⟩

end RangeSet

end ProtobufSchema

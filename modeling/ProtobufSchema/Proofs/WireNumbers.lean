import ProtobufSchema.Wire.Reader
import Mathlib.Tactic.Ring

/-!
Numbers on the wire are read back as they were written: base-128 numbers, keys, little-endian words,
and the two ways to write a signed number.
-/

namespace ProtobufSchema

variable (t : WireType) (v : UInt64) (count n : Nat)

namespace Wire

variable {w : Nat}

theorem sshiftRight_sign (x : BitVec (w + 1)) :
    x.sshiftRight w = if x.msb then .allOnes (w + 1) else 0#(w + 1) := by
  have top : x.msb = x[w] := by simp [BitVec.msb_eq_getLsbD_last]
  ext i hi
  by_cases h : i = 0
  · cases hm : x.msb <;> simp_all [BitVec.getElem_sshiftRight]
  · have hw : ¬ w + i < w + 1 := by omega
    cases hm : x.msb <;> simp [BitVec.getElem_sshiftRight, hw, hm]

theorem unzigzag_zigzag_bits (x : BitVec (w + 1)) : (((x <<< 1) ^^^ x.sshiftRight w) >>> 1) ^^^
      -(((x <<< 1) ^^^ x.sshiftRight w) &&& 1#(w + 1)) = x := by
  have top : x.msb = x[w] := by simp [BitVec.msb_eq_getLsbD_last]
  -- The lowest bit of the written number is the sign.
  have sign : ((x <<< 1) ^^^ x.sshiftRight w) &&& 1#(w + 1) =
      if x.msb then 1#(w + 1) else 0#(w + 1) := by
    rw [sshiftRight_sign]
    ext i hi
    cases i with
    | zero => cases hm : x.msb <;> simp
    | succ i => cases hm : x.msb <;> simp
  rw [sign, sshiftRight_sign]
  ext i hi
  by_cases hw : i = w
  · subst hw
    cases hm : x.msb <;> simp [← top, hm, BitVec.neg_one_eq_allOnes]
  · have hlt : 1 + i < w + 1 := by omega
    cases hm : x.msb <;> simp [BitVec.neg_one_eq_allOnes, hlt]

theorem zigzag_unzigzag_bits (x : BitVec (w + 1)) :
    ((x >>> 1 ^^^ -(x &&& 1#(w + 1))) <<< 1) ^^^ (x >>> 1 ^^^ -(x &&& 1#(w + 1))).sshiftRight w =
      x := by
  -- The sign that is read is the lowest bit of what was written.
  have sign : -(x &&& 1#(w + 1)) = if x[0] then .allOnes (w + 1) else 0#(w + 1) := by
    have low : x &&& 1#(w + 1) = if x[0] then 1#(w + 1) else 0#(w + 1) := by
      ext i hi
      cases i <;> cases hx : x[0] <;> simp [hx]
    rw [low]
    split
    · exact BitVec.neg_one_eq_allOnes
    · exact BitVec.neg_zero ..
  have top : (x >>> 1 ^^^ -(x &&& 1#(w + 1))).msb = x[0] := by
    rw [sign]
    cases hx : x[0] <;> simp
  rw [sshiftRight_sign, sign]
  ext i hi
  cases i with
  | zero => cases hx : x[0] <;> simp
  | succ i => cases x[0] <;> simp [add_comm 1 i, BitVec.getLsbD_eq_getElem hi]

@[simp] theorem unzigzag32_zigzag32 (v : Int32) : unzigzag32 (zigzag32 v) = v := by
  apply Int32.toBitVec_inj.mp
  simpa [unzigzag32, zigzag32] using unzigzag_zigzag_bits v.toBitVec

@[simp] theorem unzigzag64_zigzag64 (v : Int64) : unzigzag64 (zigzag64 v) = v := by
  apply Int64.toBitVec_inj.mp
  simpa [unzigzag64, zigzag64] using unzigzag_zigzag_bits v.toBitVec

@[simp] theorem zigzag32_unzigzag32 (v : UInt32) : zigzag32 (unzigzag32 v) = v := by
  apply UInt32.toBitVec_inj.mp
  simpa [unzigzag32, zigzag32] using zigzag_unzigzag_bits v.toBitVec

@[simp] theorem zigzag64_unzigzag64 (v : UInt64) : zigzag64 (unzigzag64 v) = v := by
  apply UInt64.toBitVec_inj.mp
  simpa [unzigzag64, zigzag64] using zigzag_unzigzag_bits v.toBitVec

@[simp] theorem signExtended_toUInt32 (v : Int32) : (signExtended v).toUInt32.toInt32 = v := by
  have h : .setWidth 32 (.signExtend 64 v.toBitVec) = v.toBitVec := by
    ext i hi
    simp [BitVec.getElem_signExtend, hi, show i < 64 by omega]
  apply Int32.toBitVec_inj.mp
  simpa [signExtended] using h

theorem base128_length_le {count n k : Nat} (h : n < 128 ^ (k + 1)) :
    (base128 count n).length ≤ k + 1 := by
  induction count generalizing n k with
  | zero => exact Nat.zero_le _
  | succ count ih =>
    rw [base128]
    split
    · exact Nat.le_add_left ..
    · cases k with
      | zero => omega
      | succ k =>
        have hdiv : n / 128 < 128 ^ (k + 1) := by
          omega
        exact Nat.succ_le_succ (ih hdiv)

@[simp] theorem littleEndian_length : (littleEndian count n).length = count := by
  induction count generalizing n with
  | zero => rfl
  | succ count ih => simp [littleEndian, ih]

theorem ofLittleEndian_littleEndian (h : n < 256 ^ count) :
    ofLittleEndian (littleEndian count n) = n := by
  induction count generalizing n with
  | zero =>
    have hn : n = 0 := by simpa using h
    simp [littleEndian, ofLittleEndian, hn]
  | succ count ih =>
    have hdiv : n / 256 < 256 ^ count := by omega
    simp only [littleEndian, ofLittleEndian, ih _ hdiv]
    have hbyte : (n % 256).toUInt8.toNat = n % 256 := by simp
    omega

@[simp] theorem ofLittleEndian_word32 (v : UInt32) : (ofLittleEndian (word32 v)).toUInt32 = v := by
  have h : v.toNat < 256 ^ 4 := by simpa using v.toNat_lt
  simp [word32, ofLittleEndian_littleEndian 4 _ h]

@[simp] theorem ofLittleEndian_word64 : (ofLittleEndian (word64 v)).toUInt64 = v := by
  have h : v.toNat < 256 ^ 8 := by simpa using v.toNat_lt
  simp [word64, ofLittleEndian_littleEndian 8 _ h]

end Wire

theorem WireType.number_lt : t.number < 8 := by
  cases t <;> decide

@[simp] theorem WireType.ofNumber?_number : ofNumber? t.number = some t := by
  cases t <;> rfl

theorem WireType.ofNumber?_eq_some_iff {n : Nat} {t : WireType} :
    ofNumber? n = some t ↔ n = t.number := by
  constructor
  · intro h
    unfold ofNumber? at h
    split at h <;> cases h <;> rfl
  · rintro rfl
    exact ofNumber?_number t

namespace Read

variable {r r' : Reader}

theorem varintFrom_base128 (start count acc position n more : Nat) (rest : Bytes)
    (hcount : count + (more + 1) = 10) (hn : n < 128 ^ (more + 1)) :
    varintFrom start count acc position (Wire.base128 (more + 1) n ++ rest) =
      .ok (acc + n * 128 ^ count).toUInt64 ⟨position + (Wire.base128 (more + 1) n).length,
        rest⟩ := by
  induction more generalizing count acc position n with
  | zero =>
    have h128 : n < 128 := by simpa using hn
    have hcount' : ¬ 10 ≤ count := by omega
    simp [Wire.base128, varintFrom, h128, hcount', Nat.mod_eq_of_lt (by omega : n < 256),
      Nat.mod_eq_of_lt h128]
  | succ more ih =>
    have hcount' : ¬ 10 ≤ count := by omega
    by_cases h128 : n < 128
    · simp [Wire.base128, varintFrom, h128, hcount', Nat.mod_eq_of_lt (by omega : n < 256),
        Nat.mod_eq_of_lt h128]
    · have hdiv : n / 128 < 128 ^ (more + 1) := by omega
      have hbyte : (n % 128 + 128).toUInt8.toNat = n % 128 + 128 := by
        simp
        omega
      -- A marked byte adds its digit, and the digits behind it weigh 128 times as much.
      have hsum : acc + (n % 128 + 128) % 128 * 128 ^ count + n / 128 * 128 ^ (count + 1) =
          acc + n * 128 ^ count := by
        have hsplit : n = n % 128 + 128 * (n / 128) := by omega
        have hmod : (n % 128 + 128) % 128 = n % 128 := by omega
        rw [hmod, pow_succ]
        conv => rhs; rw [hsplit]
        ring
      rw [Wire.base128, if_neg h128, List.cons_append, varintFrom]
      simp only [hbyte, hcount', if_false, show ¬ n % 128 + 128 < 128 by omega]
      have hih :=
        ih (count + 1) (acc + (n % 128 + 128) % 128 * 128 ^ count) (position + 1) (n / 128)
        (by omega) hdiv
      simp only [Nat.pow_eq]
      rw [hih, List.length_cons]
      congr 2
      omega

theorem varint_varint (position : Nat) (rest : Bytes) :
    varint ⟨position, Wire.varint v ++ rest⟩ = .ok v ⟨position + (Wire.varint v).length, rest⟩ := by
  have hv : v.toNat < 128 ^ (9 + 1) := lt_of_lt_of_le v.toNat_lt (by decide)
  simpa [varint,
    Wire.varint] using varintFrom_base128 position 0 0 position v.toNat 9 rest (by omega) hv

theorem varintFrom_lt {start count acc position : Nat} {bs : Bytes} {v : UInt64}
    (hacc : acc < 128 ^ count) (h : varintFrom start count acc position bs = .ok v r) :
    ∃ k sum, r.position = position + (k + 1) ∧ count + k < 10 ∧ v = sum.toUInt64 ∧
      sum < 128 ^ (count + (k + 1)) := by
  induction bs generalizing count acc position with
  | nil => cases h
  | cons b bs ih =>
    rw [varintFrom] at h
    split at h
    · cases h
    · have hsum : acc + b.toNat % 128 * .pow 128 count < 128 ^ (count + 1) := by
        have hdigit : b.toNat % 128 * 128 ^ count ≤ 127 * 128 ^ count :=
          Nat.mul_le_mul_right _ (by omega)
        rw [Nat.pow_eq]
        omega
      split at h
      · cases h
        exact ⟨0, _, rfl, by omega, rfl, hsum⟩
      · obtain ⟨k, sum, hposition, hk, hv, hlt⟩ := ih hsum h
        refine ⟨k + 1, sum, by omega, by omega, hv, ?_⟩
        rwa [add_right_comm, add_assoc] at hlt

theorem length_varint_le {v : UInt64} (h : varint r = .ok v r') :
    r.position + (Wire.varint v).length ≤ r'.position := by
  obtain ⟨k, sum, hposition, hk, rfl, hlt⟩ := varintFrom_lt (by decide) h
  rw [hposition]
  refine Nat.add_le_add_left (Wire.base128_length_le ?_) _
  have hmod : sum.toUInt64.toNat ≤ sum := by simpa using Nat.mod_le ..
  rw [zero_add] at hlt
  omega

theorem key_key (field : UInt32) (type : WireType) (h : field ≠ 0) (position : Nat) (rest : Bytes) :
    key ⟨position, Wire.key field type ++ rest⟩ =
      .ok (field, type) ⟨position + (Wire.key field type).length, rest⟩ := by
  have ht := type.number_lt
  have hf := field.toNat_lt
  have hnat : (field.toNat * 8 + type.number).toUInt64.toNat = field.toNat * 8 + type.number := by
    simp
    omega
  simp only [key, Wire.key, bind, EStateM.bind, varint_varint, hnat]
  have hmod : (field.toNat * 8 + type.number) % 8 = type.number := by omega
  have hdiv : (field.toNat * 8 + type.number) / 8 = field.toNat := by omega
  simp [hmod, hdiv, h, pure, EStateM.pure]

theorem key_ok_iff {field : UInt32} {type : WireType} :
    key r = .ok (field, type) r' ↔ ∃ v, varint r = .ok v r' ∧ field ≠ 0 ∧
      v.toNat % 2 ^ 35 = field.toNat * 8 + type.number := by
  simp only [key, bind, EStateM.bind]
  cases varint r with
  | error e s => simp
  | ok v s =>
    have htype := type.number_lt
    have hfield : (v.toNat / 8).toUInt32.toNat = v.toNat / 8 % 2 ^ 32 := by simp
    have hiff : (field = (v.toNat / 8).toUInt32 ∧ v.toNat % 8 = type.number) ↔
        v.toNat % 2 ^ 35 = field.toNat * 8 + type.number := by
      rw [← UInt32.toNat_inj, hfield]
      omega
    constructor
    · intro h
      dsimp only at h
      cases hkind : WireType.ofNumber? (v.toNat % 8) with
      | none => rw [hkind] at h; cases h
      | some kind =>
        rw [hkind] at h
        dsimp only at h
        split at h
        · cases h
        · next hne =>
          cases h
          exact ⟨v, rfl, hne, hiff.mp ⟨rfl, WireType.ofNumber?_eq_some_iff.mp hkind⟩⟩
    · rintro ⟨_, ⟨⟩, hne, hv⟩
      obtain ⟨rfl, hkind⟩ := hiff.mpr hv
      dsimp only
      rw [hkind, WireType.ofNumber?_number]
      dsimp only
      rw [if_neg hne]
      rfl

/-- Bits beyond the last 35 are not looked at: a number with more of them is read as the key that
these bits are, and only a number without them is the number of the key that is read. -/
theorem key_exact_iff {r r' : Reader} {field : UInt32} {type : WireType} :
    key r = .ok (field, type) r' ↔ ∃ v, varint r = .ok v r' ∧ field ≠ 0 ∧
      v.toNat % 2 ^ 35 = field.toNat * 8 + type.number ∧
      (v.toNat = field.toNat * 8 + type.number ↔ v.toNat < 2 ^ 35) := by
  rw [key_ok_iff]
  refine exists_congr fun v => and_congr_right fun _ => and_congr_right fun _ => ?_
  refine ⟨fun hv => ⟨hv, ?_⟩, And.left⟩
  rw [← hv]
  omega

/-- The field number 2 ^ 32 + 1 is read as 1. -/
theorem key_aliased : key ⟨0, [136, 128, 128, 128, 128, 1]⟩ = .ok (1, .varint) ⟨6, []⟩ ∧
    varint ⟨0, [136, 128, 128, 128, 128, 1]⟩ = .ok (4294967297 * 8) ⟨6, []⟩ ∧
    (4294967297 * 8 : UInt64).toNat ≠ (1 : UInt32).toNat * 8 + WireType.varint.number :=
  ⟨rfl, rfl, by decide⟩

end Read

/-- What the wire is read as is what was written on it, up to the bytes behind: numbers, in the
fewest bytes from which they are read, keys, and signed numbers in both notations. -/
theorem wire_primitives_invert (position : Nat) (rest : Bytes) :
    (∀ v : UInt64, Read.varint ⟨position, Wire.varint v ++ rest⟩ =
      .ok v ⟨position + (Wire.varint v).length, rest⟩ ∧
      0 < (Wire.varint v).length ∧ (Wire.varint v).length ≤ 10 ∧
      ∀ r r', Read.varint r = .ok v r' → r.position + (Wire.varint v).length ≤ r'.position) ∧
    (∀ (field : UInt32) (type : WireType), field ≠ 0 →
      Read.key ⟨position, Wire.key field type ++ rest⟩ =
      .ok (field, type) ⟨position + (Wire.key field type).length, rest⟩) ∧
    (∀ v, Wire.unzigzag32 (Wire.zigzag32 v) = v) ∧ (∀ v, Wire.zigzag32 (Wire.unzigzag32 v) = v) ∧
    (∀ v, Wire.unzigzag64 (Wire.zigzag64 v) = v) ∧ (∀ v, Wire.zigzag64 (Wire.unzigzag64 v) = v) ∧
    ∀ v : Int32, ∃ u r', Read.varint ⟨position, Wire.varint (Wire.signExtended v) ++ rest⟩ =
      .ok u r' ∧
      r'.rest = rest ∧ u.toUInt32.toInt32 = v := by
  refine ⟨fun v => ⟨Read.varint_varint v position rest, ?_, ?_, fun _ _ => Read.length_varint_le⟩,
    fun field type h => Read.key_key field type h position rest, Wire.unzigzag32_zigzag32,
      Wire.zigzag32_unzigzag32,
    Wire.unzigzag64_zigzag64, Wire.zigzag64_unzigzag64,
    fun v => ⟨_, _, Read.varint_varint _ position rest, rfl, Wire.signExtended_toUInt32 v⟩⟩
  · rw [Wire.varint, Wire.base128]
    split <;> exact Nat.zero_lt_succ _
  · exact Wire.base128_length_le (k := 9) (Nat.lt_of_lt_of_le v.toNat_lt (by decide))

theorem wire_primitives_invert_last :
    Read.key ⟨0, [0xFA, 0xFF, 0xFF, 0xFF, 0x7F]⟩ = .ok (4294967295, .lengthDelimited) ⟨5, []⟩ :=
  (wire_primitives_invert 0 []).2.1 4294967295 .lengthDelimited (by decide)

end ProtobufSchema

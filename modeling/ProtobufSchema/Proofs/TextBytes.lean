import ProtobufSchema.Proofs.ParsedNames

/-! A byte below 0x80 stands for one character wherever it occurs, so texts are read back from their
bytes and no reading hides such a character. -/

namespace ProtobufSchema

open List

namespace Utf8

variable {a b : UInt8} {ps : List (UInt8 → Bool)} {ys : Bytes}
variable {c : Char} (cs : List Char)

def encodeChars (cs : List Char) : Bytes := cs.flatMap String.utf8EncodeChar

theorem encode_ofList : encode (.ofList cs) = encodeChars cs := by
  rw [encode, String.toByteArray_ofList, utf8Encode, data_toByteArray, encodeChars]

theorem encode_eq (s : String) : encode s = encodeChars s.toList := by
  rw [← encode_ofList, String.ofList_toList]

theorem encode_append (s t : String) : encode (s ++ t) = encode s ++ encode t := by
  simp [encode_eq, encodeChars]

theorem encodeChar_of_lt (h : c.toNat < 0x80) : String.utf8EncodeChar c = [.ofNat c.toNat] := by
  have hle : c.val.toNat ≤ 127 := Nat.le_of_lt_succ h
  exact if_pos hle

theorem le_of_mem_encodeChar (h : 0x80 ≤ c.toNat) (hb : b ∈ String.utf8EncodeChar c) :
    0x80 ≤ b := by
  have hn : ¬c.val.toNat ≤ 127 := not_le.mpr h
  rw [UInt8.le_iff_toNat_le]
  rw [String.utf8EncodeChar, if_neg hn] at hb
  split at hb
  · simp only [mem_cons, not_mem_nil, or_false] at hb
    rcases hb with rfl | rfl <;> simp <;> omega
  · split at hb
    · simp only [mem_cons, not_mem_nil, or_false] at hb
      rcases hb with rfl | rfl | rfl <;> simp <;> omega
    · simp only [mem_cons, not_mem_nil, or_false] at hb
      rcases hb with rfl | rfl | rfl | rfl <;> simp <;> omega

theorem toNat_ofNat_of_lt (h : b < 0x80) : (Char.ofNat b.toNat).toNat = b.toNat := by
  have hlt : b.toNat < 0x80 := UInt8.lt_iff_toNat_lt.mp h
  have hvalid : b.toNat.isValidChar := .inl (by omega)
  rw [Char.ofNat, dif_pos hvalid]
  rfl

theorem encodeChar_ofNat (h : b < 0x80) : String.utf8EncodeChar (.ofNat b.toNat) = [b] := by
  have hnat := toNat_ofNat_of_lt h
  have hlt : b.toNat < 0x80 := UInt8.lt_iff_toNat_lt.mp h
  rw [encodeChar_of_lt (by omega), hnat, UInt8.ofNat_toNat]

theorem lossyChars_cons (h : b < 0x80) (s : Bytes) :
    lossyChars (b :: s) = .ofNat b.toNat :: lossyChars s := by
  rw [lossyChars.eq_def]
  simp [h]

theorem encode_decodeLossy {bytes : Bytes} (h : ∀ b ∈ bytes, b < 0x80) :
    encode (decodeLossy bytes) = bytes := by
  rw [decodeLossy, encode_ofList]
  induction bytes with
  | nil => rfl
  | cons b bytes ih =>
    obtain ⟨hb, hbytes⟩ := forall_mem_cons.mp h
    rw [lossyChars_cons hb, encodeChars, flatMap_cons, encodeChar_ofNat hb, ← encodeChars,
      ih hbytes, singleton_append]

def following (a : UInt8) : List (UInt8 → Bool) :=
  if 0xC2 ≤ a && a ≤ 0xDF then [isContinuation]
  else if 0xE0 ≤ a && a ≤ 0xEF then [isSecondOfThree a, isContinuation]
  else if 0xF0 ≤ a && a ≤ 0xF4 then [isSecondOfFour a, isContinuation, isContinuation]
  else []

def matched : List (UInt8 → Bool) → Bytes → Nat
  | p :: ps, b :: bs => if p b then matched ps bs + 1 else 0
  | _, _ => 0

def leadChar (a : UInt8) (ys : Bytes) : Char :=
  if ys.length < (following a).length then replacement
  else
    match ys with
    | [b] => Char.ofNat (a.toNat % 32 * 64 + payload b)
    | [b, c] => Char.ofNat (a.toNat % 16 * 4096 + payload b * 64 + payload c)
    | [b, c, d] =>
      Char.ofNat (a.toNat % 8 * 262144 + payload b * 4096 + payload c * 64 + payload d)
    | _ => replacement

theorem following_cases (a : UInt8) :
    (0xC2 ≤ a.toNat ∧ a.toNat ≤ 0xDF ∧ following a = [isContinuation]) ∨
    (0xE0 ≤ a.toNat ∧ a.toNat ≤ 0xEF ∧ following a = [isSecondOfThree a, isContinuation]) ∨
    (0xF0 ≤ a.toNat ∧ a.toNat ≤ 0xF4 ∧ following a =
      [isSecondOfFour a, isContinuation, isContinuation]) ∨
    ((a.toNat < 0xC2 ∨ 0xF4 < a.toNat) ∧ following a = []) := by
  unfold following
  simp only [UInt8.le_iff_toNat_le, UInt8.reduceToNat, Bool.and_eq_true, decide_eq_true_eq]
  split
  · rename_i h
    exact .inl ⟨h.1, h.2, rfl⟩
  · split
    · rename_i h
      exact .inr (.inl ⟨h.1, h.2, rfl⟩)
    · split
      · rename_i h
        exact .inr (.inr (.inl ⟨h.1, h.2, rfl⟩))
      · exact .inr (.inr (.inr ⟨by omega, rfl⟩))

theorem lossyChars_lead (ha : ¬a < 0x80) (s : Bytes) :
    lossyChars (a :: s) = leadChar a (s.take (matched (following a) s)) ::
      lossyChars (s.drop (matched (following a) s)) := by
  rw [lossyChars.eq_def]
  simp only [ha, if_false, leadChar]
  by_cases h2 : (0xC2 ≤ a && a ≤ 0xDF) = true
  · have hf : following a = [isContinuation] := by simp [following, h2]
    simp only [h2, hf, if_true]
    cases s with
    | nil => simp [matched, lossyChars]
    | cons b bs => by_cases hb : isContinuation b = true <;> simp [matched, hb]
  by_cases h3 : (0xE0 ≤ a && a ≤ 0xEF) = true
  · have hf : following a = [isSecondOfThree a, isContinuation] := by simp [following, h2, h3]
    simp only [h2, h3, hf, if_true, if_false, Bool.false_eq_true]
    rcases s with _ | ⟨b, _ | ⟨c, cs⟩⟩
    · simp [matched, lossyChars]
    · by_cases hb : isSecondOfThree a b = true <;> simp [matched, hb, lossyChars]
    · by_cases hb : isSecondOfThree a b = true <;> by_cases hc : isContinuation c = true <;>
        simp [matched, hb, hc]
  by_cases h4 : (0xF0 ≤ a && a ≤ 0xF4) = true
  · have hf : following a = [isSecondOfFour a, isContinuation, isContinuation] := by
      simp [following, h2, h3, h4]
    simp only [h2, h3, h4, hf, if_true, if_false, Bool.false_eq_true]
    rcases s with _ | ⟨b, _ | ⟨c, _ | ⟨d, ds⟩⟩⟩
    · simp [matched, lossyChars]
    · by_cases hb : isSecondOfFour a b = true <;> simp [matched, hb, lossyChars]
    · by_cases hb : isSecondOfFour a b = true <;> by_cases hc : isContinuation c = true <;>
        simp [matched, hb, hc, lossyChars]
    · by_cases hb : isSecondOfFour a b = true <;> by_cases hc : isContinuation c = true <;>
        by_cases hd : isContinuation d = true <;> simp [matched, hb, hc, hd]
  · have hf : following a = [] := by simp [following, h2, h3, h4]
    simp [h2, h3, h4, hf, matched]

theorem isContinuation_iff : isContinuation b = true ↔ 0x80 ≤ b.toNat ∧ b.toNat ≤ 0xBF := by
  simp [isContinuation, UInt8.le_iff_toNat_le]

theorem isSecondOfThree_iff : isSecondOfThree a b = true ↔
    0x80 ≤ b.toNat ∧ b.toNat ≤ 0xBF ∧ (a.toNat = 0xE0 → 0xA0 ≤ b.toNat) ∧
      (a.toNat = 0xED → b.toNat ≤ 0x9F) := by
  simp only [isSecondOfThree, isContinuation, ← UInt8.toNat_inj, UInt8.le_iff_toNat_le,
    UInt8.reduceToNat]
  split
  · simp; omega
  · split <;> simp <;> omega

theorem isSecondOfFour_iff : isSecondOfFour a b = true ↔
    0x80 ≤ b.toNat ∧ b.toNat ≤ 0xBF ∧ (a.toNat = 0xF0 → 0x90 ≤ b.toNat) ∧
      (a.toNat = 0xF4 → b.toNat ≤ 0x8F) := by
  simp only [isSecondOfFour, isContinuation, ← UInt8.toNat_inj, UInt8.le_iff_toNat_le,
    UInt8.reduceToNat]
  split
  · simp; omega
  · split <;> simp <;> omega

theorem matched_of_forall₂ (h : Forall₂ (fun p y => p y = true) ps ys) (t : Bytes) :
    matched ps (ys ++ t) = ys.length := by
  induction h with
  | nil => simp [matched]
  | cons hy _ ih => simp [matched, hy, ih]

theorem lossyChars_full (ha : 0xC2 ≤ a.toNat) (hf : following a = ps)
    (h : Forall₂ (fun p y => p y = true) ps ys) (t : Bytes) :
    lossyChars (a :: (ys ++ t)) = leadChar a ys :: lossyChars t := by
  have hlead : ¬a < 0x80 := by
    simp only [UInt8.lt_iff_toNat_lt, UInt8.reduceToNat]
    omega
  rw [lossyChars_lead hlead, hf, matched_of_forall₂ h, take_left, drop_left]

section Full

variable {c d : UInt8}

theorem lossyChars_two (ha : 0xC2 ≤ a.toNat ∧ a.toNat ≤ 0xDF) (hb : isContinuation b = true)
    (s : Bytes) :
    lossyChars (a :: b :: s) = .ofNat (a.toNat % 32 * 64 + payload b) :: lossyChars s := by
  have hf : following a = [isContinuation] := by
    rcases following_cases a with h | h | h | h <;> grind
  have h := lossyChars_full ha.1 hf (.cons hb .nil) s
  rwa [leadChar, hf, if_neg (by simp)] at h

theorem lossyChars_three (ha : 0xE0 ≤ a.toNat ∧ a.toNat ≤ 0xEF) (hb : isSecondOfThree a b = true)
    (hc : isContinuation c = true) (s : Bytes) :
    lossyChars (a :: b :: c :: s) =
      .ofNat (a.toNat % 16 * 4096 + payload b * 64 + payload c) :: lossyChars s := by
  have hf : following a = [isSecondOfThree a, isContinuation] := by
    rcases following_cases a with h | h | h | h <;> grind
  have h := lossyChars_full (by omega) hf (.cons hb (.cons hc .nil)) s
  rwa [leadChar, hf, if_neg (by simp)] at h

theorem lossyChars_four (ha : 0xF0 ≤ a.toNat ∧ a.toNat ≤ 0xF4) (hb : isSecondOfFour a b = true)
    (hc : isContinuation c = true) (hd : isContinuation d = true) (s : Bytes) :
    lossyChars (a :: b :: c :: d :: s) =
      .ofNat (a.toNat % 8 * 262144 + payload b * 4096 + payload c * 64 + payload d) ::
        lossyChars s := by
  have hf : following a = [isSecondOfFour a, isContinuation, isContinuation] := by
    rcases following_cases a with h | h | h | h <;> grind
  have h := lossyChars_full (by omega) hf (.cons hb (.cons hc (.cons hd .nil))) s
  rwa [leadChar, hf, if_neg (by simp)] at h

end Full

theorem lossyChars_encodeChar (c : Char) (s : Bytes) :
    lossyChars (String.utf8EncodeChar c ++ s) = c :: lossyChars s := by
  have hvalid : c.val.toNat.isValidChar := c.valid
  have hofNat : Char.ofNat c.val.toNat = c := by
    rw [Char.ofNat, dif_pos hvalid]
    rfl
  unfold Nat.isValidChar at hvalid
  rw [String.utf8EncodeChar]
  generalize c.val.toNat = v at hvalid hofNat
  subst hofNat
  -- The number of bytes decides which branch reads them, and the arithmetic puts the digits back.
  by_cases h1 : v ≤ 127
  · have hb : UInt8.ofNat v < 0x80 := by rw [UInt8.lt_iff_toNat_lt]; simp; omega
    have hnat : (UInt8.ofNat v).toNat = v := by simp; omega
    rw [if_pos h1, singleton_append, lossyChars_cons hb, hnat]
  rw [if_neg h1]
  have last : (UInt8.ofNat (v % 64 + 128)).toNat = v % 64 + 128 := by simp; omega
  by_cases h2 : v ≤ 2047
  · have ha : (UInt8.ofNat (v / 64 % 32 + 192)).toNat = v / 64 + 192 := by simp; omega
    rw [if_pos h2]
    refine (lossyChars_two (by omega) (isContinuation_iff.mpr (by omega)) s).trans ?_
    rw [payload, ha, last]
    congr 2
    omega
  rw [if_neg h2]
  have middle : (UInt8.ofNat (v / 64 % 64 + 128)).toNat = v / 64 % 64 + 128 := by simp; omega
  by_cases h3 : v ≤ 65535
  · have ha : (UInt8.ofNat (v / 4096 % 16 + 224)).toNat = v / 4096 + 224 := by simp; omega
    rw [if_pos h3]
    refine (lossyChars_three (by omega) (isSecondOfThree_iff.mpr (by omega))
      (isContinuation_iff.mpr (by omega)) s).trans ?_
    rw [payload, payload, ha, middle, last]
    congr 2
    omega
  · have ha : (UInt8.ofNat (v / 262144 % 8 + 240)).toNat = v / 262144 + 240 := by simp; omega
    have hb : (UInt8.ofNat (v / 4096 % 64 + 128)).toNat = v / 4096 % 64 + 128 := by simp; omega
    rw [if_neg h3]
    refine (lossyChars_four (by omega) (isSecondOfFour_iff.mpr (by omega))
      (isContinuation_iff.mpr (by omega)) (isContinuation_iff.mpr (by omega)) s).trans ?_
    rw [payload, payload, payload, ha, hb, middle, last]
    congr 2
    omega

theorem lossyChars_encodeChars (s : Bytes) :
    lossyChars (encodeChars cs ++ s) = cs ++ lossyChars s := by
  induction cs with
  | nil => rfl
  | cons c cs ih =>
    rw [encodeChars, flatMap_cons, append_assoc, lossyChars_encodeChar, ← encodeChars, ih,
      cons_append]

theorem decodeLossy_encode (s : String) : decodeLossy (encode s) = s := by
  have hchars := lossyChars_encodeChars s.toList []
  rw [append_nil, lossyChars.eq_def [], append_nil] at hchars
  rw [decodeLossy, encode_eq, hchars, String.ofList_toList]

/-- What follows the bytes of a character does not belong to it: it is as in a text where the
character ended here, or it begins a character of one byte. -/
def EndsBefore (rest t : Bytes) : Prop := t.head? = rest.head? ∨ ∀ b ∈ t.head?, b < 0x80

theorem not_lt_of_following {p : UInt8 → Bool} (hp : p ∈ following a) (h : p b = true) :
    ¬b < 0x80 := by
  simp only [UInt8.lt_iff_toNat_lt, not_lt]
  rcases following_cases a with hf | hf | hf | hf
  · rw [hf.2.2, mem_singleton] at hp
    subst hp
    exact (isContinuation_iff.mp h).1
  · rw [hf.2.2, mem_cons, mem_singleton] at hp
    rcases hp with rfl | rfl
    · exact (isSecondOfThree_iff.mp h).1
    · exact (isContinuation_iff.mp h).1
  · rw [hf.2.2, mem_cons, mem_cons, mem_singleton] at hp
    rcases hp with rfl | rfl | rfl
    · exact (isSecondOfFour_iff.mp h).1
    · exact (isContinuation_iff.mp h).1
    · exact (isContinuation_iff.mp h).1
  · rw [hf.2] at hp
    cases hp

theorem matched_take (hps : ∀ p ∈ ps, ∀ b, p b = true → ¬b < 0x80) {s t : Bytes}
    (ht : EndsBefore (s.drop (matched ps s)) t) :
    matched ps (s.take (matched ps s) ++ t) = matched ps s := by
  induction ps generalizing s with
  | nil => simp [matched]
  | cons p ps ih =>
    -- Where the next byte is not of the class, what stands in its place is not either.
    have hstop (hs : ∀ b ∈ s.head?, p b = false) (h : EndsBefore s t) :
        matched (p :: ps) t = 0 := by
      cases t with
      | nil => rfl
      | cons b t =>
        have hb : p b = false := by
          rcases h with h | h
          · exact hs b (h ▸ rfl)
          · by_contra hne
            exact hps p mem_cons_self b (by simpa using hne) (h b rfl)
        simp [matched, hb]
    cases s with
    | nil => exact hstop (by simp) ht
    | cons y s =>
      by_cases hy : p y = true
      · simp only [matched, hy, if_true, take_succ_cons, cons_append] at ht ⊢
        rw [ih (fun q hq => hps q (mem_cons_of_mem _ hq)) ht]
      · have hm : matched (p :: ps) (y :: s) = 0 := by simp [matched, hy]
        rw [hm] at ht ⊢
        exact hstop (by simpa using hy) ht

theorem matched_le (ps : List (UInt8 → Bool)) (s : Bytes) : matched ps s ≤ s.length := by
  fun_induction matched ps s with
  | case1 p ps b bs _ ih => simpa using ih
  | case2 | case3 => exact Nat.zero_le _

theorem forall₂_matched (ps : List (UInt8 → Bool)) (s : Bytes) :
    Forall₂ (fun p y => p y = true) (ps.take (matched ps s)) (s.take (matched ps s)) := by
  fun_induction matched ps s with
  | case1 p ps b bs hb ih => exact .cons hb ih
  | case2 | case3 => exact .nil

theorem not_lt_of_forall₂ (hps : ∀ p ∈ ps, ∀ b, p b = true → ¬b < 0x80)
    (h : Forall₂ (fun p y => p y = true) ps ys) :
    ∀ y ∈ ys, ¬y < 0x80 := by
  induction h with
  | nil => simp
  | cons hy _ ih =>
    obtain ⟨hp, hps⟩ := forall_mem_cons.mp hps
    exact forall_mem_cons.mpr ⟨hp _ hy, ih hps⟩

theorem le_toNat_ofNat {n : Nat} (hvalid : n.isValidChar) (h : 0x80 ≤ n) :
    0x80 ≤ (Char.ofNat n).toNat := by
  rw [Char.ofNat, dif_pos hvalid]
  exact h

theorem le_leadChar (h : Forall₂ (fun p y => p y = true) ((following a).take ys.length) ys) :
    0x80 ≤ (leadChar a ys).toNat := by
  unfold leadChar
  by_cases hlen : ys.length < (following a).length
  · rw [if_pos hlen]
    decide
  rw [if_neg hlen]
  rw [take_of_length_le (not_lt.mp hlen)] at h
  rcases following_cases a with ⟨ha, ha', hf⟩ | ⟨ha, ha', hf⟩ | ⟨ha, ha', hf⟩ | ⟨_, hf⟩
  · rw [hf] at h
    rcases h with _ | ⟨hb, _ | _⟩
    exact le_toNat_ofNat (by unfold Nat.isValidChar payload; omega) (by unfold payload; omega)
  · rw [hf] at h
    rcases h with _ | ⟨hb, _ | ⟨hc, _ | _⟩⟩
    rw [isSecondOfThree_iff] at hb
    exact le_toNat_ofNat (by unfold Nat.isValidChar payload; omega) (by unfold payload; omega)
  · rw [hf] at h
    rcases h with _ | ⟨hb, _ | ⟨hc, _ | ⟨hd, _ | _⟩⟩⟩
    rw [isSecondOfFour_iff] at hb
    rw [isContinuation_iff] at hc hd
    exact le_toNat_ofNat (by unfold Nat.isValidChar payload; omega) (by unfold payload; omega)
  · rw [hf] at h
    cases h
    exact (by decide : 0x80 ≤ replacement.toNat)

/-- A byte that is no character of its own, and the bytes that are read with it, make one character
that is none of one byte. -/
theorem lossyChars_cons_of_le (ha : ¬a < 0x80) (s : Bytes) :
    ∃ (c : Char) (ys rest : Bytes), s = ys ++ rest ∧ (∀ y ∈ ys, ¬y < 0x80) ∧ 0x80 ≤ c.toNat ∧
      ∀ t, EndsBefore rest t → lossyChars (a :: (ys ++ t)) = c :: lossyChars t := by
  have hys := forall₂_matched (following a) s
  have hlen : (s.take (matched (following a) s)).length = matched (following a) s :=
    length_take_of_le (matched_le _ _)
  refine ⟨leadChar a (s.take (matched (following a) s)), s.take (matched (following a) s),
    s.drop (matched (following a) s), (take_append_drop _ _).symm, ?_, ?_, ?_⟩
  · exact not_lt_of_forall₂ (fun p hp b => not_lt_of_following (mem_of_mem_take hp)) hys
  · exact le_leadChar (by rwa [hlen])
  · intro t ht
    have hm := matched_take (fun p hp b => not_lt_of_following hp) ht
    rw [lossyChars_lead ha, hm, take_left' hlen, drop_left' hlen]

end Utf8

end ProtobufSchema

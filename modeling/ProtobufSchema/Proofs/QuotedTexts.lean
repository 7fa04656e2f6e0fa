import ProtobufSchema.Proofs.PrintedTrees
import ProtobufSchema.Proofs.TextBytes

/-! A string literal in the notation of byte strings is read back as its bytes, and one of any other
form is passed over in the same way once it is written as text. -/

namespace ProtobufSchema

open List

variable {s u : Bytes}

namespace Utf8

def mended (s : Bytes) : Bytes := encodeChars (lossyChars s)

theorem encodeChars_append (cs ds : List Char) :
    encodeChars (cs ++ ds) = encodeChars cs ++ encodeChars ds := flatMap_append

theorem encodeChars_cons (c : Char) (cs : List Char) :
    encodeChars (c :: cs) = String.utf8EncodeChar c ++ encodeChars cs := flatMap_cons

theorem lossyChars_append (h : ∀ b ∈ u, b < 0x80) (t : Bytes) :
    lossyChars (u ++ t) = lossyChars u ++ lossyChars t := by
  induction u with
  | nil => rw [lossyChars.eq_def [], nil_append, nil_append]
  | cons b u ih =>
    obtain ⟨hb, hu⟩ := forall_mem_cons.mp h
    rw [cons_append, lossyChars_cons hb, lossyChars_cons hb, ih hu, cons_append]

def BeginsLike (s t : Bytes) : Prop := t.head? = s.head? ∨ ∀ b ∈ t.head?, ¬b < 0x80

theorem beginsLike_mended (hs : s ≠ []) (t : Bytes) : BeginsLike s (mended s ++ t) := by
  cases s with
  | nil => exact absurd rfl hs
  | cons a s =>
    by_cases ha : a < 0x80
    · left
      rw [mended, lossyChars_cons ha, encodeChars_cons, encodeChar_ofNat ha]
      rfl
    · right
      obtain ⟨c, ys, rest, rfl, -, hc, hread⟩ := lossyChars_cons_of_le ha s
      rw [mended, hread rest (.inl rfl), encodeChars_cons]
      intro b hb
      obtain ⟨y, more, hy⟩ := exists_cons_of_ne_nil (String.utf8EncodeChar_ne_nil)
      rw [hy] at hb
      cases hb
      exact UInt8.not_lt.mpr (le_of_mem_encodeChar hc (hy ▸ mem_cons_self))

end Utf8

namespace Scan

open Utf8

variable {b quote : UInt8} {out r : Bytes}

section Quoted

variable {quote b e : UInt8} {s tail r out more : Bytes}

theorem quoted_close (hq : quote ≠ 0x0A) : quoted quote (quote :: s) = .ok [] s := by
  rw [quoted.eq_def]
  simp [hq]

theorem quoted_plain (hn : b ≠ 0x0A) (hq : b ≠ quote) (hb : b ≠ 0x5C)
    (h : quoted quote s = .ok more r) : quoted quote (b :: s) = .ok (b :: more) r := by
  rw [quoted.eq_def]
  simp [hn, hq, hb, h]

theorem quoted_escape (hq : quote ≠ 0x5C) (he : escapeOf e tail = .ok out s)
    (h : quoted quote s = .ok more r) : quoted quote (0x5C :: e :: tail) = .ok (out ++ more) r := by
  rw [quoted.eq_def]
  simp only [hq.symm, if_true, if_false, show (0x5C : UInt8) ≠ 0x0A by decide]
  split
  · rename_i he'
    rw [he] at he'
    cases he'
  · rename_i he'
    rw [he] at he'
    cases he'
    simp [h]

theorem quoted_cases (h : quoted quote s = .ok out r) : s = quote :: r ∨
    (∃ b s' more, s = b :: s' ∧ b ≠ 0x0A ∧ b ≠ quote ∧ b ≠ 0x5C ∧ quoted quote s' = .ok more r) ∨
    ∃ e tail out' s' more, s = 0x5C :: e :: tail ∧ escapeOf e tail = .ok out' s' ∧
      quoted quote s' = .ok more r := by
  rw [quoted.eq_def] at h
  split at h
  · cases h
  rename_i b rest
  split at h
  · cases h
  rename_i hn
  split at h
  · rename_i hq
    cases h
    exact .inl (by rw [hq])
  rename_i hq
  split at h
  · rename_i hb
    subst hb
    split at h
    · cases h
    rename_i e tail
    split at h
    · cases h
    rename_i out' s' he
    split at h <;> cases h
    rename_i more hmore
    exact .inr (.inr ⟨e, tail, out', s', more, rfl, he, hmore⟩)
  · rename_i hb
    split at h <;> cases h
    rename_i more hmore
    exact .inr (.inl ⟨b, rest, more, rfl, hn, hq, hb, hmore⟩)

end Quoted

section Escapes

variable {e : UInt8} {tail s t out : Bytes} {count acc n : Nat}
variable {p : UInt8 → Bool}

theorem lt_of_digitIn? {d : Nat} (h : Numeral.digitIn? 16 (.ofNat b.toNat) = some d) :
    b < 0x80 := by
  have hall : ∀ b : UInt8, (Numeral.digitIn? 16 (.ofNat b.toNat)).isSome = true → b < 0x80 := by
    decide +kernel
  exact hall b (by rw [h]; rfl)

theorem lt_of_isHexDigit (h : isHexDigit b = true) : b < 0x80 := by
  decide +kernel +revert

theorem isHexDigit_of_isOctalDigit (h : isOctalDigit b = true) : isHexDigit b = true := by
  decide +kernel +revert

theorem codePoint_local (h : codePoint count acc tail = .ok n s) :
    ∃ u, tail = u ++ s ∧ (∀ b ∈ u, b < 0x80) ∧ ∀ t, codePoint count acc (u ++ t) = .ok n t := by
  induction count generalizing acc tail with
  | zero =>
    cases h
    exact ⟨[], rfl, by simp, fun t => rfl⟩
  | succ count ih =>
    cases tail with
    | nil => cases h
    | cons b rest =>
      simp only [codePoint] at h
      split at h
      · cases h
      · rename_i d hd
        obtain ⟨u, rfl, hu, hread⟩ := ih h
        refine ⟨b :: u, rfl, forall_mem_cons.mpr ⟨lt_of_digitIn? hd, hu⟩, fun t => ?_⟩
        simp only [cons_append, codePoint, hd]
        exact hread t

theorem unicodeEscape_local (h : unicodeEscape count tail = .ok out s) :
    ∃ u, tail = u ++ s ∧ (∀ b ∈ u, b < 0x80) ∧ ∀ t, unicodeEscape count (u ++ t) = .ok out t := by
  simp only [unicodeEscape, bind, EStateM.bind] at h ⊢
  cases hc : codePoint count 0 tail with
  | error e t => rw [hc] at h; cases h
  | ok n s' =>
    rw [hc] at h
    dsimp only at h
    obtain ⟨u, rfl, hu, hread⟩ := codePoint_local hc
    by_cases hn : n.isValidChar
    · rw [if_pos hn] at h
      cases h
      refine ⟨u, rfl, hu, fun t => ?_⟩
      rw [hread t]
      dsimp only
      rw [if_pos hn]
      rfl
    · rw [if_neg hn] at h
      cases h

theorem takeWhile_eq_nil (hp : ∀ b, p b = true → b < 0x80) (ht : BeginsLike s t)
    (hs : ∀ b ∈ s.head?, p b = false) (count : Nat) : (t.take count).takeWhile p = [] := by
  cases t with
  | nil => simp
  | cons y t =>
    have hy : p y = false := by
      rcases ht with ht | ht
      · exact hs y (ht ▸ rfl)
      · by_contra hne
        exact ht y rfl (hp y (by simpa using hne))
    cases count with
    | zero => rfl
    | succ count => simp [hy]

theorem upTo_local (hp : ∀ b, p b = true → b < 0x80) (h : upTo count p tail = .ok out s) :
    tail = out ++ s ∧ (∀ b ∈ out, p b = true) ∧
      ∀ t, BeginsLike s t → upTo count p (out ++ t) = .ok out t := by
  induction count generalizing tail out with
  | zero =>
    cases h
    exact ⟨rfl, by simp, fun t _ => rfl⟩
  | succ count ih =>
    have hstop (hs : ∀ b ∈ tail.head?, p b = false) (hout : out = []) (hrest : s = tail) :
        tail = out ++ s ∧ (∀ b ∈ out, p b = true) ∧
          ∀ t, BeginsLike s t → upTo (count + 1) p (out ++ t) = .ok out t := by
      subst hout hrest
      refine ⟨rfl, by simp, fun t ht => ?_⟩
      simp [upTo, takeWhile_eq_nil hp ht hs]
    cases tail with
    | nil =>
      cases h
      exact hstop (by simp) (by simp) (by simp)
    | cons b tail =>
      by_cases hb : p b = true
      · simp only [upTo, take_succ_cons, takeWhile_cons, hb] at h
        cases h
        obtain ⟨htail, hout, hread⟩ := ih (rfl : upTo count p tail = _)
        refine ⟨congrArg (b :: ·) htail, forall_mem_cons.mpr ⟨hb, hout⟩, fun t ht => ?_⟩
        have := hread t ht
        simp only [upTo, EStateM.Result.ok.injEq] at this
        simp [upTo, hb, this.1]
      · simp only [upTo, take_succ_cons, takeWhile_cons, hb] at h
        cases h
        exact hstop (by simpa using hb) rfl rfl

theorem lt_of_plainEscape? {o : UInt8} (h : plainEscape? e = some o) : e < 0x80 := by
  have hall : ∀ e, (plainEscape? e).isSome = true → e < 0x80 := by decide +kernel
  exact hall e (by rw [h]; rfl)

theorem escapeOf_local (h : escapeOf e tail = .ok out s) :
    e < 0x80 ∧ ∃ u, tail = u ++ s ∧ (∀ b ∈ u, b < 0x80) ∧
      ∀ t, BeginsLike s t → escapeOf e (u ++ t) = .ok out t := by
  unfold escapeOf at h ⊢
  cases hp : plainEscape? e with
  | some o =>
    rw [hp] at h
    cases h
    exact ⟨lt_of_plainEscape? hp, [], rfl, by simp, fun t _ => rfl⟩
  | none =>
    rw [hp] at h
    by_cases ho : isOctalDigit e = true
    · rw [if_pos ho] at h ⊢
      have hlt (b : UInt8) (hb : isOctalDigit b = true) : b < 0x80 :=
        lt_of_isHexDigit (isHexDigit_of_isOctalDigit hb)
      cases hdigits : upTo 2 isOctalDigit tail with
      | error fault s' => cases hdigits
      | ok more s' =>
        simp only [bind, EStateM.bind, hdigits] at h ⊢
        cases h
        obtain ⟨htail, hu, hread⟩ := upTo_local hlt hdigits
        refine ⟨hlt e ho, more, htail, fun b hb => hlt b (hu b hb), fun t ht => ?_⟩
        rw [hread t ht]
        rfl
    rw [if_neg ho] at h ⊢
    by_cases hx : (e = 0x78 || e = 0x58) = true
    · rw [if_pos hx] at h ⊢
      cases hdigits : upTo 2 isHexDigit tail with
      | error fault s' => cases hdigits
      | ok more s' =>
        obtain ⟨htail, hu, hread⟩ := upTo_local (fun b => lt_of_isHexDigit) hdigits
        simp only [bind, EStateM.bind, hdigits] at h ⊢
        by_cases hmore : more.isEmpty = true
        · rw [hmore] at h
          cases h
        · rw [Bool.not_eq_true _ |>.mp hmore] at h
          cases h
          refine ⟨?_, more, htail, fun b hb => lt_of_isHexDigit (hu b hb), fun t ht => ?_⟩
          · simp only [Bool.or_eq_true, decide_eq_true_eq] at hx
            rcases hx with rfl | rfl <;> decide
          · rw [hread t ht]
            dsimp only
            rw [Bool.not_eq_true _ |>.mp hmore]
            rfl
    rw [if_neg hx] at h ⊢
    by_cases hu : e = 0x75
    · rw [if_pos hu] at h ⊢
      obtain ⟨u, htail, hlt, hread⟩ := unicodeEscape_local h
      exact ⟨hu ▸ by decide, u, htail, hlt, fun t _ => hread t⟩
    rw [if_neg hu] at h ⊢
    by_cases hU : e = 0x55
    · rw [if_pos hU] at h ⊢
      obtain ⟨u, htail, hlt, hread⟩ := unicodeEscape_local h
      exact ⟨hU ▸ by decide, u, htail, hlt, fun t _ => hread t⟩
    · rw [if_neg hU] at h
      cases h

end Escapes

/-- A literal that goes on with given characters up to its closing quote, whatever follows. -/
structure IsLiteral (quote : UInt8) (cs : List Char) : Prop where
  ends : ∃ body, cs = body ++ [Char.ofNat quote.toNat]
  reads : ∀ t, ∃ out, quoted quote (encodeChars cs ++ t) = .ok out t

theorem ne_of_not_lt {a : UInt8} (ha : ¬a < 0x80) (hb : b < 0x80) : a ≠ b := by
  rintro rfl
  exact ha hb

theorem isQuote_cases (h : isQuote quote = true) : quote < 0x80 ∧ quote ≠ 0x0A ∧ quote ≠ 0x5C := by
  simp only [isQuote, Bool.or_eq_true, beq_iff_eq] at h
  rcases h with rfl | rfl <;> decide

section Multibyte

variable {quote : UInt8} (hquote : quote < 0x80)
include hquote

variable {ys : Bytes}

theorem quoted_append (hys : ∀ y ∈ ys, ¬y < 0x80) (h : quoted quote s = .ok out r) :
    ∃ out', quoted quote (ys ++ s) = .ok out' r := by
  induction ys with
  | nil => exact ⟨out, h⟩
  | cons y ys ih =>
    obtain ⟨hy, hys⟩ := forall_mem_cons.mp hys
    obtain ⟨out', hout'⟩ := ih hys
    exact ⟨_, quoted_plain (ne_of_not_lt hy (by decide)) (ne_of_not_lt hy hquote)
      (ne_of_not_lt hy (by decide)) hout'⟩

theorem quoted_of_append (hys : ∀ y ∈ ys, ¬y < 0x80)
    (h : quoted quote (ys ++ s) = .ok out r) : ∃ out', quoted quote s = .ok out' r := by
  induction ys generalizing out with
  | nil => exact ⟨out, h⟩
  | cons y ys ih =>
    obtain ⟨hy, hys⟩ := forall_mem_cons.mp hys
    rcases quoted_cases h with hs | ⟨_, _, more, hs, -, -, -, hmore⟩ | ⟨_, _, _, _, _, hs, -, -⟩
    · cases hs
      exact absurd hquote hy
    · cases hs
      exact ih hys hmore
    · rw [(cons.inj hs).1] at hy
      exact absurd (by decide) hy

end Multibyte

namespace IsLiteral

variable {quote : UInt8} {cs : List Char}

theorem close (hq : isQuote quote = true) : IsLiteral quote [.ofNat quote.toNat] := by
  obtain ⟨hlt, hnewline, -⟩ := isQuote_cases hq
  refine ⟨⟨[], rfl⟩, fun t => ⟨[], ?_⟩⟩
  rw [encodeChars_cons, encodeChar_ofNat hlt]
  exact quoted_close hnewline

theorem plain (hb : b < 0x80) (hnewline : b ≠ 0x0A) (hquote : b ≠ quote) (hbackslash : b ≠ 0x5C)
    (h : IsLiteral quote cs) : IsLiteral quote (.ofNat b.toNat :: cs) := by
  refine ⟨?_, fun t => ?_⟩
  · obtain ⟨body, rfl⟩ := h.ends
    exact ⟨.ofNat b.toNat :: body, rfl⟩
  · obtain ⟨out, hout⟩ := h.reads t
    rw [encodeChars_cons, encodeChar_ofNat hb]
    exact ⟨_, quoted_plain hnewline hquote hbackslash hout⟩

theorem multibyte {c : Char} (hquote : quote < 0x80) (hc : 0x80 ≤ c.toNat)
    (h : IsLiteral quote cs) : IsLiteral quote (c :: cs) := by
  refine ⟨?_, fun t => ?_⟩
  · obtain ⟨body, rfl⟩ := h.ends
    exact ⟨c :: body, rfl⟩
  · obtain ⟨out, hout⟩ := h.reads t
    rw [encodeChars_cons, append_assoc]
    exact quoted_append hquote (fun y hy => UInt8.not_lt.mpr (le_of_mem_encodeChar hc hy)) hout

theorem escape {e : UInt8} (hbackslash : quote ≠ 0x5C) (hu : ∀ b ∈ 0x5C :: e :: u, b < 0x80)
    (he : ∀ t, escapeOf e (u ++ (encodeChars cs ++ t)) = .ok out (encodeChars cs ++ t))
    (h : IsLiteral quote cs) : IsLiteral quote (lossyChars (0x5C :: e :: u) ++ cs) := by
  refine ⟨?_, fun t => ?_⟩
  · obtain ⟨body, rfl⟩ := h.ends
    exact ⟨lossyChars (0x5C :: e :: u) ++ body, (append_assoc _ _ _).symm⟩
  · obtain ⟨more, hmore⟩ := h.reads t
    have hbytes := encode_decodeLossy hu
    rw [decodeLossy, encode_ofList] at hbytes
    rw [encodeChars_append, hbytes, append_assoc]
    exact ⟨_, quoted_escape hbackslash (he t) hmore⟩

end IsLiteral

theorem length_lt_behind (b : UInt8) (xs ys : Bytes) : ys.length < (b :: (xs ++ ys)).length := by
  rw [length_cons, length_append]
  omega

/-- What was read up to a closing quote is a literal also when it is written as the text it is read
as. -/
theorem isLiteral_of_quoted (hq : isQuote quote = true) (h : quoted quote s = .ok out r) :
    ∃ body, s = body ++ r ∧ body ≠ [] ∧ IsLiteral quote (lossyChars body) ∧
      ∀ t, lossyChars (body ++ t) = lossyChars body ++ lossyChars t := by
  obtain ⟨hlt, -, hbackslash⟩ := isQuote_cases hq
  induction hn : s.length using Nat.strongRecOn generalizing s out with
  | _ n ih =>
    subst hn
    rcases quoted_cases h with rfl | ⟨b, s', more, rfl, hnb, hqb, hbb, hmore⟩ |
      ⟨e, tail, out', s', more, rfl, he, hmore⟩
    · have hchars : lossyChars [quote] = [.ofNat quote.toNat] := by
        rw [lossyChars_cons hlt, lossyChars.eq_def []]
      exact ⟨[quote], rfl, by simp, hchars ▸ .close hq, lossyChars_append (by simpa using hlt)⟩
    · by_cases hb : b < 0x80
      · obtain ⟨body, rfl, -, hbody, hsplit⟩ := ih s'.length (by simp) hmore rfl
        refine ⟨b :: body, rfl, by simp, ?_, fun t => ?_⟩
        · exact lossyChars_cons hb body ▸ hbody.plain hb hnb hqb hbb
        · rw [cons_append, lossyChars_cons hb, lossyChars_cons hb, hsplit, cons_append]
      · obtain ⟨c, ys, rest, rfl, hys, hc, hread⟩ := lossyChars_cons_of_le hb s'
        obtain ⟨more', hmore'⟩ := quoted_of_append hlt hys hmore
        obtain ⟨body, rfl, hne, hbody, hsplit⟩ :=
          ih rest.length (length_lt_behind b ys rest) hmore' rfl
        have hends (t : Bytes) : EndsBefore (body ++ r) (body ++ t) := by
          obtain ⟨y, body, rfl⟩ := exists_cons_of_ne_nil hne
          exact .inl rfl
        have hchars : lossyChars (b :: (ys ++ body)) = c :: lossyChars body :=
          hread body (by simpa using hends [])
        refine ⟨b :: (ys ++ body), by simp, by simp, hchars ▸ hbody.multibyte hlt hc, fun t => ?_⟩
        rw [hchars, cons_append, append_assoc, hread _ (hends t), hsplit, cons_append]
    · obtain ⟨hle, u, rfl, hu, hescape⟩ := escapeOf_local he
      obtain ⟨body, rfl, hne, hbody, hsplit⟩ :=
        ih s'.length (length_lt_behind 0x5C (e :: u) s') hmore rfl
      have hprefix : ∀ b ∈ 0x5C :: e :: u, b < 0x80 := by simpa [hle] using hu
      have hbegins (t : Bytes) : BeginsLike (body ++ r) (mended body ++ t) := by
        have := beginsLike_mended hne t
        obtain ⟨y, body, rfl⟩ := exists_cons_of_ne_nil hne
        exact this
      refine ⟨0x5C :: e :: u ++ body, by simp, by simp, ?_, fun t => ?_⟩
      · rw [lossyChars_append hprefix]
        exact hbody.escape hbackslash hprefix fun t => hescape _ (hbegins t)
      · rw [append_assoc, lossyChars_append hprefix, hsplit, lossyChars_append hprefix,
          append_assoc]

theorem padded_octal : ∀ n < 256, (encodeChars (Numeral.padded 8 3 n)).length = 3 ∧
    (encodeChars (Numeral.padded 8 3 n)).all isOctalDigit = true ∧
      value 8 (encodeChars (Numeral.padded 8 3 n)) = n := by
  decide +kernel

theorem escapeOf_octal {d : UInt8} {ds : Bytes} (hd : isOctalDigit d = true) (hlen : ds.length = 2)
    (hds : ∀ x ∈ ds, isOctalDigit x = true) (t : Bytes) :
    escapeOf d (ds ++ t) = .ok [(value 8 (d :: ds)).toUInt8] t := by
  have hall : ∀ d, isOctalDigit d = true → plainEscape? d = none := by decide +kernel
  have hplain := hall d hd
  have hup : upTo 2 isOctalDigit (ds ++ t) = .ok ds t := by
    have htake : ((ds ++ t).take 2).takeWhile isOctalDigit = ds := by
      rw [take_left' hlen]
      exact takeWhile_eq_self_iff.mpr hds
    simp [upTo, htake]
  unfold escapeOf
  rw [hplain]
  rw [if_pos hd]
  simp only [bind, EStateM.bind, hup]
  rfl

def shortEscapes : List (UInt8 × UInt8) :=
  [(0x0A, 0x6E), (0x0D, 0x72), (0x09, 0x74), (0x22, 0x22), (0x27, 0x27), (0x5C, 0x5C)]

theorem shortEscapes_read : ∀ x ∈ shortEscapes,
    encodeChars (Escape.byte x.1) = [0x5C, x.2] ∧ plainEscape? x.2 = some x.1 := by
  intro x hx
  simp only [shortEscapes, mem_cons, not_mem_nil, or_false] at hx
  rcases hx with rfl | rfl | rfl | rfl | rfl | rfl <;> exact ⟨rfl, rfl⟩

theorem escapeOf_byte (b : UInt8) :
    (encodeChars (Escape.byte b) = [b] ∧ b ≠ 0x0A ∧ b ≠ 0x22 ∧ b ≠ 0x5C) ∨
    ∃ e u, encodeChars (Escape.byte b) = 0x5C :: e :: u ∧ ∀ t, escapeOf e (u ++ t) = .ok [b] t := by
  by_cases hshort : b ∈ shortEscapes.map (·.1)
  · obtain ⟨⟨_, e⟩, hmem, rfl⟩ := mem_map.mp hshort
    obtain ⟨hbytes, hplain⟩ := shortEscapes_read _ hmem
    refine .inr ⟨e, [], hbytes, fun t => ?_⟩
    unfold escapeOf
    rw [hplain]
    rfl
  simp only [shortEscapes, map_cons, map_nil, mem_cons, not_mem_nil, or_false, not_or] at hshort
  obtain ⟨hn, hr, ht, hq, ha, hb⟩ := hshort
  unfold Escape.byte
  rw [if_neg hn, if_neg hr, if_neg ht, if_neg hq, if_neg ha, if_neg hb]
  by_cases hp : (0x20 ≤ b && b ≤ 0x7E) = true
  · rw [if_pos hp]
    have hall : ∀ b : UInt8, (0x20 ≤ b && b ≤ 0x7E) = true → b < 0x80 := by decide +kernel
    have hlt := hall b hp
    refine .inl ⟨?_, hn, hq, hb⟩
    rw [encodeChars_cons, encodeChar_ofNat hlt]
    rfl
  · rw [if_neg hp]
    right
    obtain ⟨hlen, hall, hvalue⟩ := padded_octal b.toNat b.toNat_lt
    generalize hds : encodeChars (Numeral.padded 8 3 b.toNat) = ds at hlen hall hvalue
    obtain ⟨d, ds, rfl⟩ := exists_cons_of_length_pos (l := ds) (by omega)
    rw [all_cons, Bool.and_eq_true, all_eq_true] at hall
    refine ⟨d, ds, ?_, fun t => ?_⟩
    · rw [encodeChars_cons, hds]
      rfl
    · have hbyte : (value 8 (d :: ds)).toUInt8 = b := by
        rw [hvalue]
        exact UInt8.ofNat_toNat
      rw [escapeOf_octal hall.1 (by simpa using hlen) hall.2, hbyte]

theorem quoted_bytes (content r : Bytes) :
    quoted 0x22 (encode (Escape.bytes content) ++ 0x22 :: r) = .ok content r := by
  rw [Escape.bytes, encode_ofList]
  induction content with
  | nil => exact quoted_close (by decide)
  | cons b content ih =>
    rw [flatMap_cons, encodeChars_append, append_assoc]
    rcases escapeOf_byte b with ⟨hb, hnewline, hquote, hbackslash⟩ | ⟨e, u, hb, he⟩
    · rw [hb]
      exact quoted_plain hnewline hquote hbackslash ih
    · rw [hb]
      exact quoted_escape (by decide) (he _) ih

end Scan

end ProtobufSchema

import Mathlib.Data.List.DropRight
import ProtobufSchema.Proofs.QuotedTexts

/-! What stands between two braces is kept without the blanks around it; written again, it is read
to the same closing brace. -/

namespace ProtobufSchema

open List

variable {c : Char}

namespace Blank

theorem trimChars_cons (hc : isBlank c = true) (cs : List Char) :
    trimChars (c :: cs) = trimChars cs := by
  rw [trimChars, dropWhile_cons_of_pos hc, ← trimChars]

theorem trimChars_concat (hc : isBlank c = true) (cs : List Char) :
    trimChars (cs ++ [c]) = trimChars cs := by
  rw [trimChars, dropWhile_append, trimChars]
  by_cases hempty : (cs.dropWhile isBlank).isEmpty = true
  · rw [dropWhile_cons_of_pos hc, isEmpty_iff.mp hempty]
    rfl
  · rw [if_neg hempty, reverse_append, reverse_singleton, singleton_append,
      dropWhile_cons_of_pos hc]

theorem trimChars_trimChars (cs : List Char) : trimChars (trimChars cs) = trimChars cs := by
  have hfront : (trimChars cs).dropWhile isBlank = trimChars cs := by
    have hprefix : trimChars cs <+: cs.dropWhile isBlank := rdropWhile_prefix isBlank _
    obtain ⟨t, ht⟩ := hprefix
    cases htrim : trimChars cs with
    | nil => rfl
    | cons x xs =>
      rw [htrim] at ht
      refine dropWhile_cons_of_neg fun hx => ?_
      have hself := congrArg (dropWhile isBlank) ht
      rw [dropWhile_idempotent, ← ht, cons_append, dropWhile_cons_of_pos hx] at hself
      have hlen := (dropWhile_sublist isBlank (l := xs ++ t)).length_le
      rw [hself] at hlen
      simp at hlen
  rw [trimChars, hfront]
  exact rdropWhile_idempotent isBlank _

end Blank

namespace Scan

open Utf8

variable {s s' r : Bytes} {text : String} {depth : Nat}

def IsInner (c : Char) : Prop := c ≠ '{' ∧ c ≠ '}' ∧ c ≠ '"' ∧ c ≠ '\''

inductive Enclosed : Nat → List Char → Prop
  | nil : Enclosed 1 []
  | opening {depth : Nat} {cs : List Char} (h : Enclosed (depth + 1) cs) :
    Enclosed depth ('{' :: cs)
  | closing {depth : Nat} {cs : List Char} (h : Enclosed (depth + 1) cs) :
    Enclosed (depth + 2) ('}' :: cs)
  | literal {depth : Nat} {quote : UInt8} {body cs : List Char} (hq : isQuote quote = true)
    (hbody : IsLiteral quote body) (h : Enclosed depth cs) :
    Enclosed depth (Char.ofNat quote.toNat :: (body ++ cs))
  | inner {depth : Nat} {c : Char} {cs : List Char} (hc : IsInner c) (h : Enclosed depth cs) :
    Enclosed depth (c :: cs)

theorem closingBrace_cases (h : closingBrace depth s = .ok () r) :
    (depth ≤ 1 ∧ r = s ∧ s.head? = some 0x7D) ∨
    (∃ s', s = 0x7B :: s' ∧ closingBrace (depth + 1) s' = .ok () r) ∨
    (∃ s', s = 0x7D :: s' ∧ 1 < depth ∧ closingBrace (depth - 1) s' = .ok () r) ∨
    (∃ b s' out s'', s = b :: s' ∧ isQuote b = true ∧ quoted b s' = .ok out s'' ∧
      closingBrace depth s'' = .ok () r) ∨
    ∃ b s', s = b :: s' ∧ b ≠ 0x7B ∧ b ≠ 0x7D ∧ isQuote b = false ∧
    closingBrace depth s' = .ok () r := by
  rw [closingBrace.eq_def] at h
  split at h
  · cases h
  rename_i b rest
  split at h
  · rename_i hb
    subst hb
    exact .inr (.inl ⟨rest, rfl, h⟩)
  rename_i ho
  split at h
  · rename_i hb
    subst hb
    split at h
    · rename_i hdepth
      cases h
      exact .inl ⟨hdepth, rfl, rfl⟩
    · rename_i hdepth
      exact .inr (.inr (.inl ⟨rest, rfl, not_le.mp hdepth, h⟩))
  rename_i hc
  split at h
  · rename_i hq
    split at h
    · cases h
    · rename_i out s'' hout
      exact .inr (.inr (.inr (.inl ⟨b, rest, out, s'', rfl, hq, hout, h⟩)))
  · rename_i hq
    exact .inr (.inr (.inr (.inr ⟨b, rest, rfl, ho, hc, by simpa using hq, h⟩)))

section Steps

variable {depth : Nat} {b : UInt8} {s : Bytes}

theorem closingBrace_opening : closingBrace depth (0x7B :: s) = closingBrace (depth + 1) s := by
  rw [closingBrace.eq_def]
  simp

theorem closingBrace_closing :
    closingBrace (depth + 2) (0x7D :: s) = closingBrace (depth + 1) s := by
  rw [closingBrace.eq_def]
  simp

theorem closingBrace_stop : closingBrace 1 (0x7D :: s) = .ok () (0x7D :: s) := by
  rw [closingBrace.eq_def]
  simp

theorem closingBrace_inner (ho : b ≠ 0x7B) (hc : b ≠ 0x7D) (hq : isQuote b = false) :
    closingBrace depth (b :: s) = closingBrace depth s := by
  rw [closingBrace.eq_def]
  simp [ho, hc, hq]

theorem closingBrace_literal (hq : isQuote b = true) {out : Bytes} (h : quoted b s = .ok out s') :
    closingBrace depth (b :: s) = closingBrace depth s' := by
  have hbrace : b ≠ 0x7B ∧ b ≠ 0x7D := by
    simp only [isQuote, Bool.or_eq_true, beq_iff_eq] at hq
    rcases hq with rfl | rfl <;> decide
  rw [closingBrace.eq_def]
  simp only [hbrace.1, hbrace.2, hq, if_true, if_false]
  split
  · rename_i h'
    rw [h] at h'
    cases h'
  · rename_i h'
    rw [h] at h'
    cases h'
    rfl

end Steps

theorem IsInner.ne_quote (h : IsInner c) {quote : UInt8} (hq : isQuote quote = true) :
    c ≠ .ofNat quote.toNat := by
  simp only [isQuote, Bool.or_eq_true, beq_iff_eq] at hq
  rcases hq with rfl | rfl
  · exact h.2.2.1
  · exact h.2.2.2

theorem isInner_of_le (h : 0x80 ≤ c.toNat) : IsInner c := by
  refine ⟨?_, ?_, ?_, ?_⟩ <;> (rintro rfl; revert h; decide)

theorem isInner_of_isBlank (h : Blank.isBlank c = true) : IsInner c := by
  refine ⟨?_, ?_, ?_, ?_⟩ <;> (rintro rfl; revert h; decide)

theorem isInner_ofNat {b : UInt8} (h : b < 0x80) (ho : b ≠ 0x7B) (hc : b ≠ 0x7D)
    (hq : isQuote b = false) : IsInner (.ofNat b.toNat) := by
  have hnat := toNat_ofNat_of_lt h
  have hne {x : UInt8} {c : Char} (hx : b ≠ x) (hc : c.toNat = x.toNat) : .ofNat b.toNat ≠ c := by
    rintro rfl
    exact hx (UInt8.toNat_inj.mp (hnat.symm.trans hc))
  simp only [isQuote, Bool.or_eq_false_iff, beq_eq_false_iff_ne] at hq
  exact ⟨hne ho rfl, hne hc rfl, hne hq.1 rfl, hne hq.2 rfl⟩

def isInnerByte (b : UInt8) : Bool := b != 0x7B && b != 0x7D && !isQuote b

theorem isInnerByte_of_not_lt : ∀ b : UInt8, ¬b < 0x80 → isInnerByte b = true := by decide +kernel

theorem closingBrace_run {raw : Bytes} (h : ∀ b ∈ raw, isInnerByte b = true) (depth : Nat)
    (s : Bytes) : closingBrace depth (raw ++ s) = closingBrace depth s := by
  induction raw with
  | nil => rfl
  | cons b raw ih =>
    obtain ⟨hb, hraw⟩ := forall_mem_cons.mp h
    simp only [isInnerByte, Bool.and_eq_true, bne_iff_ne, Bool.not_eq_true'] at hb
    rw [cons_append, closingBrace_inner hb.1.1 hb.1.2 hb.2, ih hraw]

theorem enclosed_of_closingBrace (hdepth : 0 < depth) (h : closingBrace depth s = .ok () r) :
    ∃ raw, s = raw ++ r ∧ r.head? = some 0x7D ∧ Enclosed depth (lossyChars raw) := by
  induction hn : s.length using Nat.strongRecOn generalizing s depth with
  | _ n ih =>
    subst hn
    rcases closingBrace_cases h with ⟨hle, rfl, hhead⟩ | ⟨s', rfl, h'⟩ | ⟨s', rfl, hlt, h'⟩ |
      ⟨b, s', out, s'', rfl, hq, hquoted, h'⟩ | ⟨b, s', rfl, ho, hc, hq, h'⟩
    · obtain rfl : depth = 1 := by omega
      exact ⟨[], rfl, hhead, by rw [lossyChars.eq_def]; exact .nil⟩
    · obtain ⟨raw, rfl, hhead, henclosed⟩ := ih s'.length (by simp) (by omega) h' rfl
      exact ⟨0x7B :: raw, rfl, hhead, by rw [lossyChars_cons (by decide)]; exact .opening henclosed⟩
    · obtain ⟨depth, rfl⟩ : ∃ d, depth = d + 2 := ⟨depth - 2, by omega⟩
      obtain ⟨raw, rfl, hhead, henclosed⟩ := ih s'.length (by simp) (by omega) h' rfl
      exact ⟨0x7D :: raw, rfl, hhead, by rw [lossyChars_cons (by decide)]; exact .closing henclosed⟩
    · obtain ⟨body, rfl, -, hbody, hsplit⟩ := isLiteral_of_quoted hq hquoted
      obtain ⟨raw, rfl, hhead, henclosed⟩ :=
        ih s''.length (length_lt_behind b body s'') hdepth h' rfl
      refine ⟨b :: (body ++ raw), by simp, hhead, ?_⟩
      rw [lossyChars_cons (isQuote_cases hq).1, hsplit]
      exact .literal hq hbody henclosed
    · by_cases hb : b < 0x80
      · obtain ⟨raw, rfl, hhead, henclosed⟩ := ih s'.length (by simp) hdepth h' rfl
        refine ⟨b :: raw, rfl, hhead, ?_⟩
        rw [lossyChars_cons hb]
        exact .inner (isInner_ofNat hb ho hc hq) henclosed
      · obtain ⟨c, ys, rest, rfl, hys, hlarge, hread⟩ := lossyChars_cons_of_le hb s'
        rw [closingBrace_run fun y hy => isInnerByte_of_not_lt y (hys y hy)] at h'
        obtain ⟨raw, rfl, hhead, henclosed⟩ :=
          ih rest.length (length_lt_behind b ys rest) hdepth h' rfl
        have hends : EndsBefore (raw ++ r) raw := by
          cases raw with
          | nil => exact .inr (by simp)
          | cons y raw => exact .inl rfl
        refine ⟨b :: (ys ++ raw), by simp, hhead, ?_⟩
        rw [hread raw hends]
        exact .inner (isInner_of_le hlarge) henclosed

namespace Enclosed

variable {depth : Nat} {cs : List Char}

theorem closingBrace_encode (h : Enclosed depth cs) (t : Bytes) :
    closingBrace depth (encodeChars cs ++ 0x7D :: t) = .ok () (0x7D :: t) := by
  induction h with
  | nil => exact closingBrace_stop
  | opening _ ih => exact closingBrace_opening.trans ih
  | closing _ ih => exact closingBrace_closing.trans ih
  | @literal depth quote body cs hq hbody _ ih =>
    obtain ⟨out, hout⟩ := hbody.reads (encodeChars cs ++ 0x7D :: t)
    rw [encodeChars_cons, encodeChar_ofNat (isQuote_cases hq).1, encodeChars_append, append_assoc,
      append_assoc, singleton_append, closingBrace_literal hq hout, ih]
  | @inner depth c cs hc _ ih =>
    rw [encodeChars_cons, append_assoc]
    by_cases hlarge : 0x80 ≤ c.toNat
    · rw [closingBrace_run fun y hy =>
        isInnerByte_of_not_lt y (UInt8.not_lt.mpr (le_of_mem_encodeChar hlarge hy)), ih]
    · have hlt : c.toNat < 0x80 := not_le.mp hlarge
      have hne {x : UInt8} (hx : c ≠ .ofNat x.toNat) : .ofNat c.toNat ≠ x := by
        rintro rfl
        rw [UInt8.toNat_ofNat_of_lt' (by change c.toNat < 256; omega), Char.ofNat_toNat] at hx
        exact hx rfl
      have hq : isQuote (.ofNat c.toNat) = false := by
        simp only [isQuote, Bool.or_eq_false_iff, beq_eq_false_iff_ne]
        exact ⟨hne hc.2.2.1, hne hc.2.2.2⟩
      rw [encodeChar_of_lt hlt, singleton_append, closingBrace_inner (hne hc.1) (hne hc.2.1) hq, ih]

theorem tail (hc : Blank.isBlank c = true) (h : Enclosed depth (c :: cs)) : Enclosed depth cs := by
  have hinner := isInner_of_isBlank hc
  cases h with
  | opening _ => exact absurd rfl hinner.1
  | closing _ => exact absurd rfl hinner.2.1
  | literal hq _ _ => exact absurd rfl (hinner.ne_quote hq)
  | inner _ h => exact h

theorem dropLast (hc : Blank.isBlank c = true) (h : Enclosed depth (cs ++ [c])) :
    Enclosed depth cs := by
  have hinner := isInner_of_isBlank hc
  generalize hl : cs ++ [c] = l at h
  induction h generalizing cs with
  | nil => simp at hl
  | opening h ih =>
    rcases append_eq_cons_iff.mp hl with ⟨-, hc⟩ | ⟨cs', rfl, hds⟩
    · exact absurd (cons.inj hc).1 hinner.1
    · exact .opening (ih hds.symm)
  | closing h ih =>
    rcases append_eq_cons_iff.mp hl with ⟨-, hc⟩ | ⟨cs', rfl, hds⟩
    · exact absurd (cons.inj hc).1 hinner.2.1
    · exact .closing (ih hds.symm)
  | @literal depth quote body ds hq hbody h ih =>
    rcases eq_nil_or_concat ds with rfl | ⟨ds, x, rfl⟩
    · obtain ⟨body, rfl⟩ := hbody.ends
      have hl : cs ++ [c] = (.ofNat quote.toNat :: body) ++ [.ofNat quote.toNat] := by
        simpa using hl
      obtain ⟨-, hc⟩ := append_inj' hl rfl
      exact absurd (cons.inj hc).1 (hinner.ne_quote hq)
    · have hl : cs ++ [c] = (.ofNat quote.toNat :: (body ++ ds)) ++ [x] := by simpa using hl
      obtain ⟨rfl, hc⟩ := append_inj' hl rfl
      obtain rfl := (cons.inj hc).1
      exact .literal hq hbody (ih concat_eq_append.symm)
  | inner hd h ih =>
    rcases append_eq_cons_iff.mp hl with ⟨rfl, hc⟩ | ⟨cs', rfl, hds⟩
    · rw [← (cons.inj hc).2] at h
      exact h
    · exact .inner hd (ih hds.symm)

theorem append_blank (h : Enclosed depth cs) : Enclosed depth (cs ++ [' ']) := by
  induction h with
  | nil => exact .inner (isInner_of_isBlank (by decide)) .nil
  | opening _ ih => exact .opening ih
  | closing _ ih => exact .closing ih
  | literal hq hbody _ ih =>
    rw [cons_append, append_assoc]
    exact .literal hq hbody ih
  | inner hc _ ih => exact .inner hc ih

theorem dropWhile (h : Enclosed depth cs) : Enclosed depth (cs.dropWhile Blank.isBlank) := by
  induction cs with
  | nil => exact h
  | cons c cs ih =>
    by_cases hc : Blank.isBlank c = true
    · rw [dropWhile_cons_of_pos hc]
      exact ih (h.tail hc)
    · rwa [dropWhile_cons_of_neg hc]

theorem trimChars (h : Enclosed depth cs) : Enclosed depth (Blank.trimChars cs) := by
  -- The blanks at the end go one by one, from the last.
  have hend {ds : List Char} (h : Enclosed depth ds.reverse) :
      Enclosed depth (ds.dropWhile Blank.isBlank).reverse := by
    induction ds with
    | nil => exact h
    | cons d ds ih =>
      by_cases hd : Blank.isBlank d = true
      · rw [dropWhile_cons_of_pos hd]
        rw [reverse_cons] at h
        exact ih (h.dropLast hd)
      · rwa [dropWhile_cons_of_neg hd]
  apply hend
  rw [reverse_reverse]
  exact h.dropWhile

end Enclosed

structure IsEnclosed (text : String) : Prop where
  enclosed : Enclosed 1 text.toList
  trimmed : Blank.trimChars text.toList = text.toList

theorem isEnclosed_of_bracedText (h : bracedText s = .ok text s') : IsEnclosed text := by
  unfold bracedText at h
  split at h
  · cases h
  rename_i r hclosing
  simp only [EStateM.Result.ok.injEq] at h
  obtain ⟨rfl, -⟩ := h
  obtain ⟨raw, rfl, -, henclosed⟩ := enclosed_of_closingBrace (by decide) hclosing
  have htake : (raw ++ r).take ((raw ++ r).length - r.length) = raw := by simp
  rw [htake, Blank.trim, decodeLossy, String.toList_ofList]
  exact ⟨by rw [String.toList_ofList]; exact henclosed.trimChars,
    by rw [String.toList_ofList, Blank.trimChars_trimChars]⟩

theorem Enclosed.bracedText_encode {cs : List Char} (h : Enclosed 1 cs) (t : Bytes) :
    bracedText (encodeChars cs ++ 0x7D :: t) = .ok (.ofList (Blank.trimChars cs)) t := by
  have htake (u : Bytes) :
      (u ++ 0x7D :: t).take ((u ++ 0x7D :: t).length - (0x7D :: t).length) = u := by
    simp
  have hchars := lossyChars_encodeChars cs []
  rw [append_nil, lossyChars.eq_def [], append_nil] at hchars
  rw [bracedText]
  simp only [h.closingBrace_encode t, htake, tail_cons]
  rw [decodeLossy, hchars, Blank.trim, String.toList_ofList]

theorem IsEnclosed.bracedText_spaced (h : IsEnclosed text) (t : Bytes) :
    bracedText (encode text ++ 0x20 :: 0x7D :: t) = .ok text t ∧
      bracedText (0x20 :: (encode text ++ 0x20 :: 0x7D :: t)) = .ok text t := by
  have henclosed := h.enclosed.append_blank
  have hbytes : encode text ++ 0x20 :: 0x7D :: t =
      encodeChars (text.toList ++ [' ']) ++ 0x7D :: t := by
    rw [encode_eq, encodeChars_append, append_assoc]
    rfl
  have htrim : Blank.trimChars (text.toList ++ [' ']) = text.toList :=
    (Blank.trimChars_concat (by decide) _).trans h.trimmed
  have hspaced :=
    (Enclosed.inner (c := ' ') (isInner_of_isBlank (by decide)) henclosed).bracedText_encode t
  rw [Blank.trimChars_cons (by decide), htrim, String.ofList_toList] at hspaced
  constructor
  · rw [hbytes, henclosed.bracedText_encode, htrim, String.ofList_toList]
  · rw [hbytes]
    exact hspaced

end Scan

end ProtobufSchema

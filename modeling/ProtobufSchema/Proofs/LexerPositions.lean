import ProtobufSchema.Proofs.CapturedTexts

/-! Where a cursor stands in a text: its line and column are those of its offset, whatever was read
on the way. -/

namespace ProtobufSchema

open List Utf8 Scan

variable {s s' text : Bytes} {c c' : Cursor}

theorem Scan.lexeme_takes {l : Lexeme} (h : lexeme s = .ok l s') :
    ∃ raw, s = raw ++ s' ∧ (l = .endOfInput ∨ raw ≠ []) := by
  rcases lexeme_cases h with ⟨rfl, rfl⟩ | ⟨hstart, -, rfl⟩ | ⟨x, rest, rfl, -, -, rfl⟩ |
    ⟨hstart, hnumber⟩ | ⟨b, rest, content, rfl, hquote, hquoted, -⟩ | ⟨b, -, -, rfl⟩
  · cases h
    exact ⟨[], rfl, .inl rfl⟩
  · refine ⟨s.takeWhile isNameByte, takeWhile_append_dropWhile.symm, .inr fun hnil => ?_⟩
    cases s with
    | nil => cases hstart
    | cons b s =>
      have hb : isNameByte b = true := Bool.or_eq_true_iff.mpr (.inl hstart)
      rw [takeWhile_cons_of_pos hb] at hnil
      cases hnil
  · exact ⟨0x30 :: x :: rest.takeWhile isHexDigit, by simp, .inr (cons_ne_nil _ _)⟩
  · obtain ⟨whole, part, power, rfl, hwhole, hnext, hpart, -, hfraction, -⟩ := number_cases hnumber
    obtain ⟨b, raw, hraw, -⟩ := startsNumber_of_append hwhole hnext hpart hfraction hstart
    exact ⟨whole ++ (part ++ power), by simp, .inr (hraw ▸ cons_ne_nil b raw)⟩
  · obtain ⟨body, rfl, -⟩ := isLiteral_of_quoted hquote hquoted
    exact ⟨b :: body, rfl, .inr (cons_ne_nil b body)⟩
  · exact ⟨[b], rfl, .inr (cons_ne_nil b [])⟩

/-- The place of a byte in a text, by the newlines before it and the bytes behind the last of
them. -/
def Span.ofOffset (text : Bytes) (offset : Nat) : Span :=
  ⟨1 + (text.take offset).count 0x0A, 1 + ((text.take offset).rtakeWhile (· != 0x0A)).length⟩

namespace Cursor

structure Exact (text : Bytes) (c : Cursor) : Prop where
  inside : c.offset ≤ text.length
  rest : c.rest = text.drop c.offset
  span : c.span = .ofOffset text c.offset

theorem Exact.next (h : c.Exact text) {b : UInt8} (hrest : c.rest = b :: s) :
    (Cursor.mk (c.offset + 1) (if b = 0x0A then c.line + 1 else c.line)
      (if b = 0x0A then 1 else c.column + 1) s).Exact text := by
  have hdrop : text.drop c.offset = b :: s := h.rest.symm.trans hrest
  have htake : text.take (c.offset + 1) = text.take c.offset ++ [b] := by
    rw [take_add_one, ← head?_drop, hdrop]
    rfl
  obtain ⟨hline, hcolumn⟩ := Span.mk.inj h.span
  refine ⟨?_, ?_, ?_⟩
  · have hlength := congrArg length hdrop
    simp only [length_drop, length_cons] at hlength
    dsimp only
    omega
  · rw [← tail_drop, hdrop, tail_cons]
  · rw [Span.ofOffset, htake, count_append, hline, hcolumn]
    by_cases hb : b = 0x0A
    · rw [rtakeWhile_concat_neg _ _ _ (by simp [hb]), hb]
      rfl
    · rw [if_neg hb, if_neg hb, rtakeWhile_concat_pos _ _ _ (by simp [hb]), length_append,
        count_singleton, if_neg (by simpa using hb)]
      rfl

theorem Exact.skip (h : c.Exact text) (count : Nat) : (c.skip count).Exact text := by
  induction count generalizing c with
  | zero => exact h
  | succ count ih =>
    rw [skip]
    split
    · exact h
    · next b rest hrest =>
      have hnext := h.next hrest
      split
      · next hb => exact ih (by simpa [hb] using hnext)
      · next hb => exact ih (by simpa [hb] using hnext)

theorem Exact.offset_add (h : c.Exact text) : c.offset + c.rest.length = text.length := by
  rw [h.rest, length_drop]
  exact Nat.add_sub_cancel' h.inside

theorem Exact.token (h : c.Exact text) {t : LocatedToken} (ht : Parse.token c = .ok t c') :
    ∃ start, c.offset ≤ start ∧ start ≤ c'.offset ∧ (t.token ≠ .endOfInput → start < c'.offset) ∧
      t.span = .ofOffset text start ∧ blanks (text.drop c.offset) =
        .ok t.comment? (text.drop start) ∧
      ∃ l, lexeme (text.drop start) = .ok l (text.drop c'.offset) ∧ l.token = .ok t.token := by
  obtain ⟨s, l, s', hblanks, hl, htoken, hspan, rfl⟩ := Parse.token_cases ht
  have hstart : (c.upTo s).Exact text := h.skip _
  have hafter : ((c.upTo s).upTo s').Exact text := hstart.skip _
  obtain ⟨gap, hgap⟩ := blanksFrom_suffix hblanks
  have hrest : (c.upTo s).rest = s := rest_upTo hgap.symm
  rw [hrest] at hl
  obtain ⟨raw, hraw, htakes⟩ := lexeme_takes hl
  have hrest' : ((c.upTo s).upTo s').rest = s' := rest_upTo (hrest.trans hraw)
  -- Offsets are told apart by what is left of the text behind them.
  have hoffset := h.offset_add
  have hoffset₁ := hstart.offset_add
  have hoffset₂ := hafter.offset_add
  rw [← hgap, length_append] at hoffset
  rw [hrest] at hoffset₁
  rw [hrest'] at hoffset₂
  have hlength := congrArg length hraw
  rw [length_append] at hlength
  refine ⟨(c.upTo s).offset, by omega, by omega, fun hne => ?_, hspan.trans hstart.span, ?_, l,
    ?_, htoken⟩
  · have hpos : 0 < raw.length := length_pos_of_ne_nil <| htakes.resolve_left fun hend => hne <| by
      rw [hend] at htoken
      exact (Except.ok.inj htoken).symm
    omega
  · rwa [← h.rest, ← hstart.rest, hrest]
  · rwa [← hstart.rest, ← hafter.rest, hrest, hrest']

end Cursor

namespace Parse

variable {α β : Type}

/-- Where a computation leaves a cursor, whether it succeeds or fails. -/
def left (m : Parse α) (c : Cursor) : Cursor :=
  match m c with
  | .ok _ c' => c'
  | .error _ c' => c'

def Keeps (m : Parse α) : Prop := ∀ text c, c.Exact text → (left m c).Exact text

theorem Keeps.bind {m : Parse α} {f : α → Parse β} (hm : Keeps m) (hf : ∀ a, Keeps (f a)) :
    Keeps (m >>= f) := by
  intro text c hc
  have hleft := hm text c hc
  unfold left at hleft ⊢
  simp only [Bind.bind, EStateM.bind]
  cases hrun : m c with
  | error e c' => rwa [hrun] at hleft
  | ok a c' =>
    rw [hrun] at hleft
    exact hf a text c' hleft

theorem keeps_scan (s : Scan α) : Keeps (scan s) := by
  intro text c hc
  unfold left scan
  cases s c.rest <;> exact hc.skip _

theorem keeps_token : Keeps token := by
  refine (keeps_scan _).bind fun _ => .bind (fun _ _ hc => hc) fun c => (keeps_scan _).bind
    fun l => ?_
  cases l.token <;> exact fun _ _ hc => hc

theorem peek_cases (c : Cursor) : left peek c = c ∧
    (∀ t, (∃ c', peek c = .ok t c') ↔ ∃ c', token c = .ok t c') ∧
    ∀ e, (∃ c', peek c = .error e c') ↔ ∃ c', token c = .error e c' := by
  unfold left peek ahead
  cases token c <;> simp

/-- What is asked of a lexer. -/
inductive Call where
  | token
  | peek
  | bracedText

def Call.after : Call → Cursor → Cursor
  | token => left Parse.token
  | peek => left Parse.peek
  | bracedText => left Parse.bracedText

theorem Call.after_exact (call : Call) (hc : c.Exact text) : (call.after c).Exact text := by
  cases call with
  | token => exact keeps_token text c hc
  | peek =>
    rw [after, (peek_cases c).1]
    exact hc
  | bracedText => exact keeps_scan _ text c hc

theorem Call.afterAll_exact (calls : List Call) (hc : c.Exact text) :
    (calls.foldl (fun c call => call.after c) c).Exact text := by
  induction calls generalizing c with
  | nil => exact hc
  | cons call calls ih => exact ih (call.after_exact hc)

end Parse

open Parse in
/-- After any calls, each of which succeeds or fails, a lexer is inside its text, at the line and
column of its offset. Looking ahead leaves it there, with the answer of reading a token. A token
that is read stands behind the blanks, is marked with the place of its first byte, and takes at
least one byte if the text does not end there. -/
theorem positions_exact (text : String) (calls : List Call) : let bytes := encode text
    let c := calls.foldl (fun c call => call.after c) (.ofText text)
    (c.offset ≤ bytes.length ∧ c.rest = bytes.drop c.offset ∧ c.span = .ofOffset bytes c.offset) ∧
    (left peek c = c ∧ (∀ t, (∃ c', peek c = .ok t c') ↔ ∃ c', token c = .ok t c') ∧
      ∀ e, (∃ c', peek c = .error e c') ↔ ∃ c', token c = .error e c') ∧
    ∀ t c', token c = .ok t c' → c'.offset ≤ bytes.length ∧
      ∃ start, c.offset ≤ start ∧ start ≤ c'.offset ∧ (t.token ≠ .endOfInput → start < c'.offset) ∧
        t.span = .ofOffset bytes start ∧ blanks (bytes.drop c.offset) =
          .ok t.comment? (bytes.drop start) ∧
        ∃ l, lexeme (bytes.drop start) = .ok l (bytes.drop c'.offset) ∧ l.token = .ok t.token := by
  intro bytes c
  have hc : c.Exact bytes := Call.afterAll_exact calls ⟨Nat.zero_le _, rfl, rfl⟩
  refine ⟨⟨hc.inside, hc.rest, hc.span⟩, peek_cases c, fun t c' ht => ⟨?_, hc.token ht⟩⟩
  have hleft := keeps_token bytes c hc
  rw [left, ht] at hleft
  exact hleft.inside

theorem positions_exact_second_line : let c := Parse.Call.token.after (.ofText "a\n  b")
    Parse.token c = .ok ⟨.name "b", ⟨2, 3⟩, none⟩ ⟨5, 2, 4, []⟩ ∧
      ∃ start < 5, c.offset ≤ start ∧ Span.ofOffset (encode "a\n  b") start = ⟨2, 3⟩ := by
  intro c
  have htoken : Parse.token c = .ok ⟨.name "b", ⟨2, 3⟩, none⟩ ⟨5, 2, 4, []⟩ := by
    with_unfolding_all rfl
  obtain ⟨-, start, hle, -, hlt, hspan, -⟩ := (positions_exact "a\n  b" [.token]).2.2 _ _ htoken
  exact ⟨htoken, start, hlt (by decide), hle, hspan.symm⟩

end ProtobufSchema

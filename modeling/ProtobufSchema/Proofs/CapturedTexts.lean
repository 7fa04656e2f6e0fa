import ProtobufSchema.Proofs.ReadWords

/-! A text in braces is captured byte by byte, but ends where its tokens end it, as long as no
comment has a brace or a quote in it. -/

namespace ProtobufSchema

open List Utf8

variable {s s' : Bytes}

namespace Scan

variable {l : Lexeme} {t : Token}

def depthAfter (t : Token) (depth : Nat) : Nat :=
  if t = .symbol '{' then depth + 1 else if t = .symbol '}' then depth - 1 else depth

def Steps (t : Token) (s s' : Bytes) : Prop :=
  (∃ raw, s = raw ++ s') ∧ (t = .symbol '}' → s = 0x7D :: s') ∧
    ∀ depth, (t = .symbol '}' → 1 < depth) →
    closingBrace depth s = closingBrace (depthAfter t depth) s'

theorem steps_of_ne (hraw : ∃ raw, s = raw ++ s') (ho : t ≠ .symbol '{') (hc : t ≠ .symbol '}')
    (h : ∀ depth, closingBrace depth s = closingBrace depth s') : Steps t s s' :=
  ⟨hraw, fun ht => absurd ht hc, fun depth _ => by rw [h, depthAfter, if_neg ho, if_neg hc]⟩

theorem steps_symbol (b : UInt8) (hb : isSymbol b = true) (s : Bytes) :
    Steps (.symbol (.ofNat b.toNat)) (b :: s) s := by
  have hchar : ∀ b, isSymbol b = true → (.ofNat b.toNat = '{' ↔ b = 0x7B) ∧
      (.ofNat b.toNat = '}' ↔ b = 0x7D) ∧ isQuote b = false := by
    decide +kernel
  obtain ⟨hopen, hclose, hquote⟩ := hchar b hb
  refine ⟨⟨[b], rfl⟩, fun ht => ?_, fun depth hdepth => ?_⟩
  · rw [hclose.mp (Token.symbol.inj ht)]
  · unfold depthAfter
    split
    · next ht => rw [hopen.mp (Token.symbol.inj ht), closingBrace_opening]
    · next ho =>
      split
      · next ht =>
        obtain ⟨depth, rfl⟩ : ∃ d, depth = d + 2 := ⟨depth - 2, by have := hdepth ht; omega⟩
        rw [hclose.mp (Token.symbol.inj ht), closingBrace_closing]
        rfl
      · next hc =>
        exact closingBrace_inner (fun h => ho (congrArg _ (hopen.mpr h)))
          (fun h => hc (congrArg _ (hclose.mpr h))) hquote

theorem steps_inner {raw : Bytes} (hraw : ∀ b ∈ raw, isInnerByte b = true) (hl : ∀ b, l ≠ .symbol b)
    (ht : l.token = .ok t) : Steps t (raw ++ s) s := by
  have hsymbol (c : Char) : t ≠ .symbol c := by
    rintro rfl
    cases l <;> simp only [Lexeme.token] at ht
    case symbol b => exact hl b rfl
    case hexadecimal | integer | decimal => split at ht <;> cases ht
    all_goals cases ht
  exact steps_of_ne ⟨raw, rfl⟩ (hsymbol _) (hsymbol _) fun depth => closingBrace_run hraw depth s

theorem steps_lexeme (h : lexeme s = .ok l s') (ht : l.token = .ok t) (hne : t ≠ .endOfInput) :
    Steps t s s' := by
  have hinner : ∀ b, isNameByte b = true ∨ isNumberByte b = true ∨ isHexDigit b = true ∨
      isHexMark b = true →
      isInnerByte b = true := by
    decide +kernel
  rcases lexeme_cases h with ⟨-, rfl⟩ | ⟨-, rfl, rfl⟩ | ⟨x, rest, rfl, hx, rfl, rfl⟩ |
    ⟨-, hnumber⟩ | ⟨b, rest, content, rfl, hquote, hquoted, rfl⟩ | ⟨b, hsymbol, rfl, rfl⟩
  · cases ht
    exact absurd rfl hne
  · have hsteps := steps_inner (s := s.dropWhile isNameByte)
      (fun x hx => hinner x (.inl (forall_mem_takeWhile s x hx))) (fun x h => by cases h) ht
    rwa [takeWhile_append_dropWhile] at hsteps
  · have hraw : ∀ y ∈ 0x30 :: x :: rest.takeWhile isHexDigit, isInnerByte y = true :=
      forall_mem_cons.mpr ⟨rfl, forall_mem_cons.mpr ⟨hinner x (.inr (.inr (.inr hx))), fun y hy =>
        hinner y (.inr (.inr (.inl (forall_mem_takeWhile _ y hy))))⟩⟩
    have hsteps := steps_inner (s := rest.dropWhile isHexDigit) hraw (fun y h => by cases h) ht
    rwa [cons_append, cons_append, takeWhile_append_dropWhile] at hsteps
  · obtain ⟨whole, part, power, hs, hwhole, -, hpart, hpower, -, rfl⟩ := number_cases hnumber
    rw [hs, ← append_assoc part, ← append_assoc]
    refine steps_inner
      (fun x hx => hinner x (.inr (.inl (isNumberByte_of_mem hwhole hpart hpower x hx)))) ?_ ht
    unfold numberLexeme
    split <;> simp
  · cases ht
    obtain ⟨body, hbody, -⟩ := isLiteral_of_quoted hquote hquoted
    exact steps_of_ne ⟨b :: body, by rw [hbody]; rfl⟩ (by simp) (by simp) fun depth =>
      closingBrace_literal hquote hquoted
  · cases ht
    exact steps_symbol b hsymbol _

theorem splitBlock_suffix {text after : Bytes} (h : splitBlock s = some (text, after)) :
    after <:+ s := by
  induction s generalizing text with
  | nil => cases h
  | cons b rest ih =>
    rw [splitBlock] at h
    split at h
    · cases h
      exact (tail_suffix rest).trans (suffix_cons b rest)
    · obtain ⟨x, hsplit, heq⟩ := Option.map_eq_some_iff.mp h
      cases heq
      exact (ih hsplit).trans (suffix_cons b rest)

theorem blanksFrom_suffix {comment? comment?' : Option String} {newlines : Nat}
    (h : blanksFrom comment? newlines s = .ok comment?' s') : s' <:+ s := by
  fun_induction blanksFrom comment? newlines s with
  | case1 | case7 =>
    cases h
    exact suffix_refl _
  | case2 _ _ rest ih => exact (ih h).trans (suffix_cons _ rest)
  | case3 _ _ _ rest _ _ ih => exact (ih h).trans (suffix_cons _ rest)
  | case4 _ _ _ rest _ _ _ _ _ ih =>
    exact (ih h).trans ((dropWhile_suffix _).trans ((tail_suffix rest).trans (suffix_cons _ rest)))
  | case5 => cases h
  | case6 _ _ _ rest _ _ _ _ _ _ hsplit _ ih =>
    exact (ih h).trans
      ((splitBlock_suffix hsplit).trans ((tail_suffix rest).trans (suffix_cons _ rest)))

end Scan

namespace Cursor

open Scan Parse

variable {c c' : Cursor}

def gap (c : Cursor) : Bytes :=
  match blanks c.rest with
  | .ok _ s => c.rest.take (c.rest.length - s.length)
  | .error _ _ => []

/-- The tokens that follow close a number of open braces, and the blanks before each have a
property. -/
inductive Closes (P : Bytes → Prop) : Nat → Cursor → Cursor → Prop
  | done (c : Cursor) : Closes P 0 c c
  | more {depth : Nat} {c c₁ c' : Cursor} {t : LocatedToken} (hgap : P c.gap)
    (ht : token c = .ok t c₁)
    (hne : t.token ≠ .endOfInput) (hmore : Closes P (depthAfter t.token (depth + 1)) c₁ c') :
    Closes P (depth + 1) c c'

theorem skip_skip (m n : Nat) (c : Cursor) : (c.skip m).skip n = c.skip (m + n) := by
  induction m generalizing c with
  | zero => rw [zero_add]; rfl
  | succ m ih =>
    rw [Nat.succ_add, skip, skip]
    split
    · next hrest =>
      cases n with
      | zero => rfl
      | succ n => rw [skip, hrest]
    · split <;> exact ih _

theorem upTo_upTo (h : s <:+ c.rest) (h' : s' <:+ s) : (c.upTo s).upTo s' = c.upTo s' := by
  obtain ⟨u, hu⟩ := h
  rw [upTo, rest_upTo hu.symm, upTo, upTo, skip_skip, ← hu, length_append]
  have := h'.length_le
  congr 1
  omega

theorem token_steps {t : LocatedToken} (h : token c = .ok t c') (hne : t.token ≠ .endOfInput) :
    ∃ s, c.rest = c.gap ++ s ∧ Steps t.token s c'.rest ∧ c' = c.upTo c'.rest := by
  obtain ⟨s, l, s', hblanks, hl, ht, -, rfl⟩ := token_cases h
  have hsuffix := blanksFrom_suffix hblanks
  obtain ⟨gap, hgap⟩ := hsuffix
  rw [rest_upTo hgap.symm] at hl
  have hsteps := steps_lexeme hl ht hne
  obtain ⟨raw, rfl⟩ := hsteps.1
  have hrest : ((c.upTo (raw ++ s')).upTo s').rest = s' := rest_upTo (rest_upTo hgap.symm)
  refine ⟨raw ++ s', ?_, by rwa [hrest],
    by rw [hrest, upTo_upTo ⟨gap, hgap⟩ (suffix_append raw s')]⟩
  rw [Cursor.gap, hblanks]
  simp [← hgap]

theorem Closes.finds {depth : Nat} (h : Closes (∀ b ∈ ·, isInnerByte b = true) depth c c')
    (hdepth : 0 < depth) : 0x7D :: c'.rest <:+ c.rest ∧ c' = c.upTo c'.rest ∧
      closingBrace depth c.rest = .ok () (0x7D :: c'.rest) := by
  induction h with
  | done c => cases hdepth
  | @more depth c c₁ c' t hgap ht hne hmore ih =>
    obtain ⟨s, hs, ⟨⟨raw, hraw⟩, hclose, hsteps⟩, hc₁⟩ := token_steps ht hne
    have hsuffix : s <:+ c.rest := ⟨c.gap, hs.symm⟩
    have hfound : closingBrace (depth + 1) c.rest = closingBrace (depth + 1) s := by
      rw [hs, closingBrace_run hgap]
    rw [hfound]
    by_cases hlast : t.token = .symbol '}' ∧ depth = 0
    · obtain ⟨htoken, rfl⟩ := hlast
      have hnow : depthAfter t.token (0 + 1) = 0 := by rw [htoken]; rfl
      rw [hnow] at hmore
      cases hmore
      rw [hclose htoken] at hsuffix ⊢
      exact ⟨hsuffix, hc₁, closingBrace_stop⟩
    · have hmany : t.token = .symbol '}' → 1 < depth + 1 := by
        intro htoken
        by_contra hone
        exact hlast ⟨htoken, by omega⟩
      have hpos : 0 < depthAfter t.token (depth + 1) := by
        unfold depthAfter
        split
        · omega
        · split
          · next htoken => exact Nat.lt_sub_of_add_lt (hmany htoken)
          · omega
      obtain ⟨hrest, hc', hmore⟩ := ih hpos
      have hsuffix₁ : c₁.rest <:+ c.rest := ⟨c.gap ++ raw, by rw [hs, hraw, append_assoc]⟩
      refine ⟨hrest.trans hsuffix₁, ?_, (hsteps _ hmany).trans hmore⟩
      rw [hc₁] at hc'
      exact hc'.trans (upTo_upTo hsuffix₁ ((suffix_cons _ _).trans hrest))

end Cursor

/-- Where the tokens behind an open brace close it, and no blanks between them have a brace or a
quote, the text in the braces is captured up to that closing brace. Braces may be open to any
depth. -/
theorem bracedText_of_closes {c c' : Cursor}
    (h : c.Closes (∀ b ∈ ·, Scan.isInnerByte b = true) 1 c') :
    ∃ raw, c.rest = raw ++ 0x7D :: c'.rest ∧
      Parse.bracedText c = .ok (Blank.trim (decodeLossy raw)) c' ∧
      ∀ inner, raw = encode inner → Parse.bracedText c = .ok (Blank.trim inner) c' := by
  obtain ⟨⟨raw, hraw⟩, hc', hfound⟩ := h.finds Nat.zero_lt_one
  have hcaptured : Parse.bracedText c = .ok (Blank.trim (decodeLossy raw)) c' := by
    rw [Parse.bracedText, Parse.scan, Scan.bracedText, hfound]
    simp only [← hraw, tail_cons, length_append, Nat.add_sub_cancel, take_left]
    rw [← hc']
  refine ⟨raw, hraw.symm, hcaptured, fun inner hinner => ?_⟩
  rw [hcaptured, hinner, decodeLossy_encode]

theorem bracedText_of_closes_quoted :
    Parse.bracedText (.ofText r"'}'{ /**/ }}") = .ok r"'}'{ /**/ }" ⟨12, 1, 13, []⟩ := by
  have hcloses : (Cursor.ofText r"'}'{ /**/ }}").Closes (∀ b ∈ ·, Scan.isInnerByte b = true) 1
      ⟨12, 1, 13, []⟩ := by
    refine .more (t := ⟨.string [0x7D], ⟨1, 1⟩, none⟩) (by decide +kernel)
      (by with_unfolding_all rfl) (by decide) ?_
    refine .more (t := ⟨.symbol '{', ⟨1, 4⟩, none⟩) (by decide +kernel) (by with_unfolding_all rfl)
      (by decide) ?_
    refine .more (t := ⟨.symbol '}', ⟨1, 11⟩, some ""⟩) (by decide +kernel)
      (by with_unfolding_all rfl) (by decide) ?_
    exact .more (t := ⟨.symbol '}', ⟨1, 12⟩, none⟩) (by decide +kernel) (by with_unfolding_all rfl)
      (by decide) (.done _)
  obtain ⟨raw, hrest, -, hcaptured⟩ := bracedText_of_closes hcloses
  have hraw : raw ++ [0x7D] = encode r"'}'{ /**/ }" ++ [0x7D] :=
    hrest.symm.trans (by decide +kernel)
  exact hcaptured _ (append_cancel_right hraw)

/-- A closing brace in a comment ends the text that is captured, but is no token. -/
theorem bracedText_stops_in_comment :
    (∃ c', (Cursor.ofText r"/*}*/}").Closes (fun _ => True) 1 c' ∧ c'.rest = []) ∧
      ∃ c', Parse.bracedText (.ofText r"/*}*/}") = .ok "/*" c' ∧ c'.rest ≠ [] := by
  constructor
  · have ht : Parse.token (.ofText r"/*}*/}") =
        .ok ⟨.symbol '}', ⟨1, 6⟩, some r"}"⟩ ⟨6, 1, 7, []⟩ := by
      with_unfolding_all rfl
    exact ⟨_, .more trivial ht (by decide) (.done _), rfl⟩
  · refine ⟨⟨3, 1, 4, [0x2A, 0x2F, 0x7D]⟩, ?_, by decide⟩
    with_unfolding_all rfl

end ProtobufSchema

import Mathlib.Data.List.TakeWhile
import ProtobufSchema.Proofs.DottedNames
import ProtobufSchema.Proofs.Traversals
import ProtobufSchema.Tree.Grammar

/-! A name token is one segment. -/

namespace ProtobufSchema

open Name (IsSegment)

namespace Yields

variable {m : Type → Type} [Monad m] [LawfulMonad m] {α β : Type} {P : α → Prop} {Q : β → Prop}

theorem any (x : m α) : Yields (fun _ => True) x := by
  refine ⟨(fun a => ⟨a, trivial⟩) <$> x, ?_⟩
  rw [← comp_map]
  exact id_map x

theorem skip {x : m α} {f : α → m β} (hf : ∀ a, Yields Q (f a)) : Yields Q (x >>= f) :=
  (any x).bind fun a _ => hf a

omit [LawfulMonad m] in
theorem ite {c : Prop} [Decidable c] {x y : m α} (hx : Yields P x) (hy : Yields P y) :
    Yields P (if c then x else y) := by
  by_cases hc : c
  · rwa [if_pos hc]
  · rwa [if_neg hc]

end Yields

theorem Utf8.lossyChars_ascii {bytes : Bytes} (h : ∀ b ∈ bytes, b < 0x80) :
    lossyChars bytes = bytes.map fun b => .ofNat b.toNat := by
  induction bytes with
  | nil => rfl
  | cons b bytes ih =>
    obtain ⟨hb, hbytes⟩ := List.forall_mem_cons.mp h
    rw [lossyChars.eq_def]
    simp [hb, ih hbytes]

namespace Scan

instance {P : UInt8 → Prop} [DecidablePred P] : Decidable (∀ b, P b) :=
  decidable_of_iff (∀ n : Fin 256, P (.ofNat n.val))
    ⟨fun h b => by simpa using h ⟨b.toNat, b.toNat_lt⟩, fun h n => h (.ofNat n.val)⟩

theorem ne_dot_of_isNameByte (b : UInt8) (h : isNameByte b = true) :
    b < 0x80 ∧ .ofNat b.toNat ≠ '.' := by
  decide +kernel +revert

theorem isSegment_decodeLossy {text : Bytes} (hne : text ≠ [])
    (h : ∀ b ∈ text, isNameByte b = true) : IsSegment (Utf8.decodeLossy text) := by
  have hchars := Utf8.lossyChars_ascii fun b hb => (ne_dot_of_isNameByte b (h b hb)).1
  rw [Utf8.decodeLossy, hchars]
  constructor
  · simpa using hne
  · rw [String.toList_ofList, List.mem_map]
    rintro ⟨b, hb, hdot⟩
    exact (ne_dot_of_isNameByte b (h b hb)).2 hdot

end Scan

namespace Parse

variable {α : Type} {P : α → Prop}

theorem fail_yields (span : Span) (fault : SyntaxFault) : Yields P (fail span fault) :=
  .of_estate fun _ _ _ h => nomatch h

theorem unexpected_yields (t : LocatedToken) (wanted : String) : Yields P (unexpected t wanted) :=
  fail_yields _ _

theorem exhausted_yields : Yields P exhausted := .skip fun t => unexpected_yields t _

theorem scan_yields {s : Scan α} (h : Yields P s) : Yields P (scan s) := by
  refine .of_estate fun c a c' ha => ?_
  unfold scan at ha
  split at ha <;> cases ha
  rename_i hs
  exact h.estate hs

theorem fueled_yields {p : Nat → Parse α} (h : ∀ fuel, Yields P (p fuel)) : Yields P (fueled p) :=
  .of_estate fun _ _ _ ha => (h _).estate ha

end Parse

end ProtobufSchema

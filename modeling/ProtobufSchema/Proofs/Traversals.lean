import ProtobufSchema.Proofs.QualifiedNames

/-! A traversal of a file changes nothing but the options, and answers for each slot from its
scope. -/

namespace ProtobufSchema

open List
open List (Forall₂ rel_append)

variable (scope : String) (ms : List MessageDescriptor)

section Yields

variable {m : Type → Type} [Monad m] {α β : Type}

def Yields (P : α → Prop) (x : m α) : Prop := ∃ y : m { a // P a }, Subtype.val <$> y = x

namespace Yields

variable {P : α → Prop} {Q : β → Prop}
variable {σ ε : Type}

theorem of_estate {x : EStateM ε σ α} (h : ∀ s a s', x s = .ok a s' → P a) : Yields P x := by
  refine ⟨fun s => match hx : x s with
    | .ok a s' => .ok ⟨a, h s a s' hx⟩ s'
    | .error e s' => .error e s', ?_⟩
  funext s
  simp only [Functor.map, EStateM.map]
  split <;> rename_i heq <;> split at heq <;> cases heq <;> simp_all

theorem estate {x : EStateM ε σ α} (h : Yields P x) {s s' : σ} {a : α} (hx : x s = .ok a s') :
    P a := by
  obtain ⟨y, rfl⟩ := h
  simp only [Functor.map, EStateM.map] at hx
  split at hx
  · cases hx
    exact Subtype.property _
  · cases hx

theorem of_state {x : StateM σ α} (h : ∀ s, P (x s).1) : Yields P x :=
  ⟨fun s => (⟨(x s).1, h s⟩, (x s).2), rfl⟩

theorem state {x : StateM σ α} (h : Yields P x) (s : σ) : P (x s).1 := by
  obtain ⟨y, rfl⟩ := h
  exact (y s).1.property

variable [LawfulMonad m]

theorem pure {a : α} (h : P a) : Yields P (pure a : m α) := ⟨Pure.pure ⟨a, h⟩, map_pure _ _⟩

theorem bind {x : m α} {f : α → m β} (hx : Yields P x) (hf : ∀ a, P a → Yields Q (f a)) :
    Yields Q (x >>= f) := by
  obtain ⟨y, rfl⟩ := hx
  choose g hg using fun a : { a // P a } => hf a.1 a.2
  refine ⟨y >>= g, ?_⟩
  simp [hg]

theorem mono {P' : α → Prop} {x : m α} (h : Yields P x) (hP : ∀ a, P a → P' a) : Yields P' x := by
  rw [← bind_pure x]
  exact h.bind fun a ha => pure (hP a ha)

theorem foldlM {f : α → β → m α} (hf : ∀ a b, P a → Yields P (f a b)) {a : α} (ha : P a)
    (bs : List β) : Yields P (bs.foldlM f a) := by
  induction bs generalizing a with
  | nil => exact pure ha
  | cons b bs ih =>
    exact (hf a b ha).bind fun _ ha' => ih ha'

end Yields

end Yields

structure Delivers {ε σ α : Type} [Logged σ] (D : Diagnostic → Prop) (P : α →
    Prop) (x : EStateM ε σ α) : Prop where
  reports : Reports D x
  holds : ∀ {s a s'}, x s = .ok a s' → P a

namespace Delivers

variable {ε σ α β : Type} [Logged σ] {D : Diagnostic → Prop} {P : α → Prop} {Q : β → Prop}
  {R : α → β → Prop} {f : α → EStateM ε σ β}

theorem pure {a : α} (h : P a) : Delivers D P (pure a : EStateM ε σ α) where
  reports := .pure a
  holds hrun := by
    cases hrun
    exact h

theorem bind {x : EStateM ε σ α} (hx : Delivers D P x) (hf : ∀ a, P a → Delivers D Q (f a)) :
    Delivers D Q (x >>= f) where
  reports := hx.reports.bind_of fun _ a _ hrun => (hf a (hx.holds hrun)).reports
  holds hrun := by
    obtain ⟨a, _, ha, hb⟩ := bind_ok hrun
    exact (hf a (hx.holds ha)).holds hb

theorem mapM {xs : List α} (h : ∀ x ∈ xs, Delivers D (R x) (f x)) :
    Delivers D (Forall₂ R xs) (xs.mapM f) := by
  induction xs with
  | nil => exact pure .nil
  | cons x xs ih =>
    rw [mapM_cons]
    refine (h x (by simp)).bind fun y hy => ?_
    exact (ih fun z hz => h z (by simp [hz])).bind fun ys hys => pure (.cons hy hys)

theorem option (h : ∀ a, Delivers D (R a) (f a)) (a? : Option α) :
    Delivers D (Option.Rel R a?) (a?.mapM f) := by
  cases a? with
  | none => exact pure .none
  | some a =>
    exact (h a).bind fun b hb => pure (.some hb)

end Delivers

theorem exists_of_forall₂ {α β : Type} {R : α → β → Prop} {xs : List α} {ys : List β}
    (h : Forall₂ R xs ys) {y : β} (hy : y ∈ ys) : ∃ x ∈ xs, R x y := by
  obtain ⟨i, hi, rfl⟩ := mem_iff_getElem.mp hy
  have hlt : i < xs.length := h.length_eq ▸ hi
  exact ⟨xs[i], getElem_mem _, h.get hlt hi⟩

def AnswersInScope (V : String → Options → Options → Prop) (x y : String × Options) : Prop :=
  y.1 = x.1 ∧ V x.1 x.2 y.2

/-- What differs from something in its options only. Those that it has answer for those there, in
slots of the same kind and in the same scopes. -/
structure Revises (V : String → Options → Options → Prop) {α : Type}
    (slots : α → List (OptionsKind × Options)) (within : α → List (String × Options)) (bare : α → α)
    (x y : α) : Prop where
  bare_eq : bare y = bare x
  slots : Forall₂ (fun s t => s.1 = t.1 ∧ ∃ scope, V scope s.2 t.2) (slots x) (slots y)
  within : Forall₂ (AnswersInScope V) (within x) (within y)

theorem MessageDescriptor.nestedOptionsWithin_eq :
    nestedOptionsWithin scope ms = ms.flatMap (optionsWithin scope) := by
  induction ms with
  | nil => rfl
  | cons d ds ih => rw [nestedOptionsWithin, ih, flatMap_cons]

theorem MessageDescriptor.traverseNestedOptions_eq {m : Type → Type} [Monad m] [LawfulMonad m]
    {visit : String → Options → m Options} :
    traverseNestedOptions visit scope ms = ms.mapM (traverseOptions visit scope) := by
  induction ms with
  | nil => rfl
  | cons d ds ih => rw [traverseNestedOptions, mapM_cons, ih]

section Options

variable {ε σ α : Type} [Logged σ] {D : Diagnostic → Prop} {V : String → Options → Options → Prop}

theorem list_answers {slots : α → List (OptionsKind × Options)}
    {within : α → List (String × Options)} {bare : α → α} {visit : α → EStateM ε σ α} {xs : List α}
    (h : ∀ x ∈ xs, Delivers D (Revises V slots within bare x) (visit x)) :
    Delivers D (Revises V (.flatMap slots) (.flatMap within) (.map bare) xs) (xs.mapM visit) := by
  rw [← bind_pure (xs.mapM visit)]
  refine (Delivers.mapM h).bind fun ys hys => .pure ⟨?_, ?_, ?_⟩
  · exact forall₂_eq_eq_eq ▸ rel_map (fun _ _ hxy => hxy.bare_eq) hys.flip
  · exact rel_flatMap hys fun _ _ hxy => hxy.slots
  · exact rel_flatMap hys fun _ _ hxy => hxy.within

section Element

variable {scope : String} {visit : Options → EStateM ε σ Options}
  (h : ∀ o, Delivers D (V scope o) (visit o))
include h

variable (kind : OptionsKind)

theorem slot_answers (bare : α → α) {options : α → Option Options} {x : α}
    {put : Option Options → α} (hput : ∀ o?, options (put o?) = o? ∧ bare (put o?) = bare x) :
    Delivers D (Revises V (fun y => kind.slot (options y))
      (fun y => (options y).toList.map (scope, ·)) bare x)
      (do return put (← (options x).mapM visit)) := by
  refine (Delivers.option h _).bind fun o?' ho => .pure ?_
  have hslot : Forall₂ (V scope) (options x).toList (options (put o?')).toList := by
    rw [(hput o?').1]
    generalize options x = o? at ho
    cases ho with
    | none => exact .nil
    | some hV => exact .cons hV .nil
  refine ⟨(hput o?').2, ?_, ?_⟩
  · exact rel_map (fun _ _ hV => ⟨rfl, scope, hV⟩) hslot
  · exact rel_map (fun _ _ hV => ⟨rfl, hV⟩) hslot

theorem option_answers (o? : Option Options) :
    Delivers D (Revises V kind.slot (fun o? => o?.toList.map (scope, ·)) (fun _ => none) o?)
      (o?.mapM visit) := by
  rw [← bind_pure (o?.mapM visit)]
  exact slot_answers h kind _ fun _ => ⟨rfl, rfl⟩

theorem FieldDescriptor.traverseOptions_answers (f : FieldDescriptor) :
    Delivers D (Revises V slots (fun f => f.options.toList.map (scope, ·)) bare f)
      (f.traverseOptions visit) :=
  slot_answers h .field bare fun _ => ⟨rfl, rfl⟩

theorem EnumDescriptor.traverseOptions_answers (e : EnumDescriptor) :
    Delivers D
      (Revises V slots (fun e => e.optionsList.map (scope, ·)) (mapOptions fun _ => none) e)
      (e.traverseOptions visit) := by
  refine (option_answers h .enum _).bind fun options hoptions => ?_
  refine (list_answers
      fun v _ => slot_answers h .enumValue (EnumValueDescriptor.mapOptions fun _ => none)
      (by exact fun _ => ⟨rfl, rfl⟩)).bind
    fun values hvalues => .pure ⟨?_, ?_, ?_⟩
  · simp [mapOptions, hvalues.bare_eq]
  · exact rel_append hoptions.slots hvalues.slots
  · simp only [optionsList, map_append, map_flatMap]
    exact rel_append hoptions.within hvalues.within

end Element

variable {visit : String → Options → EStateM ε σ Options}
  (h : ∀ scope o, Delivers D (V scope o) (visit scope o))
include h

theorem ServiceDescriptor.traverseOptions_answers (scope : String) (s : ServiceDescriptor) :
    Delivers D (Revises V slots (optionsList scope) (mapOptions fun _ => none) s)
      (s.traverseOptions visit scope) := by
  refine (option_answers (h scope) .service _).bind fun options hoptions => ?_
  refine (list_answers fun x _ => slot_answers (h _) .method MethodDescriptor.bare
      (by exact fun _ => ⟨rfl, rfl⟩)).bind
    fun methods hmethods => .pure ⟨?_, ?_, ?_⟩
  · simp [mapOptions, hmethods.bare_eq]
  · exact rel_append hoptions.slots hmethods.slots
  · exact rel_append hoptions.within hmethods.within

theorem MessageDescriptor.traverseOptions_answers (scope : String) (d : MessageDescriptor) :
    Delivers D (Revises V slots (optionsWithin scope) bare d) (d.traverseOptions visit scope) := by
  induction d using nesting generalizing scope with
  | _ _ _ ih =>
    simp only [traverseOptions, traverseNestedOptions_eq]
    refine (option_answers (h scope) .message _).bind fun options' hoptions => ?_
    refine (list_answers fun f _ => f.traverseOptions_answers (h _)).bind fun fields' hfields => ?_
    refine (list_answers fun f _ => f.traverseOptions_answers (h _)).bind
      fun extensions' hextensions => ?_
    refine (list_answers fun o _ => slot_answers (h _) .oneof
      (OneofDescriptor.mapOptions fun _ => none) (by exact fun _ => ⟨rfl, rfl⟩)).bind
      fun oneofs' honeofs => ?_
    refine (list_answers fun r _ => slot_answers (h _) .extensionRange
      (ExtensionRange.mapOptions fun _ => none) (by exact fun _ => ⟨rfl, rfl⟩)).bind
      fun ranges' hranges => ?_
    refine (list_answers fun e _ => e.traverseOptions_answers (h _)).bind fun enums' henums => ?_
    refine (list_answers fun x hx => ih x hx _).bind fun nested' hnested => .pure ⟨?_, ?_, ?_⟩
    · simp only [mapOptions, mapNestedOptions_eq]
      rw [hfields.bare_eq, hextensions.bare_eq, honeofs.bare_eq, hranges.bare_eq, henums.bare_eq,
        hnested.bare_eq]
    · simp only [slots, nestedSlots_eq, flatMap_append]
      exact rel_append (rel_append (rel_append (rel_append (rel_append hoptions.slots
        (rel_append hfields.slots hextensions.slots)) honeofs.slots) hranges.slots) henums.slots)
        hnested.slots
    · simp only [optionsWithin, nestedOptionsWithin_eq, flatMap_append, map_append, map_flatMap]
      exact rel_append (rel_append hoptions.within (rel_append (rel_append (rel_append (rel_append
        hfields.within hextensions.within) honeofs.within) hranges.within) henums.within))
        hnested.within

theorem FileDescriptor.traverseOptions_answers (f : FileDescriptor) :
    Delivers D (Revises V slots allOptions bare f) (f.traverseOptions visit) := by
  simp only [traverseOptions, MessageDescriptor.traverseNestedOptions_eq]
  refine (option_answers (h f.package) .file _).bind fun options hoptions => ?_
  refine (list_answers fun d _ => d.traverseOptions_answers h _).bind fun messages hmessages => ?_
  refine (list_answers fun e _ => e.traverseOptions_answers (h _)).bind fun enums henums => ?_
  refine (list_answers fun x _ => x.traverseOptions_answers (h _)).bind
    fun extensions hextensions => ?_
  refine (list_answers fun s _ => s.traverseOptions_answers h _).bind
    fun services hservices => .pure ⟨?_, ?_, ?_⟩
  · simp only [mapOptions]
    rw [hmessages.bare_eq, henums.bare_eq, hextensions.bare_eq, hservices.bare_eq]
  · simp only [slots, MessageDescriptor.nestedSlots_eq]
    exact rel_append
      (rel_append (rel_append (rel_append hoptions.slots hmessages.slots) henums.slots)
      hextensions.slots) hservices.slots
  · simp only [allOptions, MessageDescriptor.nestedOptionsWithin_eq, map_append, map_flatMap]
    exact rel_append (rel_append (rel_append hoptions.within hmessages.within)
      (rel_append henums.within hextensions.within)) hservices.within

end Options

theorem OptionResolver.interpretOptions_eq_pure {r : OptionResolver} {scope : String} {o : Options}
    (h : o.uninterpreted = []) : r.interpretOptions scope o = pure o := by
  funext log
  simp only [interpretOptions, interpretAll, bind, EStateM.bind, estate_get, h]
  rfl

theorem FileDescriptor.hasLeftovers_iff {f : FileDescriptor} :
    f.hasLeftovers false = false ↔ ∀ x ∈ f.allOptions, x.2.uninterpreted = [] := by
  simp [hasLeftovers]

namespace Canonicalizer

theorem canonicalize_steps (c : Canonicalizer) (file : FileDescriptor) (log : Log) :
    c.canonicalize file log =
      (do
        let f ← c.interpretOptions (c.qualifyNames file log).1
        if c.options.normalizeDefaults then ofExcept (normalizeDefaults f) else return f)
      (c.qualifyNames file log).2 := rfl

theorem canonicalize_eq {c : Canonicalizer} {file : FileDescriptor} {log : Log}
    (hdefaults : c.options.normalizeDefaults = false) :
    c.canonicalize file log =
      c.interpretOptions (c.qualifyNames file log).1 (c.qualifyNames file log).2 := by
  rw [canonicalize_steps, hdefaults]
  simp only [bind, EStateM.bind]
  split
  · rename_i hinterpret
    rw [hinterpret]
    rfl
  · rename_i hinterpret
    exact hinterpret.symm

end Canonicalizer

end ProtobufSchema

import ProtobufSchema.Diagnostic

/-! Work that answers and reports the same after any log, so that a log can be cut off in front of
it. -/

namespace ProtobufSchema

variable (ds : List Diagnostic)

section State

variable {ε σ α β : Type} {x : EStateM ε σ α} {f : α → EStateM ε σ β} {s s' : σ}

theorem bind_run {a : α} (h : x s = .ok a s') : (x >>= f) s = f a s' := by
  simp [bind, EStateM.bind, h]

theorem bind_ok {b : β} (h : (x >>= f) s = .ok b s') : ∃ a t, x s = .ok a t ∧ f a t = .ok b s' := by
  simp only [bind, EStateM.bind] at h
  split at h
  · rename_i a t hx
    exact ⟨a, t, hx, h⟩
  · cases h

theorem get_ok {f : σ → EStateM ε σ β} {b : β} (h : (get >>= f) s = .ok b s') : f s s = .ok b s' :=
  h

theorem estate_get (s : σ) : (get : EStateM ε σ σ) s = .ok s s := rfl

theorem estate_set (s s' : σ) : (set s' : EStateM ε σ PUnit) s = .ok ⟨⟩ s' := rfl

theorem estate_modify (f : σ → σ) (s : σ) : (modify f : EStateM ε σ PUnit) s = .ok ⟨⟩ (f s) := rfl

end State

theorem map_eq_ok {ε α β : Type} {x : Except ε α} {g : α → β} {b : β} (h : x.map g = .ok b) :
    ∃ a, x = .ok a ∧ g a = b := by
  cases x with
  | error e => cases h
  | ok a => exact ⟨a, rfl, Except.ok.inj h⟩

namespace Log

variable (log : Log)

def extend (log : Log) (ds : List Diagnostic) : Log := ⟨log.entries ++ ds⟩

@[simp]
theorem extend_nil : log.extend [] = log := by
  simp [extend]

@[simp]
theorem extend_extend (log : Log) (ds es : List Diagnostic) :
    (log.extend ds).extend es = log.extend (ds ++ es) := by
  simp [extend]

@[simp]
theorem size_extend : (log.extend ds).size = log.size + ds.length := by
  simp [size, extend]

theorem extend_injective {ds es : List Diagnostic} (h : log.extend ds = log.extend es) :
    ds = es := by
  have hentries := congrArg entries h
  exact List.append_cancel_left hentries

theorem foldl_report (log : Log) (ds : List Diagnostic) : ds.foldl report log = log.extend ds := by
  induction ds generalizing log with
  | nil => simp
  | cons d ds ih =>
    rw [List.foldl_cons, ih]
    exact extend_extend log [d] ds

end Log

def reporting {α : Type} (ds : List Diagnostic) (a : α) : StateM Log α := fun log =>
  (a, log.extend ds)

/-- Fails with the first of some errors, and answers where there are none. -/
def raising {ε α : Type} (es : List ε) (a : α) : Except ε α :=
  match es with
  | [] => .ok a
  | e :: _ => .error e

/-- Answers may come with notes, which add up in the order in which they are made. -/
class Noting (w : outParam Type) (m : Type → Type) [Monad m] where
  note {α : Type} : List w → α → m α
  pure_eq {α : Type} (a : α) : pure a = note [] a
  bind_eq {α β : Type} (ds : List w) (a : α) (es : α → List w) (g : α → β) :
    (note ds a >>= fun a => note (es a) (g a)) = note (ds ++ es a) (g a)

section Reporting

variable {α β : Type}

theorem pure_eq_reporting (a : α) : (pure a : StateM Log α) = reporting [] a := by
  funext log
  exact Prod.ext rfl log.extend_nil.symm

theorem report_eq_reporting (d : Diagnostic) (a : α) :
    (do modify (·.report d); return a : StateM Log α) = reporting [d] a := rfl

theorem reporting_bind (a : α) (es : α → List Diagnostic) (g : α → β) :
    (reporting ds a >>= fun a => reporting (es a) (g a)) = reporting (ds ++ es a) (g a) := by
  funext log
  simp [reporting, bind, StateT.bind]

instance : Noting Diagnostic (StateM Log) where
  note := reporting
  pure_eq := pure_eq_reporting
  bind_eq ds := reporting_bind ds

instance {ε : Type} : Noting ε (Except ε) where
  note := raising
  pure_eq _ := rfl
  bind_eq ds _ _ _ := by cases ds <;> rfl

open Noting (note) in
theorem mapM_note {w : Type} {m : Type → Type} [Monad m] [LawfulMonad m] [Noting w m] {f : α → m β}
    {r : α → List w} {g : α → β} {xs : List α} (h : ∀ x ∈ xs, f x = note (r x) (g x)) :
    xs.mapM f = note (xs.flatMap r) (xs.map g) := by
  induction xs with
  | nil => rw [List.mapM_nil, Noting.pure_eq, List.flatMap_nil, List.map_nil]
  | cons x xs ih =>
    rw [List.mapM_cons, h x (by simp), ih fun y hy => h y (by simp [hy])]
    simp [Noting.pure_eq, Noting.bind_eq]

theorem foldlM_reporting {P : Diagnostic → Prop} {f : β → α → StateM Log β}
    (hf : ∀ b x, ∃ ds b', (∀ d ∈ ds, P d) ∧ f b x = reporting ds b') (b : β) (xs : List α) :
    ∃ ds b', (∀ d ∈ ds, P d) ∧ xs.foldlM f b = reporting ds b' := by
  induction xs generalizing b with
  | nil => exact ⟨[], b, by simp, pure_eq_reporting b⟩
  | cons x xs ih =>
    obtain ⟨ds, c, hds, hstep⟩ := hf b x
    obtain ⟨es, b', hes, hrest⟩ := ih c
    refine ⟨ds ++ es, b', ?_, ?_⟩
    · exact List.forall_mem_append.mpr ⟨hds, hes⟩
    · rw [List.foldlM_cons, hstep]
      funext log
      have hlater := congrFun hrest (log.extend ds)
      simpa [reporting, bind, StateT.bind] using hlater

end Reporting

class Logged (σ : Type) where
  withLog : σ → Log → σ

instance : Logged Log := ⟨fun _ log => log⟩

open Logged (withLog)

section Reports

variable {ε σ α β : Type}

def ended (r : Except ε α) (s : σ) : EStateM.Result ε σ α :=
  match r with
  | .ok a => .ok a s
  | .error e => .error e s

variable [Logged σ]

/-- A computation that does not look at the log: it ends in the same way after any log, and what it
reported stands behind that log and has a property. -/
def Reports (P : Diagnostic → Prop) (x : EStateM ε σ α) : Prop :=
  ∀ s : σ, ∃ (r : Except ε α) (s' : σ) (ds : List Diagnostic), (∀ d ∈ ds, P d) ∧
    ∀ log, x (withLog s log) = ended r (withLog s' (log.extend ds))

namespace Reports

variable {P : Diagnostic → Prop}

theorem pure (a : α) : Reports P (pure a : EStateM ε σ α) := by
  intro s
  refine ⟨.ok a, s, [], by simp, ?_⟩
  intro log
  rw [Log.extend_nil]
  rfl

theorem throw (e : ε) : Reports P (throw e : EStateM ε σ α) := by
  intro s
  refine ⟨.error e, s, [], by simp, ?_⟩
  intro log
  rw [Log.extend_nil]
  rfl

theorem bind_of {x : EStateM ε σ α} {f : α → EStateM ε σ β} (hx : Reports P x)
    (hf : ∀ s a s', x s = .ok a s' → Reports P (f a)) : Reports P (x >>= f) := by
  intro s
  obtain ⟨r, s', ds, hds, hrun⟩ := hx s
  cases r with
  | error e =>
    refine ⟨.error e, s', ds, hds, ?_⟩
    intro log
    simp [bind, EStateM.bind, hrun log, ended]
  | ok a =>
    obtain ⟨r, s'', es, hes, hrest⟩ := hf _ a _ (hrun .empty) s'
    refine ⟨r, s'', ds ++ es, List.forall_mem_append.mpr ⟨hds, hes⟩, ?_⟩
    intro log
    have hlater := hrest (log.extend ds)
    rw [Log.extend_extend] at hlater
    simp only [bind, EStateM.bind, hrun log]
    exact hlater

theorem bind {x : EStateM ε σ α} {f : α → EStateM ε σ β} (hx : Reports P x)
    (hf : ∀ a, Reports P (f a)) : Reports P (x >>= f) :=
  hx.bind_of fun _ a _ _ => hf a

theorem get_bind {f : σ → EStateM ε σ β} (hlog : ∀ s log, f (withLog s log) = f s)
    (hf : ∀ s, Reports P (f s)) : Reports P (get >>= f) := by
  intro s
  obtain ⟨r, s', ds, hds, hrun⟩ := hf s s
  refine ⟨r, s', ds, hds, ?_⟩
  intro log
  have hread : (get >>= f) (withLog s log) = f (withLog s log) (withLog s log) := rfl
  rw [hread, hlog]
  exact hrun log

theorem modify_report {f : σ → σ} {d : σ → Diagnostic} (hd : ∀ s, P (d s))
    (hf : ∀ s log, f (withLog s log) = withLog s (log.report (d s))) :
    Reports P (modify f : EStateM ε σ PUnit) := by
  intro s
  refine ⟨.ok (), s, [d s], by simpa using hd s, ?_⟩
  intro log
  have hreport : log.extend [d s] = log.report (d s) := rfl
  rw [hreport, ← hf]
  rfl

theorem modify {f : σ → σ} (hf : ∀ s log, f (withLog s log) = withLog (f s) log) :
    Reports P (modify f : EStateM ε σ PUnit) := by
  intro s
  refine ⟨.ok (), f s, [], by simp, ?_⟩
  intro log
  rw [Log.extend_nil, ← hf]
  rfl

theorem run {x : Reporting ε α} (h : Reports P x) :
    ∃ (r : Except ε α) (ds : List Diagnostic), (∀ d ∈ ds, P d) ∧
      ∀ log, x log = ended r (log.extend ds) := by
  obtain ⟨r, _, ds, hds, hrun⟩ := h .empty
  exact ⟨r, ds, hds, hrun⟩

theorem of_run {x : Reporting ε α} {r : Except ε α} {ds : List Diagnostic} (hds : ∀ d ∈ ds, P d)
    (hrun : ∀ log, x log = ended r (log.extend ds)) : Reports P x :=
  fun s => ⟨r, s, ds, hds, hrun⟩

end Reports

end Reports

end ProtobufSchema

import Mathlib.Data.Fintype.Card
import Mathlib.Data.Set.Finite.Basic
import Mathlib.Logic.Relation
import Mathlib.Order.WellFounded
import ProtobufSchema.Proofs.BuildOrder

/-! What is said of each import of the files that are stuck. The circular imports remembered are
only those reported, but an import and one the other way round are circular together, so they tell
as much as all. -/

namespace ProtobufSchema

open List

variable {i : Nat}

namespace ImportGraph

variable {g : ImportGraph} {a x y : String}

def Imports (g : ImportGraph) (x y : String) : Prop := y ∈ g.imports x

def files (g : ImportGraph) : Finset String := (g.edges.map Prod.fst).toFinset

theorem mem_files_of_imports (h : g.Imports x y) : x ∈ g.files := by
  unfold Imports imports at h
  cases hlookup : g.edges.lookup x with
  | none =>
    rw [hlookup] at h
    cases h
  | some targets =>
    obtain ⟨before, after, hedges, _⟩ := lookup_eq_some_iff.mp hlookup
    simp [files, hedges]

theorem card_files_le (g : ImportGraph) : g.files.card ≤ g.edges.length := by
  have hcard := toFinset_card_le (g.edges.map Prod.fst)
  rwa [length_map] at hcard

theorem mem_spread {xs : List String} : y ∈ g.spread xs ↔ y ∈ xs ∨ ∃ x ∈ xs, g.Imports x y := by
  simp [spread, Imports]

def Closed (g : ImportGraph) (xs : List String) : Prop := ∀ x ∈ xs, ∀ y, g.Imports x y → y ∈ xs

def found (g : ImportGraph) (a : String) (n : Nat) : Finset String :=
  g.files.filter (· ∈ g.within a n)

theorem found_subset_succ (g : ImportGraph) (a : String) (n : Nat) :
    g.found a n ⊆ g.found a (n + 1) := by
  intro x hx
  obtain ⟨hfile, hwithin⟩ := Finset.mem_filter.mp hx
  exact Finset.mem_filter.mpr ⟨hfile, mem_spread.mpr (.inl hwithin)⟩

theorem closed_succ {n : Nat} (h : g.found a (n + 1) ⊆ g.found a n) :
    g.Closed (g.within a (n + 1)) := by
  intro x hx y hxy
  have hfound : x ∈ g.found a (n + 1) := Finset.mem_filter.mpr ⟨mem_files_of_imports hxy, hx⟩
  obtain ⟨_, hwithin⟩ := Finset.mem_filter.mp (h hfound)
  exact mem_spread.mpr (.inr ⟨x, hwithin, hxy⟩)

theorem lt_card_found_or_closed (g : ImportGraph) (a : String) (n : Nat) :
    n < (g.found a n).card ∨ g.Closed (g.within a n) := by
  induction n with
  | zero =>
    by_cases ha : a ∈ g.files
    · left
      have hfound : a ∈ g.found a 0 := mem_filter.mpr ⟨ha, by simp [within]⟩
      exact Finset.card_pos.mpr ⟨a, hfound⟩
    · right
      intro x hx y hxy
      cases mem_singleton.mp hx
      exact absurd (mem_files_of_imports hxy) ha
  | succ n ih =>
    by_cases hnew : g.found a (n + 1) ⊆ g.found a n
    · exact .inr (closed_succ hnew)
    · rcases ih with hcard | hclosed
      · have hlt : (g.found a n).card < (g.found a (n + 1)).card :=
          Finset.card_lt_card ⟨g.found_subset_succ a n, hnew⟩
        omega
      · refine absurd ?_ hnew
        intro x hx
        obtain ⟨hfile, hwithin⟩ := Finset.mem_filter.mp hx
        refine Finset.mem_filter.mpr ⟨hfile, ?_⟩
        rcases mem_spread.mp hwithin with hold | ⟨z, hz, hzx⟩
        · exact hold
        · exact hclosed z hz x hzx

theorem closed_within (g : ImportGraph) (a : String) : g.Closed (g.within a g.edges.length) := by
  rcases g.lt_card_found_or_closed a g.edges.length with hcard | hclosed
  · have hle := Finset.card_le_card (Finset.filter_subset (· ∈ g.within a g.edges.length) g.files)
    have hfiles := g.card_files_le
    unfold found at hcard
    omega
  · exact hclosed

theorem mem_within_self (g : ImportGraph) (a : String) (n : Nat) : a ∈ g.within a n := by
  induction n with
  | zero => exact mem_singleton_self a
  | succ n ih => exact mem_spread.mpr (.inl ih)

theorem reflTransGen_of_mem_within {n : Nat} (h : x ∈ g.within a n) :
    Relation.ReflTransGen g.Imports a x := by
  induction n generalizing x with
  | zero =>
    cases mem_singleton.mp h
    exact .refl
  | succ n ih =>
    rcases mem_spread.mp h with hold | ⟨z, hz, hzx⟩
    · exact ih hold
    · exact (ih hz).tail hzx

theorem reaches_iff (g : ImportGraph) {b : String} :
    g.reaches a b = true ↔ Relation.ReflTransGen g.Imports a b := by
  rw [reaches, Bool.or_eq_true, contains_iff_mem, contains_iff_mem]
  constructor
  · rintro (hdirect | hwithin)
    · exact .single hdirect
    · exact reflTransGen_of_mem_within hwithin
  · intro h
    right
    induction h with
    | refl => exact g.mem_within_self a _
    | tail _ hstep ih => exact g.closed_within a _ ih _ hstep

end ImportGraph

theorem exists_cycle {α : Type} {r : α → α → Prop} {S : Set α} (hfinite : S.Finite)
    (hne : S.Nonempty) (hnext : ∀ x ∈ S, ∃ y ∈ S, r x y) :
    ∃ x ∈ S, ∃ y ∈ S, r x y ∧ Relation.ReflTransGen r y x := by
  by_contra hcycle
  have : Finite S := hfinite
  -- Without a cycle, what an element leads to is below it in a well-founded order.
  have hirrefl : Std.Irrefl (Relation.TransGen fun y x : S => r x y) := by
    constructor
    intro x hx
    obtain ⟨y, hyx, hxy⟩ := Relation.TransGen.tail'_iff.mp hx
    have hback : Relation.ReflTransGen (fun a b : S => r a b) y x :=
      Relation.reflTransGen_swap.mp hyx
    exact hcycle ⟨x, x.2, y, y.2, hxy, hback.lift Subtype.val fun _ _ h => h⟩
  have hwf := Finite.wellFounded_of_trans_of_irrefl (Relation.TransGen fun y x : S => r x y)
  obtain ⟨x, hx⟩ := hne
  obtain ⟨m, _, hmin⟩ := hwf.has_min .univ ⟨⟨x, hx⟩, trivial⟩
  obtain ⟨y, hy, hmy⟩ := hnext m m.2
  exact hmin ⟨y, hy⟩ trivial (.single hmy)

/-! ### Imports of stuck files -/

def Pending.imports (p : Pending) : List (String × String) :=
  p.flatMap fun (name, f) => f.file.dependencies.map (name, ·)

/-- What is imported is one of the files, and their imports lead from it back to the importer. -/
def Pending.Circular (p : Pending) (name target : String) : Prop :=
  p.contains target = true ∧ Relation.ReflTransGen (fun x y => (x, y) ∈ p.imports) target name

theorem Pending.mem_imports {p : Pending} {x y : String} :
    (x, y) ∈ p.imports ↔ ∃ f, (x, f) ∈ p ∧ y ∈ f.file.dependencies := by
  simp [imports]

namespace Diagnostic

def missingImport (name target : String) : Diagnostic :=
  (violation .missingDependency ("import \"" ++ target ++ "\" was not found")).inFile name

def circularImport (name target : String) : Diagnostic :=
  (violation .circularDependency
    ("file \"" ++ name ++ "\" has a circular dependency on \"" ++ target ++ "\"")).inFile name

def unbuiltImport (name target : String) : Diagnostic :=
  (violation .unbuiltDependency ("import \"" ++ target ++
    "\" exists but could not be built")).inFile name

end Diagnostic

open Diagnostic

namespace Compiler

variable {c : Compiler} {set : FileSet} {stuck : Pending} {name target : String}
  {cycles earlier : Cycles}

def Joins (stuck : Pending) (name target : String) (i : Nat) : Prop :=
  stuck.imports[i]? = some (name, target) ∨ stuck.imports[i]? = some (target, name)

/-- What is said of the import at a position among those of the stuck files. A circular one is
reported wherever it is written, or else at one of the places where one of its ends imports the
other. -/
structure IsJudged (c : Compiler) (set : FileSet) (stuck : Pending) (verdict? : Nat →
    Option Diagnostic) (i : Nat) (name target : String) : Prop where
  finished : target = metaSchemaFile ∨ set.contains target = true → verdict? i = none
  missing : target ≠ metaSchemaFile → set.contains target = false → c.hasInput target = false →
    verdict? i = some (missingImport name target)
  circular : target ≠ metaSchemaFile → set.contains target = false → c.hasInput target = true →
    stuck.Circular name target →
      if c.options.bothEndsOfCycles then verdict? i = some (circularImport name target)
      else (∀ d ∈ verdict? i, d = circularImport name target) ∧
        ∃! j, Joins stuck name target j ∧ (verdict? j).isSome = true
  other : target ≠ metaSchemaFile → set.contains target = false → c.hasInput target = true →
    ¬stuck.Circular name target →
      verdict? i = if c.options.unbuiltImports then some (unbuiltImport name target) else none

structure Closes (c : Compiler) (set : FileSet) (stuck : Pending) (name target : String) :
    Prop where
  unfinished : set.dependency? target = none
  input : c.hasInput target = true
  waits : stuck.contains target = true
  back : stuck.graph.reaches target name = true

theorem diagnose_cons (c : Compiler) (set : FileSet) (stuck : Pending) (cycles : Cycles)
    (name target : String) (rest : List (String × String)) :
    c.diagnose set stuck cycles ((name, target) :: rest) =
      (c.diagnoseImport set stuck name target cycles).2.toList ++
        c.diagnose set stuck (c.diagnoseImport set stuck name target cycles).1 rest := rfl

theorem Closes.diagnoseImport (h : c.Closes set stuck name target) (cycles : Cycles) :
    c.diagnoseImport set stuck name target cycles =
      if c.options.bothEndsOfCycles = false ∧
        ((name, target) ∈ cycles ∨ (target, name) ∈ cycles) then
        (cycles, none)
      else ((name, target) :: cycles, some (circularImport name target)) := by
  simp only [Compiler.diagnoseImport, h.unfinished, h.input, h.waits, h.back, Option.isSome_none,
    Bool.false_eq_true, if_false, Bool.not_true, Bool.and_self, if_true]
  refine if_congr ?_ rfl rfl
  simp

def openVerdict? (c : Compiler) (set : FileSet) (name target : String) : Option Diagnostic :=
  if (set.dependency? target).isSome then none
  else if !c.hasInput target then some (missingImport name target)
  else if c.options.unbuiltImports then some (unbuiltImport name target) else none

theorem diagnoseImport_of_not_closes (h : ¬c.Closes set stuck name target) (cycles : Cycles) :
    c.diagnoseImport set stuck name target cycles = (cycles, c.openVerdict? set name target) := by
  unfold diagnoseImport openVerdict?
  split
  · rfl
  · next hnone =>
    split
    · rfl
    · next hinput =>
      rw [if_neg]
      · split <;> rfl
      · intro hback
        obtain ⟨hwaits, hback⟩ := Bool.and_eq_true_iff.mp hback
        exact h ⟨by simpa using hnone, by simpa using hinput, hwaits, hback⟩

theorem diagnoseImport_cycles (c : Compiler) (set : FileSet) (stuck : Pending)
    (name target : String) (cycles : Cycles) :
    (c.diagnoseImport set stuck name target cycles).1 = cycles ∨
      (c.diagnoseImport set stuck name target cycles).1 = (name, target) :: cycles := by
  by_cases hcloses : c.Closes set stuck name target
  · rw [hcloses.diagnoseImport]
    split
    · exact .inl rfl
    · exact .inr rfl
  · rw [diagnoseImport_of_not_closes hcloses]
    exact .inl rfl

/-- The circular imports remembered are among those looked at before, and each circular one of these
is among them from one of its ends. -/
structure Recalls (c : Compiler) (set : FileSet) (stuck : Pending) (earlier cycles : Cycles) :
    Prop where
  seen : ∀ p ∈ cycles, p ∈ earlier
  kept : ∀ x y, (x, y) ∈ earlier → c.Closes set stuck x y → (x, y) ∈ cycles ∨ (y, x) ∈ cycles

theorem Recalls.step (h : c.Recalls set stuck earlier cycles) (name target : String) :
    c.Recalls set stuck (earlier ++ [(name, target)])
      (c.diagnoseImport set stuck name target cycles).1 := by
  have hcycles : ∀ p ∈ cycles, p ∈ (c.diagnoseImport set stuck name target cycles).1 := by
    intro p hp
    rcases c.diagnoseImport_cycles set stuck name target cycles with hsame | hnew
    · rwa [hsame]
    · exact hnew ▸ mem_cons_of_mem _ hp
  constructor
  · intro p hp
    rcases c.diagnoseImport_cycles set stuck name target cycles with hsame | hnew
    · exact mem_append_left _ (h.seen p (hsame ▸ hp))
    · rcases mem_cons.mp (hnew ▸ hp) with rfl | hp
      · simp
      · exact mem_append_left _ (h.seen p hp)
  · intro x y hxy hcloses
    rcases mem_append.mp hxy with hxy | hxy
    · exact (h.kept x y hxy hcloses).imp (hcycles _) (hcycles _)
    · cases mem_singleton.mp hxy
      rw [hcloses.diagnoseImport] at hcycles ⊢
      split at hcycles
      · next hsuppressed =>
        rw [if_pos hsuppressed]
        exact hsuppressed.2
      · next hreported =>
        rw [if_neg hreported]
        exact .inl mem_cons_self

def ClosesBoth (c : Compiler) (set : FileSet) (stuck : Pending) (imports : Cycles) : Prop :=
  ∀ x y, (x, y) ∈ imports → (y, x) ∈ imports → c.Closes set stuck x y

theorem Recalls.diagnoseImport (h : c.Recalls set stuck earlier cycles)
    (hboth : (target, name) ∈ earlier → c.Closes set stuck target name) :
    (c.diagnoseImport set stuck name target cycles).2 =
      (c.diagnoseImport set stuck name target earlier).2 := by
  by_cases hcloses : c.Closes set stuck name target
  · have hsame : (name, target) ∈ cycles ∨ (target, name) ∈ cycles ↔
        (name, target) ∈ earlier ∨ (target, name) ∈ earlier := by
      refine ⟨.imp (h.seen _) (h.seen _), ?_⟩
      rintro (hmem | hmem)
      · exact h.kept _ _ hmem hcloses
      · exact (h.kept _ _ hmem (hboth hmem)).symm
    rw [hcloses.diagnoseImport, hcloses.diagnoseImport]
    simp only [hsame]
    split <;> rfl
  · rw [diagnoseImport_of_not_closes hcloses, diagnoseImport_of_not_closes hcloses]

theorem diagnose_eq {rest : Cycles} (h : c.Recalls set stuck earlier cycles)
    (hboth : c.ClosesBoth set stuck (earlier ++ rest)) :
    c.diagnose set stuck cycles rest = (range rest.length).filterMap fun i =>
      rest[i]?.bind fun x => (c.diagnoseImport set stuck x.1 x.2 (earlier ++ rest.take i)).2 := by
  induction rest generalizing earlier cycles with
  | nil => rfl
  | cons x rest ih =>
    obtain ⟨name, target⟩ := x
    have hnow := h.diagnoseImport fun (hmem : (target, name) ∈ earlier) =>
      hboth target name (by simp [hmem]) (by simp)
    have hlater := ih (h.step name target) (by simpa using hboth)
    rw [diagnose_cons, hlater, hnow, length_cons, range_succ_eq_map, filterMap_cons]
    simp only [filterMap_map, append_assoc, getElem?_cons_zero, take_zero, append_nil,
      Option.bind_some]
    cases (c.diagnoseImport set stuck name target earlier).2 <;> rfl

def verdict? (c : Compiler) (set : FileSet) (stuck : Pending) (i : Nat) : Option Diagnostic :=
  stuck.imports[i]?.bind fun x => (c.diagnoseImport set stuck x.1 x.2 (stuck.imports.take i)).2

theorem verdict?_eq (hi : stuck.imports[i]? = some (name, target)) :
    c.verdict? set stuck i = (c.diagnoseImport set stuck name target (stuck.imports.take i)).2 := by
  rw [verdict?, hi, Option.bind_some]

theorem mem_take_imports_iff :
    (name, target) ∈ stuck.imports.take i ∨ (target, name) ∈ stuck.imports.take i ↔
      ∃ k < i, Joins stuck name target k := by
  simp only [mem_iff_getElem?, getElem?_take, Joins]
  grind

theorem exists_first_joins (hi : stuck.imports[i]? = some (name, target)) :
    ∃ m, Joins stuck name target m ∧ ∀ k < m, ¬Joins stuck name target k := by
  classical
  have hsome : ∃ j, Joins stuck name target j := ⟨i, .inl hi⟩
  exact ⟨.find hsome, Nat.find_spec hsome, fun _ => Nat.find_min hsome⟩

theorem Closes.verdict?_cases (h : c.Closes set stuck name target)
    (hi : stuck.imports[i]? = some (name, target)) :
    (c.options.bothEndsOfCycles = false ∧ ∃ k < i, Joins stuck name target k) ∧
        c.verdict? set stuck i = none ∨
      ¬(c.options.bothEndsOfCycles = false ∧ ∃ k < i, Joins stuck name target k) ∧
        c.verdict? set stuck i = some (circularImport name target) := by
  rw [verdict?_eq hi, h.diagnoseImport, ← mem_take_imports_iff]
  split
  · exact .inl ⟨‹_›, rfl⟩
  · exact .inr ⟨‹_›, rfl⟩

section Sound

variable {reported : List Diagnostic} (hsound : c.Sound ⟨set, stuck, reported⟩)
include hsound

theorem graph_imports_iff : stuck.graph.Imports name target ↔ (name, target) ∈ stuck.imports := by
  obtain ⟨_, hnodup, _⟩ := nodup_append.mp hsound.names_nodup
  have hnames : (stuck.graph.edges.map Prod.fst).Nodup := by
    simpa [Pending.graph, Function.comp_def] using hnodup
  have hlookup : target ∈ (stuck.graph.edges.lookup name).getD [] ↔
      ∃ targets, stuck.graph.edges.lookup name = some targets ∧ target ∈ targets := by
    cases stuck.graph.edges.lookup name <;> simp
  rw [ImportGraph.Imports, ImportGraph.imports, hlookup, Pending.mem_imports]
  simp only [lookup_eq_some_iff_mem hnames]
  simp [Pending.graph]

theorem closes_iff : c.Closes set stuck name target ↔
    set.dependency? target = none ∧ c.hasInput target = true ∧ stuck.Circular name target := by
  have hgraph : stuck.graph.Imports = fun x y => (x, y) ∈ stuck.imports := by
    funext x y
    exact propext (graph_imports_iff hsound)
  rw [Pending.Circular, ← hgraph, ← ImportGraph.reaches_iff]
  constructor
  · rintro ⟨hnone, hinput, hwaits, hback⟩
    exact ⟨hnone, hinput, hwaits, hback⟩
  · rintro ⟨hnone, hinput, hwaits, hback⟩
    exact ⟨hnone, hinput, hwaits, hback⟩

theorem closesBoth : c.ClosesBoth set stuck stuck.imports := by
  intro x y hxy hyx
  obtain ⟨f, hf, _⟩ := Pending.mem_imports.mp hyx
  obtain ⟨input, hinput, hname, _⟩ := mem_assembled.mp (hsound.pending_assembled _ hf)
  refine (closes_iff hsound).mpr ⟨?_, hasInput_iff.mpr ⟨input, hinput⟩, ?_, .single hyx⟩
  · rw [FileSet.dependency?, if_neg hname, FileSet.get?, lookup_eq_none_iff]
    intro p hp
    simp only [bne_iff_ne]
    rintro rfl
    exact hsound.not_mem_names hf (mem_map_of_mem hp)
  · exact any_eq_true.mpr ⟨(y, f), hf, by simp⟩

theorem diagnoseAll_eq : c.diagnoseAll set stuck =
    (range stuck.imports.length).filterMap (c.verdict? set stuck) := by
  have hnone : c.Recalls set stuck [] [] := ⟨by simp, by simp⟩
  exact diagnose_eq hnone (closesBoth hsound)

theorem mem_diagnoseAll {d : Diagnostic} (h : c.verdict? set stuck i = some d) :
    d ∈ c.diagnoseAll set stuck := by
  rw [diagnoseAll_eq hsound]
  obtain ⟨x, hx, _⟩ := Option.bind_eq_some_iff.mp h
  exact mem_filterMap.mpr ⟨i, mem_range.mpr (List.getElem?_eq_some_iff.mp hx).1, h⟩

variable (hi : stuck.imports[i]? = some (name, target))
include hi

section

variable (h : c.Closes set stuck name target)
include h

/-- Of the places where two files import each other circularly, the first one is where it is
reported. -/
theorem Closes.isSome_verdict?_iff {j : Nat}
    (hj : Joins stuck name target j) (hone : c.options.bothEndsOfCycles = false) :
    (c.verdict? set stuck j).isSome = true ↔ ∀ k < j, ¬Joins stuck name target k := by
  rcases hj with hj | hj
  · have hcases := h.verdict?_cases hj
    grind
  · have hback := closesBoth hsound _ _ (mem_of_getElem? hj) (mem_of_getElem? hi)
    have hswap (k : Nat) : Joins stuck target name k ↔ Joins stuck name target k := or_comm
    have hcases := hback.verdict?_cases hj
    grind

theorem Closes.existsUnique (hone : c.options.bothEndsOfCycles = false) :
    ∃! j, Joins stuck name target j ∧ (c.verdict? set stuck j).isSome = true := by
  have hiff {j : Nat} (hj : Joins stuck name target j) := h.isSome_verdict?_iff hsound hi hj hone
  obtain ⟨m, hm, hfirst⟩ := exists_first_joins hi
  refine ⟨m, ⟨hm, (hiff hm).mpr hfirst⟩, ?_⟩
  rintro j ⟨hj, hsome⟩
  rcases lt_trichotomy j m with hlt | heq | hlt
  · exact absurd hj (hfirst j hlt)
  · exact heq
  · exact absurd hm ((hiff hj).mp hsome m hlt)

theorem Closes.exists_reported :
    ∃ x y, (x = name ∨ x = target) ∧ circularImport x y ∈ c.diagnoseAll set stuck := by
  obtain ⟨m, hm | hm, hfirst⟩ := exists_first_joins hi
  · rcases h.verdict?_cases hm with ⟨⟨_, k, hk, hjoins⟩, _⟩ | ⟨_, hverdict⟩
    · exact absurd hjoins (hfirst k hk)
    · exact ⟨name, target, .inl rfl, mem_diagnoseAll hsound hverdict⟩
  · have hback := closesBoth hsound _ _ (mem_of_getElem? hm) (mem_of_getElem? hi)
    rcases hback.verdict?_cases hm with ⟨⟨_, k, hk, hjoins⟩, _⟩ | ⟨_, hverdict⟩
    · exact absurd hjoins.symm (hfirst k hk)
    · exact ⟨target, name, .inr rfl, mem_diagnoseAll hsound hverdict⟩

end

theorem isJudged : c.IsJudged set stuck (c.verdict? set stuck) i name target := by
  have hnone (hname : target ≠ metaSchemaFile) (hunfinished : set.contains target = false) :
      set.dependency? target = none := by
    rw [FileSet.dependency?, if_neg hname]
    simpa [FileSet.contains] using hunfinished
  have hopen (h : ¬c.Closes set stuck name target) :
      c.verdict? set stuck i = c.openVerdict? set name target := by
    rw [verdict?_eq hi, diagnoseImport_of_not_closes h]
  constructor
  · intro hfinished
    have hsome : (set.dependency? target).isSome = true := by
      rw [FileSet.dependency?]
      split
      · rfl
      · exact hfinished.resolve_left ‹_›
    rw [hopen (fun h => by simp [h.unfinished] at hsome), openVerdict?, if_pos hsome]
  · intro hname hunfinished hinput
    rw [hopen (fun h => by simp [h.input] at hinput), openVerdict?]
    simp [hnone hname hunfinished, hinput]
  · intro hname hunfinished hinput hcircular
    have hcloses := (closes_iff hsound).mpr ⟨hnone hname hunfinished, hinput, hcircular⟩
    have hcases := hcloses.verdict?_cases hi
    split
    · next hboth => simpa [hboth] using hcases
    · next hone =>
      refine ⟨fun d hd => ?_, hcloses.existsUnique hsound hi (by simpa using hone)⟩
      rcases hcases with ⟨_, hverdict⟩ | ⟨_, hverdict⟩
      · cases hverdict.symm.trans hd
      · exact (Option.some.inj (hverdict.symm.trans hd)).symm
  · intro hname hunfinished hinput hcircular
    rw [hopen (fun h => hcircular ((closes_iff hsound).mp h).2.2), openVerdict?]
    simp [hnone hname hunfinished, hinput]

end Sound

end Compiler

end ProtobufSchema

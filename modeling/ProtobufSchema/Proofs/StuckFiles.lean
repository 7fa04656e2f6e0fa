import ProtobufSchema.Proofs.JudgedImports

/-! An input that is missing from the set leads, import by import, to one about which something was
reported. -/

namespace ProtobufSchema

variable {d : Diagnostic}

/-- A report that explains why a file was not finished. One without a cause is a syntax error. -/
def Diagnostic.ExplainsAbsence (d : Diagnostic) (file : String) : Prop :=
  d.file? = some file ∧ (d.cause? = none ∨
    ∃ cause ∈ Cause.ofFinishing ++ [.missingDependency, .circularDependency], d.cause? = some cause)

theorem Diagnostic.KeepsBack.explainsAbsence {file : String} (h : d.KeepsBack file) :
    d.ExplainsAbsence file := by
  obtain ⟨hfile, cause, hcause, hd⟩ := h
  exact ⟨hfile, .inr ⟨cause, List.mem_append_left _ hcause, hd⟩⟩

namespace Compiler

variable {c : Compiler} {finished : FileSet} {stuck : Pending} {name target : String}
variable {reported : List Diagnostic}

def ImportsInput (c : Compiler) (name target : String) : Prop :=
  c.Imports name target ∧ c.hasInput target = true

def Explained (c : Compiler) (reported : List Diagnostic) (name : String) : Prop :=
  ∃ g, Relation.ReflTransGen c.ImportsInput name g ∧ ∃ d ∈ reported, d.ExplainsAbsence g

theorem Explained.of_reported (hd : d ∈ reported) (h : d.ExplainsAbsence name) :
    c.Explained reported name :=
  ⟨name, .refl, d, hd, h⟩

theorem Explained.of_import (h : c.Explained reported target)
    (himport : c.ImportsInput name target) : c.Explained reported name := by
  obtain ⟨g, hchain, hd⟩ := h
  exact ⟨g, .head himport hchain, hd⟩

def unexplained (c : Compiler) (set : FileSet) (reported : List Diagnostic) : Set String :=
  { name | c.hasInput name = true ∧ set.get? name = none ∧ ¬ c.Explained reported name }

section Absence

variable {set : FileSet} {reported : List Diagnostic}
  (hc : c.IsAccepted) (hsound : c.Sound ⟨set, stuck, reported⟩)
include hc hsound

theorem stuck_of_unexplained (h : name ∈ c.unexplained set (reported ++ c.diagnoseAll set stuck)) :
    ∃ input f, c.inputs.lookup name = some input ∧ (name, f) ∈ stuck ∧
      f.file.dependencies = input.imports := by
  obtain ⟨hinput, habsent, hsilent⟩ := h
  obtain ⟨input, hinput⟩ := hasInput_iff.mp hinput
  have hname : name ≠ metaSchemaFile := by
    rintro rfl
    rw [hsound.get?_schema hinput] at habsent
    cases habsent
  cases hassembled : input.assembled? name with
  | none =>
    obtain ⟨d, hd, hfile, hcause⟩ := hsound.unparsed _ hinput hname hassembled
    exact absurd (.of_reported (List.mem_append_left _ hd) ⟨hfile, .inl hcause⟩) hsilent
  | some f =>
    have hmem : (name, f) ∈ assembled c.inputs :=
      mem_assembled.mpr ⟨input, hinput, hname, hassembled⟩
    obtain ⟨hown, himports⟩ :=
      SchemaInput.assembled?_heading (hc.wellNamed.isNamed _ hinput) hassembled
    rcases hsound.settled _ hmem with hstuck | ⟨_, ds, hfinish, hds⟩
    · exact ⟨input, f, (mem_inputs_iff hc).mpr hinput, hstuck, himports⟩
    · obtain ⟨hkeeps, ⟨_, hsome⟩ | ⟨_, q, _, hdone⟩⟩ := hfinish.answered
      · obtain ⟨d, hd⟩ := List.exists_mem_of_ne_nil ds hsome
        have hexplains := (hkeeps d hd).explainsAbsence
        rw [hown] at hexplains
        exact absurd (.of_reported (List.mem_append_left _ (hds d hd)) hexplains) hsilent
      · rw [habsent] at hdone
        cases hdone

theorem exists_unexplained_import (hend : set.ready stuck = [])
    (h : name ∈ c.unexplained set (reported ++ c.diagnoseAll set stuck)) :
    ∃ target ∈ c.unexplained set (reported ++ c.diagnoseAll set stuck),
      ∃ f, (name, f) ∈ stuck ∧ target ∈ f.file.dependencies ∧ set.dependency? target = none := by
  obtain ⟨input, f, hinput, hstuck, himports⟩ := stuck_of_unexplained hc hsound h
  have hwaits : set.isReady f ≠ true := by
    intro hready
    have hmem : (name, f) ∈ set.ready stuck := List.mem_filter.mpr ⟨hstuck, hready⟩
    rw [hend] at hmem
    cases hmem
  rw [ne_eq, FileSet.isReady_iff] at hwaits
  push Not at hwaits
  obtain ⟨target, htarget, hunfinished⟩ := hwaits
  have hnone : set.dependency? target = none := Option.eq_none_iff_forall_ne_some.mpr hunfinished
  have hgiven : c.hasInput target = true := by
    by_contra hmissing
    obtain ⟨i, hi⟩ := List.mem_iff_getElem?.mp (Pending.mem_imports.mpr ⟨f, hstuck, htarget⟩)
    have hverdict : c.verdict? set stuck i = some (.missingImport name target) := by
      rw [verdict?_eq hi, diagnoseImport_of_not_closes (fun hcloses => hmissing hcloses.input)]
      simp [openVerdict?, hnone, hmissing]
    exact h.2.2 (.of_reported (List.mem_append_right _ (mem_diagnoseAll hsound hverdict))
      ⟨rfl, .inr ⟨.missingDependency, by decide, rfl⟩⟩)
  refine ⟨target, ⟨hgiven, ?_, ?_⟩, f, hstuck, htarget, hnone⟩
  · unfold FileSet.dependency? at hnone
    split at hnone
    · cases hnone
    · exact hnone
  · intro hexplained
    exact h.2.2 (hexplained.of_import ⟨⟨input, hinput, himports ▸ htarget⟩, hgiven⟩)

/-- So nothing is unexplained: among finitely many such inputs there would be a circular import, and
that is reported from one of its ends. -/
theorem unexplained_eq_empty (hend : set.ready stuck = []) :
    c.unexplained set (reported ++ c.diagnoseAll set stuck) = ∅ := by
  by_contra hne
  have hfinite : (c.unexplained set (reported ++ c.diagnoseAll set stuck)).Finite := by
    apply (List.finite_toSet (stuck.map Prod.fst)).subset
    intro x hx
    obtain ⟨_, f, _, hstuck, _⟩ := stuck_of_unexplained hc hsound hx
    exact List.mem_map.mpr ⟨(x, f), hstuck, rfl⟩
  obtain ⟨x, hx, y, hy, ⟨f, hstuck, hxy, hnone⟩, hback⟩ :=
    exists_cycle hfinite (Set.nonempty_iff_ne_empty.mpr hne)
      fun x hx => exists_unexplained_import hc hsound hend hx
  have hback : Relation.ReflTransGen (fun a b => (a, b) ∈ stuck.imports) y x := by
    refine .mono ?_ _ _ hback
    rintro a b ⟨g, hg, hb, _⟩
    exact Pending.mem_imports.mpr ⟨g, hg, hb⟩
  have hcontains : stuck.contains y = true := by
    obtain ⟨_, g, _, hg, _⟩ := stuck_of_unexplained hc hsound hy
    exact List.any_eq_true.mpr ⟨(y, g), hg, by simp⟩
  have hcloses := (closes_iff hsound).mpr ⟨hnone, hy.1, hcontains, hback⟩
  obtain ⟨i, hi⟩ := List.mem_iff_getElem?.mp (Pending.mem_imports.mpr ⟨f, hstuck, hxy⟩)
  obtain ⟨a, b, ha, hd⟩ := hcloses.exists_reported hsound hi
  have hexplains : (Diagnostic.circularImport a b).ExplainsAbsence a :=
    ⟨rfl, .inr ⟨.circularDependency, by decide, rfl⟩⟩
  rcases ha with rfl | rfl
  · exact hx.2.2 (.of_reported (List.mem_append_right _ hd) hexplains)
  · exact hy.2.2 (.of_reported (List.mem_append_right _ hd) hexplains)

end Absence

end Compiler

/-- No input disappears silently. Unless a package is reserved, an input that is missing from the
set leads, by a chain of inputs that each import the next, to one about which a syntax error or one
of the causes that keep a file back was reported. So a build that reports nothing returns every
input. -/
theorem build_explains_absence {c : Compiler} (hc : c.IsAccepted) {set : FileSet}
    {before after : Log} (h : c.build before = .ok set after) :
    ∃ reported, after = before.extend reported ∧
      ((∀ d ∈ reported, d.cause? ≠ some .reservedSpaceViolation) →
        ∀ name, c.hasInput name = true → set.get? name = none →
          ∃ g, Relation.ReflTransGen c.ImportsInput name g ∧
            ∃ d ∈ reported, d.ExplainsAbsence g) ∧
      (reported = [] → ∀ name, c.hasInput name = true → set.contains name = true) := by
  rcases Compiler.build_cases hc h with ⟨_, ds, hlog, d, hd, hcause⟩ |
    ⟨stuck, reported, hsound, hend, hlog⟩
  · refine ⟨ds, hlog, ?_, ?_⟩
    · intro hunreserved
      exact absurd hcause (hunreserved d hd)
    · rintro rfl
      cases hd
  · have hempty := Compiler.unexplained_eq_empty hc hsound hend
    have hexplained (name : String) (hinput : c.hasInput name = true)
        (habsent : set.get? name = none) :
        c.Explained (reported ++ c.diagnoseAll set stuck) name := by
      by_contra hsilent
      have hmem : name ∈ c.unexplained set (reported ++ c.diagnoseAll set stuck) :=
        ⟨hinput, habsent, hsilent⟩
      rw [hempty] at hmem
      exact hmem
    refine ⟨reported ++ c.diagnoseAll set stuck, hlog, fun _ => hexplained, ?_⟩
    intro hquiet name hinput
    rw [FileSet.contains, Option.isSome_iff_ne_none]
    intro habsent
    obtain ⟨_, _, d, hd, _⟩ := hexplained name hinput habsent
    rw [hquiet] at hd
    cases hd

/-- A build that leaves files stuck reports, after all else, what is to be said of each of their
imports. -/
theorem build_judges_imports {c : Compiler} (hc : c.IsAccepted) {finished set : FileSet}
    {pending stuck : Pending} {before middle log : Log}
    (hassemble : Compiler.assembleAll .empty [] c.inputs before = .ok (finished, pending) middle)
    (hreserved : Compiler.reservedSpaceViolations pending = [])
    (hpasses : c.passes finished pending middle = .ok (set, stuck) log) :
    ∃ verdict? : Nat → Option Diagnostic,
      c.build before = .ok set (log.extend ((List.range stuck.imports.length).filterMap verdict?)) ∧
      ∀ i name target, stuck.imports[i]? = some (name, target) →
        c.IsJudged set stuck verdict? i name target := by
  have hbuild := Compiler.build_of_passes hassemble hreserved hpasses
  obtain ⟨hfinished, hpending, ds, _, hunparsed⟩ := Compiler.assembleAll_ok hassemble
  obtain ⟨files⟩ := finished
  have hstart : files = (Compiler.given c.inputs).files := hfinished
  subst hstart hpending
  obtain ⟨_, es, _, hrun⟩ := Compiler.passes_run hpasses
  have hsound := (Compiler.sound_initial hc hunparsed).run hc (hrun ds)
  rw [Compiler.diagnoseAll_eq hsound] at hbuild
  exact ⟨c.verdict? set stuck, hbuild, fun i name target hi => Compiler.isJudged hsound hi⟩

namespace Circle

def compiler : Compiler where
  inputs := [("c.proto", .descriptor (.importing "c.proto" ["a.proto"])),
    ("a.proto", .descriptor (.importing "a.proto" ["b.proto"])),
    ("b.proto", .descriptor (.importing "b.proto" ["a.proto"]))]

def pending : Pending :=
  [("c.proto", ⟨.importing "c.proto" ["a.proto"], []⟩),
    ("a.proto", ⟨.importing "a.proto" ["b.proto"], []⟩),
    ("b.proto", ⟨.importing "b.proto" ["a.proto"], []⟩)]

def report : Diagnostic where
  file? := some "a.proto"
  message := "file \"a.proto\" has a circular dependency on \"b.proto\""
  cause? := some .circularDependency

theorem isAccepted : compiler.IsAccepted := by
  have hfirst : ({} : Compiler).addDescriptor (.importing "c.proto" ["a.proto"]) =
      .ok { inputs := compiler.inputs.take 1 } := rfl
  have hsecond : Compiler.addDescriptor { inputs := compiler.inputs.take 1 }
      (.importing "a.proto" ["b.proto"]) = .ok { inputs := compiler.inputs.take 2 } := rfl
  have hthird : Compiler.addDescriptor { inputs := compiler.inputs.take 2 }
      (.importing "b.proto" ["a.proto"]) = .ok compiler := rfl
  exact .descriptor (.descriptor (.descriptor (.new {}) hfirst) hsecond) hthird

theorem build_eq : compiler.build .empty = .ok .empty ⟨[report]⟩ := by with_unfolding_all rfl

theorem build_explains_absence_circle :
    compiler.build .empty = .ok .empty ⟨[report]⟩ ∧
    ∃ g, Relation.ReflTransGen compiler.ImportsInput "c.proto" g ∧ report.ExplainsAbsence g := by
  obtain ⟨reported, hlog, hexplained, _⟩ := build_explains_absence isAccepted build_eq
  have hreported : reported = [report] := Log.extend_injective .empty hlog.symm
  subst hreported
  have hunreserved : ∀ d ∈ [report], d.cause? ≠ some .reservedSpaceViolation := by decide
  obtain ⟨g, hchain, d, hd, hexplains⟩ := hexplained hunreserved "c.proto" rfl rfl
  cases List.mem_singleton.mp hd
  exact ⟨build_eq, g, hchain, hexplains⟩

theorem build_judges_imports_circle : ∃ verdict? : Nat → Option Diagnostic,
    compiler.build .empty = .ok .empty (Log.empty.extend ((List.range 3).filterMap verdict?)) ∧
      compiler.IsJudged .empty pending verdict? 1 "a.proto" "b.proto" := by
  have hpasses :=
    Compiler.passes_of_stuck (c := compiler) (show FileSet.empty.ready pending = [] from rfl) .empty
  obtain ⟨verdict?, hbuild, hjudged⟩ := build_judges_imports isAccepted rfl rfl hpasses
  exact ⟨verdict?, hbuild, hjudged 1 "a.proto" "b.proto" rfl⟩

end Circle

end ProtobufSchema

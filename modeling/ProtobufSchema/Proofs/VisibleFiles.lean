import ProtobufSchema.Proofs.ImportLocality

/-! The files that a file sees: where a name denotes one file, the search finds exactly those that
public imports lead to. -/

namespace ProtobufSchema

open List hiding set

variable {names : List String} {d : LinkedFile}

namespace LinkedFile

variable {f d : LinkedFile}
variable {fs : List LinkedFile} {xs : List String}

/-- Public imports lead from a file to another one, or it is the file itself. -/
def Reexports : LinkedFile → LinkedFile → Prop :=
  Relation.ReflTransGen fun f d => d ∈ f.publicDependencies

/-- A file sees the files it imports and, through each of them, what public imports lead to. -/
def Sees (f d : LinkedFile) : Prop := ∃ m ∈ f.dependencies, m.Reexports d

/-- Imports of any kind lead from a file to another one, or it is the file itself. -/
def Reaches : LinkedFile → LinkedFile → Prop :=
  Relation.ReflTransGen fun f d => d ∈ f.dependencies

def IsCoherent (f : LinkedFile) : Prop :=
  ∀ d d', f.Reaches d → f.Reaches d' → d.name = d'.name → d = d'

theorem mem_dependencies_of_mem_publicDependencies (h : d ∈ f.publicDependencies) :
    d ∈ f.dependencies := by
  obtain ⟨_, _, hd⟩ := mem_filterMap.mp h
  exact mem_of_find?_eq_some hd

theorem Reexports.reaches (h : f.Reexports d) : f.Reaches d := by
  refine .mono ?_ _ _ h
  intro _ _ hpublic
  exact mem_dependencies_of_mem_publicDependencies hpublic

theorem Sees.reaches (h : f.Sees d) : f.Reaches d := by
  obtain ⟨m, hm, hd⟩ := h
  exact .head hm hd.reaches

theorem IsCoherent.of_reaches (h : f.IsCoherent) (hd : f.Reaches d) : d.IsCoherent :=
  fun _ _ hx hy => h _ _ (hd.trans hx) (hd.trans hy)

theorem visit_eq (found : List LinkedFile) (f : LinkedFile) : visit found f =
      if found.any (·.name == f.name) then found else f.publicDependencies.foldl visit
        (found ++ [f]) := by
  rw [visit]
  split
  · rfl
  · exact foldl_attach

variable {found direct : List LinkedFile}

theorem reexports_of_mem_foldl_visit
    (h : ∀ f ∈ fs, ∀ found, d ∈ visit found f → d ∈ found ∨ f.Reexports d)
    (hd : d ∈ fs.foldl visit found) : d ∈ found ∨ ∃ f ∈ fs, f.Reexports d := by
  induction fs generalizing found with
  | nil => exact .inl hd
  | cons f fs ih =>
    obtain ⟨hf, hfs⟩ := forall_mem_cons.mp h
    rw [exists_mem_cons_iff, ← or_assoc]
    exact (ih hfs hd).imp (hf found) id

theorem reexports_of_mem_visit (hd : d ∈ visit found f) : d ∈ found ∨ f.Reexports d := by
  induction hn : sizeOf f using Nat.strong_induction_on generalizing found f with
  | _ n ih =>
    subst hn
    rw [visit_eq] at hd
    split at hd
    · exact .inl hd
    · have hstep := reexports_of_mem_foldl_visit (fun e he _ hd =>
        ih (sizeOf e) (sizeOf_lt_of_mem_publicDependencies he) hd rfl) hd
      rcases hstep with hd | ⟨e, he, hd⟩
      · rcases mem_append.mp hd with hd | hd
        · exact .inl hd
        · cases mem_singleton.mp hd
          exact .inr .refl
      · exact .inr (.head he hd)

theorem reexports_of_mem_visible (h : d ∈ visible direct) : ∃ m ∈ direct, m.Reexports d := by
  rcases reexports_of_mem_foldl_visit (fun _ _ _ => reexports_of_mem_visit) h with h | h
  · cases h
  · exact h

theorem sees_of_mem_visible (h : d ∈ visible f.dependencies) : f.Sees d :=
  reexports_of_mem_visible h

/-- A file and then, depth first, all that its public imports lead to, as often as they lead to
it. -/
def walked (f : LinkedFile) : List LinkedFile :=
  f :: f.publicDependencies.attach.flatMap fun ⟨d, _⟩ => walked d
termination_by sizeOf f
decreasing_by exact sizeOf_lt_of_mem_publicDependencies ‹_›

theorem walked_eq (f : LinkedFile) : f.walked = f :: f.publicDependencies.flatMap walked := by
  rw [walked, flatMap_subtype, unattach_attach]
  exact fun _ _ => rfl

theorem mem_walked_iff : d ∈ f.walked ↔ f.Reexports d := by
  constructor
  · intro hd
    induction hn : sizeOf f using Nat.strong_induction_on generalizing f with
    | _ n ih =>
      subst hn
      rw [walked_eq] at hd
      rcases mem_cons.mp hd with rfl | hd
      · exact .refl
      · obtain ⟨e, he, hd⟩ := mem_flatMap.mp hd
        exact .head he (ih (sizeOf e) (sizeOf_lt_of_mem_publicDependencies he) hd rfl)
  · intro h
    induction h using Relation.ReflTransGen.head_induction_on with
    | refl =>
      rw [walked_eq]
      exact mem_cons_self
    | head he _ ih =>
      rw [walked_eq]
      exact mem_cons_of_mem _ (mem_flatMap.mpr ⟨_, he, ih⟩)

theorem Reexports.sizeOf_le (h : f.Reexports d) : sizeOf d ≤ sizeOf f := by
  induction h with
  | refl => exact le_rfl
  | tail _ hstep ih => exact (sizeOf_lt_of_mem_publicDependencies hstep).le.trans ih

def enlist (names : List String) (x : String) : List String :=
  if x ∈ names then names else names ++ [x]

theorem mem_foldl_enlist {x : String} : x ∈ xs.foldl enlist names ↔ x ∈ names ∨ x ∈ xs := by
  induction xs generalizing names with
  | nil => simp
  | cons y xs ih =>
    rw [foldl_cons, enlist]
    split <;> grind

theorem foldl_enlist_of_subset (h : ∀ x ∈ xs, x ∈ names) : xs.foldl enlist names = names := by
  induction xs with
  | nil => rfl
  | cons y xs ih =>
    obtain ⟨hy, hxs⟩ := forall_mem_cons.mp h
    rw [foldl_cons, enlist, if_pos hy, ih hxs]

/-- A name in use among those found is found with the names of all that its file leads to. -/
def Settles (found fs : List LinkedFile) : Prop :=
  ∀ y ∈ fs.flatMap walked, y.name ∈ found.map name → ∀ z ∈ y.walked, z.name ∈ found.map name

def Agree (fs : List LinkedFile) : Prop :=
  ∀ x ∈ fs.flatMap walked, ∀ y ∈ fs.flatMap walked, x.name = y.name → x = y

theorem names_foldl_visit (hone : Agree fs)
    (h : ∀ f ∈ fs, ∀ found, Settles found [f] →
      (visit found f).map name = (f.walked.map name).foldl enlist (found.map name))
    (hfound : Settles found fs) :
    (fs.foldl visit found).map name =
      ((fs.flatMap walked).map name).foldl enlist (found.map name) := by
  induction fs generalizing found with
  | nil => rfl
  | cons f fs ih =>
    obtain ⟨hf, hfs⟩ := forall_mem_cons.mp h
    simp only [Agree, Settles, flatMap_cons, forall_mem_append] at hone hfound
    have hvisit := hf found (by simpa [Settles] using hfound.1)
    rw [flatMap_cons, map_append, foldl_append, ← hvisit]
    refine ih (fun x hx y hy => (hone.2 x hx).2 y hy) hfs ?_
    intro y hy hname z hz
    rw [hvisit, mem_foldl_enlist] at hname ⊢
    rcases hname with hname | hname
    · exact .inl (hfound.2 y hy hname z hz)
    · obtain ⟨w, hw, hsame⟩ := mem_map.mp hname
      cases (hone.1 w hw).2 y hy hsame
      have hz := (mem_walked_iff.mp hw).trans (mem_walked_iff.mp hz)
      exact .inr (mem_map_of_mem (mem_walked_iff.mpr hz))

theorem names_visit (hone : Agree [f]) (hfound : Settles found [f]) :
    (visit found f).map name = (f.walked.map name).foldl enlist (found.map name) := by
  induction hn : sizeOf f using Nat.strong_induction_on generalizing found f with
  | _ n ih =>
    subst hn
    simp only [Agree, Settles, flatMap_singleton] at hone hfound
    have hself : f ∈ f.walked := mem_walked_iff.mpr .refl
    have hbelow {y : LinkedFile} (hy : y ∈ f.publicDependencies.flatMap walked) : y ∈ f.walked := by
      rw [walked_eq]
      exact mem_cons_of_mem _ hy
    rw [visit_eq]
    by_cases hname : f.name ∈ found.map name
    · rw [if_pos (by simpa using hname), foldl_enlist_of_subset]
      exact forall_mem_map.mpr (hfound f hself hname)
    · have hsettles : Settles (found ++ [f]) f.publicDependencies := by
        intro y hy hy' z hz
        rw [map_append, mem_append] at hy' ⊢
        rcases hy' with hy' | hy'
        · exact .inl (hfound y (hbelow hy) hy' z hz)
        · cases hone y (hbelow hy) f hself (mem_singleton.mp hy')
          obtain ⟨e, he, hy⟩ := mem_flatMap.mp hy
          have hlt := sizeOf_lt_of_mem_publicDependencies he
          have hle := (mem_walked_iff.mp hy).sizeOf_le
          omega
      rw [if_neg (by simpa using hname), walked_eq, map_cons, foldl_cons, enlist, if_neg hname,
        names_foldl_visit (fun x hx y hy => hone x (hbelow hx) y (hbelow hy)) ?_ hsettles]
      · simp
      · intro e he _ hsettles
        refine ih (sizeOf e) (sizeOf_lt_of_mem_publicDependencies he) (fun x hx y hy => ?_)
          hsettles rfl
        rw [flatMap_singleton] at hx hy
        exact hone x (hbelow (mem_flatMap.mpr ⟨e, he, hx⟩)) y (hbelow (mem_flatMap.mpr ⟨e, he, hy⟩))

theorem names_visible (hone : Agree direct) :
    (visible direct).map name = ((direct.flatMap walked).map name).foldl enlist [] := by
  refine names_foldl_visit hone (fun f hf found => names_visit fun x hx y hy => ?_)
    (fun _ _ h => nomatch h)
  rw [flatMap_singleton] at hx hy
  exact hone x (mem_flatMap.mpr ⟨f, hf, hx⟩) y (mem_flatMap.mpr ⟨f, hf, hy⟩)

theorem mem_visible (hone : Agree direct) : d ∈ visible direct ↔ ∃ m ∈ direct, m.Reexports d := by
  refine ⟨reexports_of_mem_visible, ?_⟩
  rintro ⟨m, hm, h⟩
  have hd : d ∈ direct.flatMap walked := mem_flatMap.mpr ⟨m, hm, mem_walked_iff.mpr h⟩
  have hname : d.name ∈ (visible direct).map name := by
    rw [names_visible hone, mem_foldl_enlist]
    exact .inr (mem_map_of_mem hd)
  obtain ⟨z, hz, hsame⟩ := mem_map.mp hname
  obtain ⟨m', hm', h'⟩ := reexports_of_mem_visible hz
  cases hone z (mem_flatMap.mpr ⟨m', hm', mem_walked_iff.mpr h'⟩) d hd hsame
  exact hz

theorem mem_visible_iff (hf : f.IsCoherent) : d ∈ visible f.dependencies ↔ f.Sees d := by
  refine mem_visible fun x hx y hy => ?_
  obtain ⟨m, hm, hx⟩ := mem_flatMap.mp hx
  obtain ⟨m', hm', hy⟩ := mem_flatMap.mp hy
  exact hf x y (.head hm (mem_walked_iff.mp hx).reaches) (.head hm' (mem_walked_iff.mp hy).reaches)

end LinkedFile

namespace Compiler

variable {c : Compiler} {name : String} {l l' : LinkedFile}

theorem Builds.unique (h : c.Builds name l) (h' : c.Builds name l') : l = l' := by
  induction h generalizing l' with
  | schema _ =>
    cases h' with
    | schema _ => rfl
    | file hname => exact absurd rfl hname
  | @file name input f l ds find hname hinput hassembled hschema _ hfinish ih =>
    cases h' with
    | schema _ => exact absurd rfl hname
    | @file _ input' f' _ ds' find' _ hinput' hassembled' hschema' himports' hfinish' =>
      have hsame : input' = input := Option.some.inj (hinput'.symm.trans hinput)
      subst hsame
      have hsame : f' = f := Option.some.inj (hassembled'.symm.trans hassembled)
      subst hsame
      have hfind : f'.file.dependencies.map find = f'.file.dependencies.map find' := by
        apply map_congr_left
        intro d hd
        by_cases hother : d = metaSchemaFile
        · rw [hother, hschema, hschema']
        · exact ih d hd hother (himports' d hd hother)
      rw [hfind] at hfinish
      exact Option.some.inj (hfinish.unique hfinish')

theorem Builds.linked (h : c.Builds name l) : l = MetaSchema.file ∧ name = metaSchemaFile ∨
      ∃ (f : PendingFile) (q : FileDescriptor) (dependencies : List LinkedFile),
        q.heading = f.file.heading ∧ l = .link q dependencies ∧
        c.Finishes name f dependencies (some l) [] ∧
        ∃ input, c.inputs.lookup name = some input ∧ input.assembled? name = some f ∧
        name ≠ metaSchemaFile ∧
          ∀ d ∈ dependencies, d = MetaSchema.file ∨ ∃ x, c.Builds x d := by
  cases h with
  | schema _ => exact .inl ⟨rfl, rfl⟩
  | @file _ input f _ ds find hname hinput hassembled hschema himports hfinish =>
    rcases hfinish.answered.2 with ⟨hnone, _⟩ | ⟨rfl, q, hq, hlink⟩
    · cases hnone
    · cases hlink
      refine .inr ⟨f, q, _, hq, rfl, hfinish, input, hinput, hassembled, hname, ?_⟩
      intro d hd
      obtain ⟨x, hx, rfl⟩ := mem_map.mp hd
      by_cases hother : x = metaSchemaFile
      · exact .inl (hother ▸ hschema)
      · exact .inr ⟨x, himports x hx hother⟩

theorem Builds.exists_input (h : c.Builds name l) : ∃ input, c.inputs.lookup name = some input := by
  cases h with
  | schema hinput => exact ⟨_, hinput⟩
  | file _ hinput => exact ⟨_, hinput⟩

theorem Builds.name_eq (hc : c.IsAccepted) (h : c.Builds name l) : l.name = name := by
  rcases h.linked with ⟨rfl, rfl⟩ | ⟨f, q, dependencies, hq, rfl, _, input, hinput, hassembled, _⟩
  · rfl
  · have hnamed := hc.wellNamed.isNamed _ ((mem_inputs_iff hc).mp hinput)
    exact (FileDescriptor.name_of_heading hq).trans
      (SchemaInput.assembled?_heading hnamed hassembled).1

theorem Builds.reaches (h : c.Builds name l) (hd : l.Reaches d) :
    d = MetaSchema.file ∨ ∃ x, c.Builds x d := by
  induction hd with
  | refl => exact .inr ⟨name, h⟩
  | tail _ hstep ih =>
    rcases ih with rfl | ⟨x, hx⟩
    · cases hstep
    · rcases hx.linked with ⟨rfl, _⟩ | ⟨_, _, _, _, rfl, _, _, _, _, _, hdependencies⟩
      · cases hstep
      · exact hdependencies _ hstep

theorem Builds.isCoherent (hc : c.IsAccepted) (h : c.Builds name l) : l.IsCoherent := by
  -- The schema of schemas keeps its name for itself, and any other name belongs to one file.
  have hschema {x : String} {d : LinkedFile} (hd : c.Builds x d) (hname : metaSchemaFile = d.name) :
      d = MetaSchema.file := by
    rw [hd.name_eq hc] at hname
    subst hname
    rcases hd.linked with ⟨hd, _⟩ | ⟨_, _, _, _, _, _, _, _, _, hne, _⟩
    · exact hd
    · exact absurd rfl hne
  intro d d' hd hd' hname
  rcases h.reaches hd with rfl | ⟨x, hx⟩
  · rcases h.reaches hd' with rfl | ⟨y, hy⟩
    · rfl
    · exact (hschema hy hname).symm
  · rcases h.reaches hd' with rfl | ⟨y, hy⟩
    · exact hschema hx hname.symm
    · have hsame : x = y := (hx.name_eq hc).symm.trans (hname.trans (hy.name_eq hc))
      exact hx.unique (hsame ▸ hy)

theorem builds_of_build (hc : c.IsAccepted) {set : FileSet} {before after : Log}
    (h : c.build before = .ok set after) (hl : (name, l) ∈ set.files) : c.Builds name l := by
  rcases build_cases hc h with ⟨rfl, _⟩ | ⟨_, _, hsound, _, _⟩
  · cases hl
  · obtain ⟨i, hi⟩ := mem_iff_getElem?.mp hl
    exact builds_of_mem hc hsound hi

def returned? (c : Compiler) (name : String) : Option LinkedFile :=
  match c.build .empty with
  | .ok set _ => set.get? name
  | .error _ _ => none

theorem mem_of_returned? (h : c.returned? name = some l) :
    ∃ set after, c.build .empty = .ok set after ∧ (name, l) ∈ set.files := by
  unfold returned? at h
  split at h
  · rename_i set after hbuild
    exact ⟨set, after, hbuild, FileSet.mem_of_get? h⟩
  · cases h

end Compiler

/-! ### Positions that mark imports as public -/

namespace LinkedFile

variable {f d : LinkedFile} {direct : List LinkedFile}

/-- One of the positions of a file that mark imports as public is that of the import. Positions
before the first import and after the last one mark none. -/
def ImportsPublicly (f d : LinkedFile) : Prop :=
  d ∈ f.dependencies ∧ ∃ i ∈ f.proto.publicDependencies,
    0 ≤ i.toInt ∧ f.proto.dependencies[i.toInt.toNat]? = some d.name

/-- Among the files that imports lead to from some files, a name denotes one. -/
def AreCoherent (direct : List LinkedFile) : Prop :=
  ∀ m ∈ direct, ∀ m' ∈ direct, ∀ d d', m.Reaches d → m'.Reaches d' → d.name = d'.name → d = d'

theorem importsPublicly_of_mem (h : d ∈ f.publicDependencies) : f.ImportsPublicly d := by
  refine ⟨mem_dependencies_of_mem_publicDependencies h, ?_⟩
  obtain ⟨x, hx, hd⟩ := mem_filterMap.mp h
  obtain ⟨i, hi, hat⟩ := mem_filterMap.mp hx
  unfold Path.at? at hat
  split at hat
  · next hle =>
    have hname : d.name = x := by simpa using find?_some hd
    exact ⟨i, hi, Int32.le_iff_toInt_le.mp hle, hname ▸ hat⟩
  · cases hat

theorem ImportsPublicly.mem (hone : f.IsCoherent) (h : f.ImportsPublicly d) :
    d ∈ f.publicDependencies := by
  obtain ⟨hd, i, hi, hle, hat⟩ := h
  refine mem_filterMap.mpr ⟨d.name, mem_filterMap.mpr ⟨i, hi, ?_⟩, ?_⟩
  · exact (if_pos (Int32.le_iff_toInt_le.mpr (by simpa using hle))).trans hat
  · rw [dependency?]
    cases hfind : f.dependencies.find? (·.name == d.name) with
    | none => simpa using find?_eq_none.mp hfind d hd
    | some x =>
      have hname : x.name = d.name := by simpa using find?_some hfind
      rw [hone x d (.single (mem_of_find?_eq_some hfind)) (.single hd) hname]

theorem AreCoherent.reexports_iff (h : AreCoherent direct) (hf : f ∈ direct) :
    f.Reexports d ↔ Relation.ReflTransGen ImportsPublicly f d := by
  constructor
  · exact .mono (fun _ _ => importsPublicly_of_mem) _ _
  · intro hd
    induction hd with
    | refl => exact .refl
    | tail _ hstep ih =>
      refine ih.tail (hstep.mem fun x y hx hy => ?_)
      exact h f hf f hf x y (ih.reaches.trans hx) (ih.reaches.trans hy)

theorem AreCoherent.agree (h : AreCoherent direct) : Agree direct := by
  intro x hx y hy
  obtain ⟨m, hm, hx⟩ := mem_flatMap.mp hx
  obtain ⟨m', hm', hy⟩ := mem_flatMap.mp hy
  exact h m hm m' hm' x y (mem_walked_iff.mp hx).reaches (mem_walked_iff.mp hy).reaches

theorem foldl_enlist_eq (xs : List String) : xs.foldl enlist [] = xs.eraseDups := by
  induction xs using reverseRecOn with
  | nil => rfl
  | append_singleton xs x ih =>
    rw [foldl_append, ih, foldl_cons, enlist, eraseDups_append]
    by_cases hx : x ∈ xs <;> simp [hx, removeAll, eraseDups_cons]

theorem nodup_foldl_enlist (h : names.Nodup) (xs : List String) :
    (xs.foldl enlist names).Nodup := by
  induction xs generalizing names with
  | nil => exact h
  | cons x xs ih =>
    refine ih ?_
    rw [enlist]
    split
    · exact h
    · next hx => exact nodup_append.mpr ⟨h, by simp, by grind⟩

/-- Where a name denotes one file, the search finds exactly the files given and those that public
imports lead to, no name twice, and the names in the order in which they are come by depth first. -/
theorem visible_correct (h : AreCoherent direct) :
    (∀ d, d ∈ visible direct ↔ ∃ f ∈ direct, Relation.ReflTransGen ImportsPublicly f d) ∧
      ((visible direct).map name).Nodup ∧
      (visible direct).map name = ((direct.flatMap walked).map name).eraseDups := by
  refine ⟨fun d => ?_, ?_, ?_⟩
  · rw [mem_visible h.agree]
    exact exists_congr fun f => and_congr_right fun hf => h.reexports_iff hf
  · rw [names_visible h.agree]
    exact nodup_foldl_enlist nodup_nil _
  · rw [names_visible h.agree, foldl_enlist_eq]

end LinkedFile

namespace Reexport

/-- A file that is imported publicly by another one, which marks two more positions without
imports. -/
def below : LinkedFile := .link { name? := some "b.proto" } []

def above : LinkedFile :=
  .link
    { name? := some "a.proto", dependencies := ["b.proto"], publicDependencies := [7, 0, -1] }
    [below]

theorem reaches_above {f : LinkedFile} (hf : f ∈ [above, below]) (h : f.Reaches d) :
    d ∈ [above, below] := by
  induction h with
  | refl => exact hf
  | tail _ hstep ih =>
    rcases mem_pair.mp ih with rfl | rfl
    · exact mem_cons_of_mem _ hstep
    · cases hstep

theorem visible_correct_reexport :
    (LinkedFile.visible [above, below]).map LinkedFile.name = ["a.proto", "b.proto"] ∧
      ∀ d, d ∈ LinkedFile.visible [above, below] ↔
        ∃ f ∈ [above, below], Relation.ReflTransGen LinkedFile.ImportsPublicly f d := by
  have hone : LinkedFile.AreCoherent [above, below] := by
    intro m hm m' hm' d d' hd hd' hname
    rcases mem_pair.mp (reaches_above hm hd) with rfl | rfl <;>
      rcases mem_pair.mp (reaches_above hm' hd') with rfl | rfl
    · rfl
    · exact absurd hname (by decide)
    · exact absurd hname (by decide)
    · rfl
  obtain ⟨hmem, _, hnames⟩ := LinkedFile.visible_correct hone
  have hbelow : below.walked = [below] := LinkedFile.walked_eq below
  have habove : above.walked = [above, below] := by
    rw [LinkedFile.walked_eq, show above.publicDependencies = [below] by rfl, flatMap_singleton,
      hbelow]
  refine ⟨hnames.trans ?_, hmem⟩
  rw [flatMap_cons, flatMap_singleton, habove, hbelow]
  decide

end Reexport

end ProtobufSchema

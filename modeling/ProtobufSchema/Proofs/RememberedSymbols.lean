import ProtobufSchema.Proofs.SymbolTrees

/-! Symbols that are added and asked for in any order: a table remembers only answers that its tree
gives as it is. -/

namespace ProtobufSchema

open Name (segments)

namespace SymbolTable

variable {t t' : SymbolTable} {node scope target : Nat} {ss : List String}

/-- A dotted name leads from a symbol down to another one. Symbols stand below packages and messages
only. -/
inductive Leads (t : SymbolTable) : Nat → List String → Nat → Prop
  | here (node : Nat) : Leads t node [] node
  | down {node next target : Nat} {n : SymbolNode} {more : List String}
    (hcontainer : (t.kind? node).any SymbolKind.isContainer = true)
    (hnext : t.nodes[next]? = some n)
    (hparent : n.parent? = some node) (h : Leads t next more target) :
      Leads t node (n.name :: more) target

/-- What a relative name leads to from the innermost of a scope and the scopes around it, where it
leads to anything. -/
inductive Finds (t : SymbolTable) (ss : List String) : Nat → Nat → Prop
  | here {scope node : Nat} (h : t.Leads scope ss node) : Finds t ss scope node
  | outer {scope outer node : Nat} (hnone : ∀ x, ¬t.Leads scope ss x)
    (hparent : t.parent? scope = some outer) (h : Finds t ss outer node) : Finds t ss scope node

/-- What a name denotes as written in a scope. One with a leading dot is followed from the root. -/
def Denotes (t : SymbolTable) (name : String) (scope node : Nat) : Prop :=
  match Name.absolute? name with
  | some path => t.Leads root (segments path) node
  | none => t.Finds (segments name) scope node

inductive Call where
  | add (parent : Nat) (name : String) (kind : SymbolKind)
  | resolve (name : String) (scope : Nat)
  deriving DecidableEq, Repr

/-- The table after a call. Only below symbols that are there others can be added, and one that is
rejected changes nothing. -/
def called (t : SymbolTable) : Call → SymbolTable
  | .add parent name kind =>
    if parent < t.nodes.length then (t.add parent name kind).toOption.elim t (·.1) else t
  | .resolve name scope => (t.resolve name scope).1

/-- Symbols stand below symbols that were added before them, each under a name of its own, and what
is remembered is right. -/
structure IsCurrent (t : SymbolTable) : Prop where
  below : ∀ (i : Nat) (n : SymbolNode) (p : Nat), t.nodes[i]? = some n → n.parent? = some p → p < i
  apart : t.NamesApart
  remembers : t.Remembers

theorem IsTree.isCurrent (h : t.IsTree) (hcache : t.cacheScope? = none) : t.IsCurrent where
  below := fun _ _ _ hi hp => h.parent_lt hi hp
  apart := h.unique
  remembers := fun _ hscope => nomatch hcache.symm.trans hscope

theorem IsCurrent.called (h : t.IsCurrent) (call : Call) : (t.called call).IsCurrent := by
  cases call with
  | add parent name kind =>
    rw [SymbolTable.called]
    split
    · next hparent =>
      cases hadd : t.add parent name kind with
      | error existing => exact h
      | ok added =>
        refine ⟨fun i n p hi hp => ?_, h.apart.add hadd, fun _ hscope => ?_⟩
        · rcases getElem?_add hadd hi with ⟨hi, _⟩ | ⟨rfl, rfl⟩
          · exact h.below i n p hi hp
          · cases hp
            exact hparent
        · exact nomatch (add_ok hadd).2.2.1.symm.trans hscope
    · exact h
  | resolve name scope =>
    obtain ⟨_, hnodes, hremembers⟩ := resolve_spec h.remembers name scope
    refine ⟨?_, ?_, hremembers⟩
    · rw [SymbolTable.called, hnodes]
      exact h.below
    · unfold NamesApart
      rw [SymbolTable.called, hnodes]
      exact h.apart

theorem IsCurrent.foldl_called (h : t.IsCurrent) (calls : List Call) :
    (calls.foldl .called t).IsCurrent := by
  induction calls generalizing t with
  | nil => exact h
  | cons call calls ih => exact ih (h.called call)

theorem NamesApart.walk?_eq_some_iff (h : t.NamesApart) :
    t.walk? node ss = some target ↔ t.Leads node ss target := by
  induction ss generalizing node with
  | nil =>
    rw [walk?, Option.some.injEq]
    constructor
    · rintro rfl
      exact .here node
    · rintro ⟨⟩
      rfl
  | cons s ss ih =>
    rw [walk?]
    constructor
    · intro hwalk
      split at hwalk
      · next hcontainer =>
        obtain ⟨next, hchild, hmore⟩ := Option.bind_eq_some_iff.mp hwalk
        obtain ⟨n, hnext, hparent, rfl⟩ := h.child?_eq_some_iff.mp hchild
        exact .down hcontainer hnext hparent (ih.mp hmore)
      · cases hwalk
    · rintro (_ | ⟨hcontainer, hnext, hparent, hleads⟩)
      rw [if_pos hcontainer, h.child?_eq_some_iff.mpr ⟨_, hnext, hparent, rfl⟩]
      exact ih.mpr hleads

theorem IsCurrent.search?_eq_some_iff (h : t.IsCurrent) (name : String) :
    t.search? name scope = some target ↔ t.Finds (segments name) scope target := by
  induction scope using Nat.strongRecOn with
  | ind scope ih =>
    have hleads (x : Nat) : t.walk? scope (segments name) = some x ↔
        t.Leads scope (segments name) x :=
      h.apart.walk?_eq_some_iff
    have hscopes : t.ancestors scope = scope :: ((t.parent? scope).map t.ancestors).getD [] := by
      rw [ancestors]
      cases hparent : t.parent? scope with
      | none => rfl
      | some outer =>
        obtain ⟨n, hn, hp⟩ := Option.bind_eq_some_iff.mp hparent
        exact if_pos (h.below scope n outer hn hp)
    rw [search?, hscopes, List.findSome?_cons]
    cases hwalk : t.walk? scope (segments name) with
    | some x =>
      constructor
      · intro hsome
        exact .here ((hleads target).mp (hwalk.trans hsome))
      · rintro (hfirst | ⟨hnone, _, _⟩)
        · exact hwalk.symm.trans ((hleads target).mpr hfirst)
        · exact absurd ((hleads x).mp hwalk) (hnone x)
    | none =>
      have hnone (x : Nat) : ¬t.Leads scope (segments name) x := fun hx => by
        cases hwalk.symm.trans ((hleads x).mpr hx)
      cases hparent : t.parent? scope with
      | none =>
        refine iff_of_false (fun hno => by cases hno) ?_
        rintro (hfirst | ⟨_, hp, _⟩)
        · exact absurd hfirst (hnone target)
        · cases hparent.symm.trans hp
      | some outer =>
        obtain ⟨n, hn, hp⟩ := Option.bind_eq_some_iff.mp hparent
        refine (ih outer (h.below scope n outer hn hp)).trans ⟨.outer hnone hparent, ?_⟩
        rintro (hfirst | ⟨_, hp, hrest⟩)
        · exact absurd hfirst (hnone target)
        · cases hparent.symm.trans hp
          exact hrest

/-- Whichever symbols were added and names asked for before, a name is answered by the symbol that
it denotes in the tree as it is then, and by none if it denotes none. -/
theorem resolve_denotes (package : String) (calls : List Call) (name : String) (scope : Nat)
    (r : ResolvedSymbol) :
    ((calls.foldl called (ofPackage package)).resolve name scope).2 = some r ↔
      (calls.foldl called (ofPackage package)).Denotes name scope r.node ∧
        (calls.foldl called (ofPackage package)).fullName r.node = r.fullName ∧
        (calls.foldl called (ofPackage package)).kind? r.node = some r.kind := by
  obtain ⟨htree, hcache, _⟩ := ofPackage_spec package
  have h := (htree.isCurrent hcache).foldl_called calls
  generalize calls.foldl called (ofPackage package) = t at h ⊢
  have hsymbol (found? : Option Nat) : found?.bind t.symbol? = some r ↔
      found? = some r.node ∧ t.fullName r.node = r.fullName ∧ t.kind? r.node = some r.kind := by
    obtain ⟨node, fullName, kind⟩ := r
    simp only [Option.bind_eq_some_iff, symbol?, Option.map_eq_some_iff, ResolvedSymbol.mk.injEq]
    constructor
    · rintro ⟨_, hfound, _, hkind, rfl, rfl, rfl⟩
      exact ⟨hfound, rfl, hkind⟩
    · rintro ⟨hfound, hname, hkind⟩
      exact ⟨node, hfound, kind, hkind, rfl, hname, rfl⟩
  rw [(resolve_spec h.remembers name scope).1, resolved?, Denotes]
  cases Name.absolute? name with
  | some path => rw [hsymbol, h.apart.walk?_eq_some_iff]
  | none => rw [hsymbol, h.search?_eq_some_iff]

end SymbolTable

end ProtobufSchema

import Mathlib.Data.List.Induction
import ProtobufSchema.Proofs.DottedNames
import ProtobufSchema.SymbolIndex

/-! Every symbol but the root stands below a package or message that was added before it, and has a
name of its own there; so full names tell symbols apart. -/

namespace ProtobufSchema

open List
open Name (IsSegment dotted segments join enclosing)

variable {ss : List String} {s : String}

namespace SymbolTable

variable {t t' : SymbolTable} {a b i j node p : Nat} {n m : SymbolNode}

/-- Symbols stand below containers that were added before them, each under a name of its own. -/
structure IsTree (t : SymbolTable) : Prop where
  root : t.nodes[0]? = some ⟨"", .package, none⟩
  below : ∀ (i : Nat) (n : SymbolNode), t.nodes[i]? = some n → i ≠ 0 →
    ∃ p, n.parent? = some p ∧ p < i ∧
    (t.kind? p).any SymbolKind.isContainer = true ∧ IsSegment n.name
  unique : ∀ (i j : Nat) (n m : SymbolNode), t.nodes[i]? = some n → t.nodes[j]? = some m →
    n.parent? = m.parent? → n.name = m.name → i = j

theorem isTree_empty : empty.IsTree := by
  refine ⟨rfl, ?_, ?_⟩
  · rintro (_ | i) n hn hi
    · exact absurd rfl hi
    · simp [empty] at hn
  · rintro (_ | i) (_ | j) n m hn hm
    · simp
    · simp [empty] at hm
    · simp [empty] at hn
    · simp [empty] at hn

theorem IsTree.congr (h : t.IsTree) (hnodes : t'.nodes = t.nodes) : t'.IsTree := by
  obtain ⟨hroot, hbelow, hunique⟩ := h
  unfold kind? at hbelow
  rw [← hnodes] at hroot hbelow hunique
  exact ⟨hroot, hbelow, hunique⟩

def path (t : SymbolTable) (node : Nat) : List String :=
  (((t.ancestors node).filter fun n => (t.parent? n).isSome).filterMap fun n =>
    (t.nodes[n]?).map (·.name)).reverse

theorem fullName_eq (t : SymbolTable) (node : Nat) : t.fullName node = dotted (t.path node) := rfl

/-- Below a symbol every name belongs to one symbol. -/
def NamesApart (t : SymbolTable) : Prop :=
  ∀ (i j : Nat) (n m : SymbolNode), t.nodes[i]? = some n → t.nodes[j]? = some m →
    n.parent? = m.parent? →
    n.name = m.name → i = j

theorem NamesApart.child?_eq_some_iff (h : t.NamesApart) : t.child? p s = some i ↔
    ∃ n, t.nodes[i]? = some n ∧ n.parent? = some p ∧ n.name = s := by
  rw [child?, findIdx?_eq_some_iff_getElem]
  constructor
  · rintro ⟨hi, hmatch, _⟩
    obtain ⟨hparent, hname⟩ := Bool.and_eq_true_iff.mp hmatch
    exact ⟨_, getElem?_eq_getElem hi, beq_iff_eq.mp hparent, beq_iff_eq.mp hname⟩
  · rintro ⟨n, hn, hparent, hname⟩
    obtain ⟨hi, heq⟩ := List.getElem?_eq_some_iff.mp hn
    refine ⟨hi, by rw [heq, hparent, hname]; simp, ?_⟩
    intro j hj hmatch
    obtain ⟨hparent', hname'⟩ := Bool.and_eq_true_iff.mp hmatch
    have hsame := h j i _ n (getElem?_eq_getElem (by omega)) hn
      ((beq_iff_eq.mp hparent').trans hparent.symm) ((beq_iff_eq.mp hname').trans hname.symm)
    omega

namespace IsTree

theorem lt_length (h : t.nodes[i]? = some n) : i < t.nodes.length :=
  (List.getElem?_eq_some_iff.mp h).1

variable (h : t.IsTree)
include h

theorem parent_lt (hi : t.nodes[i]? = some n) (hp : n.parent? = some p) : p < i := by
  have hne : i ≠ 0 := by
    rintro rfl
    rw [h.root] at hi
    cases hi
    cases hp
  obtain ⟨q, hq, hlt, _⟩ := h.below i n hi hne
  rw [hp] at hq
  cases hq
  exact hlt

/-- What holds of the root, and of a symbol as soon as it holds of the one above it, holds of
all. -/
theorem induction {P : Nat → Prop} (root : P 0)
    (child : ∀ (i : Nat) (n : SymbolNode) (p : Nat), t.nodes[i]? = some n → n.parent? = some p →
      IsSegment n.name → p < t.nodes.length → P p → P i) (hi : i < t.nodes.length) : P i := by
  induction i using Nat.strongRecOn with
  | ind i ih =>
    by_cases hzero : i = 0
    · exact hzero ▸ root
    · have hn := getElem?_eq_getElem hi
      obtain ⟨p, hp, hlt, _, hname⟩ := h.below i _ hn hzero
      exact child i _ p hn hp hname (by omega) (ih p hlt (by omega))

theorem ancestors_root : t.ancestors 0 = [0] := by
  rw [ancestors, parent?, h.root]
  rfl

theorem ancestors_child (hi : t.nodes[i]? = some n) (hp : n.parent? = some p) :
    t.ancestors i = i :: t.ancestors p := by
  have hparent : t.parent? i = some p := by rw [parent?, hi, Option.bind_some, hp]
  rw [ancestors, hparent]
  simp [h.parent_lt hi hp]

theorem path_root : t.path 0 = [] := by
  rw [path, h.ancestors_root, filter_cons_of_neg]
  · rfl
  · rw [parent?, h.root]
    exact Bool.false_ne_true

theorem path_child (hi : t.nodes[i]? = some n) (hp : n.parent? = some p) :
    t.path i = t.path p ++ [n.name] := by
  have hparent : (t.parent? i).isSome = true := by
    rw [parent?, hi, Option.bind_some, hp, Option.isSome_some]
  rw [path, h.ancestors_child hi hp, filter_cons, if_pos hparent, filterMap_cons, hi]
  simp only [Option.map_some, reverse_cons]
  rfl

theorem isSegment_of_mem_path (hi : i < t.nodes.length) : ∀ s ∈ t.path i, IsSegment s := by
  refine h.induction (P := fun i => ∀ s ∈ t.path i, IsSegment s) ?_ ?_ hi
  · simp [h.path_root]
  · intro i n p hn hp hname _ ih
    rw [h.path_child hn hp]
    simpa using fun s hs => hs.elim (ih s) fun heq => heq ▸ hname

theorem fullName_root : t.fullName 0 = "" := by
  rw [fullName_eq, h.path_root, Name.dotted_nil]

theorem fullName_child (hi : t.nodes[i]? = some n) (hp : n.parent? = some p)
    (hname : IsSegment n.name) : t.fullName i = join (t.fullName p) n.name := by
  have hlt : p < t.nodes.length := by
    have hpi := h.parent_lt hi hp
    have hi := lt_length hi
    omega
  rw [fullName_eq, fullName_eq, h.path_child hi hp, Name.join_dotted (h.isSegment_of_mem_path hlt),
    Name.segments_of_isSegment hname]

section

variable (hi : i < t.nodes.length)
include hi

theorem path_ne_nil (hne : i ≠ 0) : t.path i ≠ [] := by
  have hn := getElem?_eq_getElem hi
  obtain ⟨p, hp, _⟩ := h.below i _ hn hne
  rw [h.path_child hn hp]
  simp

theorem exists_parent (hpath : t.path i = ss ++ [s]) :
    ∃ n p, t.nodes[i]? = some n ∧ n.parent? = some p ∧ n.name = s ∧ t.path p = ss ∧
      p < t.nodes.length ∧ (t.kind? p).any SymbolKind.isContainer = true := by
  have hne : i ≠ 0 := by
    rintro rfl
    rw [h.path_root] at hpath
    simp at hpath
  have hn := getElem?_eq_getElem hi
  obtain ⟨p, hp, hlt, hcontainer, _⟩ := h.below i _ hn hne
  rw [h.path_child hn hp] at hpath
  obtain ⟨hss, hs⟩ := append_inj' hpath rfl
  exact ⟨_, p, hn, hp, singleton_inj.mp hs, hss, by omega, hcontainer⟩

theorem path_injective (hj : j < t.nodes.length) (hpath : t.path i = t.path j) : i = j := by
  revert j
  refine h.induction (P := fun i => ∀ {j}, j < t.nodes.length → t.path i = t.path j →
    i = j) ?_ ?_ hi
  · intro j hj hpath
    rw [h.path_root] at hpath
    by_contra hne
    exact h.path_ne_nil hj (.symm hne) hpath.symm
  · intro i n p hn hp _ _ ih j hj hpath
    rw [h.path_child hn hp] at hpath
    obtain ⟨m, q, hm, hq, hname, hrest, hlt, _⟩ := h.exists_parent hj hpath.symm
    have hsame : p = q := ih hlt hrest.symm
    exact h.unique i j n m hn hm (by rw [hp, hq, hsame]) hname.symm

theorem fullName_injective (hj : j < t.nodes.length)
    (hname : t.fullName i = t.fullName j) : i = j := by
  rw [fullName_eq, fullName_eq] at hname
  apply h.path_injective hi hj
  by_cases hpi : t.path i = []
  · by_cases hpj : t.path j = []
    · rw [hpi, hpj]
    · rw [hpi] at hname
      exact absurd hname.symm (Name.dotted_ne_empty hpj (h.isSegment_of_mem_path hj))
  · by_cases hpj : t.path j = []
    · rw [hpj] at hname
      exact absurd hname (Name.dotted_ne_empty hpi (h.isSegment_of_mem_path hi))
    · exact Name.dotted_injective hpi hpj (fun s hs => (h.isSegment_of_mem_path hi s hs).2)
        (fun s hs => (h.isSegment_of_mem_path hj s hs).2) hname

end

theorem child?_eq_some_iff : t.child? p s = some i ↔
    ∃ n, t.nodes[i]? = some n ∧ n.parent? = some p ∧ n.name = s :=
      NamesApart.child?_eq_some_iff h.unique

end IsTree

theorem walk?_append (t : SymbolTable) (node : Nat) (ss ts : List String) :
    t.walk? node (ss ++ ts) = (t.walk? node ss).bind fun b => t.walk? b ts := by
  induction ss generalizing node with
  | nil => rfl
  | cons s ss ih =>
    rw [cons_append, walk?, walk?]
    split
    · cases t.child? node s with
      | none => rfl
      | some next => exact ih next
    · rfl

theorem IsTree.walk?_eq_some_iff (h : t.IsTree) (ha : a < t.nodes.length) :
    t.walk? a ss = some b ↔ b < t.nodes.length ∧ t.path b = t.path a ++ ss := by
  induction ss using reverseRecOn generalizing b with
  | nil =>
    rw [walk?, append_nil, Option.some.injEq]
    constructor
    · rintro rfl
      exact ⟨ha, rfl⟩
    · rintro ⟨hb, hpath⟩
      exact (h.path_injective hb ha hpath).symm
  | append_singleton ss s ih =>
    have hlast (c : Nat) : t.walk? c [s] = some b ↔
        (t.kind? c).any SymbolKind.isContainer = true ∧ t.child? c s = some b := by
      rw [walk?]
      by_cases hcontainer : (t.kind? c).any SymbolKind.isContainer = true
      · simp only [hcontainer, true_and]
        cases t.child? c s <;> rfl
      · simp [hcontainer]
    rw [walk?_append, Option.bind_eq_some_iff]
    constructor
    · rintro ⟨c, hc, hb⟩
      obtain ⟨_, hchild⟩ := (hlast c).mp hb
      obtain ⟨n, hn, hp, rfl⟩ := h.child?_eq_some_iff.mp hchild
      rw [h.path_child hn hp, (ih.mp hc).2, append_assoc]
      exact ⟨lt_length hn, rfl⟩
    · rintro ⟨hb, hpath⟩
      rw [← append_assoc] at hpath
      obtain ⟨n, c, hn, hp, hname, hrest, hlt, hcontainer⟩ := h.exists_parent hb hpath
      exact ⟨c, ih.mpr ⟨hlt, hrest⟩,
        (hlast c).mpr ⟨hcontainer, h.child?_eq_some_iff.mpr ⟨n, hn, hp, hname⟩⟩⟩

theorem IsTree.map_fullName_ancestors (h : t.IsTree) (hi : i < t.nodes.length) :
    (t.ancestors i).map t.fullName = enclosing (t.fullName i) := by
  refine h.induction (P := fun i => (t.ancestors i).map t.fullName =
    enclosing (t.fullName i)) ?_ ?_ hi
  · rw [h.ancestors_root, h.fullName_root, Name.enclosing_empty, map_singleton, h.fullName_root]
  · intro i n p hn hp hname _ ih
    rw [h.ancestors_child hn hp, map_cons, ih, h.fullName_child hn hp hname,
      Name.enclosing_join _ hname]

theorem IsTree.lt_of_mem_ancestors (h : t.IsTree) (hi : i < t.nodes.length) :
    ∀ a ∈ t.ancestors i, a < t.nodes.length := by
  refine h.induction (P := fun i => ∀ a ∈ t.ancestors i, a < t.nodes.length) ?_ ?_ hi
  · rw [h.ancestors_root]
    simpa using lt_length h.root
  · intro i n p hn hp _ _ ih
    rw [h.ancestors_child hn hp]
    exact forall_mem_cons.mpr ⟨lt_length hn, ih⟩

section Growth

variable {name : String} {kind : SymbolKind}

theorem getElem?_of_extends (hgrown : t.nodes <+: t'.nodes) (hi : i < t.nodes.length) :
    t'.nodes[i]? = t.nodes[i]? := by
  obtain ⟨more, heq⟩ := hgrown
  rw [← heq, getElem?_append_left hi]

theorem kind?_of_extends (hgrown : t.nodes <+: t'.nodes) (hi : i < t.nodes.length) :
    t'.kind? i = t.kind? i := by
  rw [kind?, kind?, getElem?_of_extends hgrown hi]

theorem IsTree.path_of_extends (h : t.IsTree) (h' : t'.IsTree) (hgrown : t.nodes <+: t'.nodes)
    (hi : i < t.nodes.length) : t'.path i = t.path i := by
  refine h.induction (P := fun i => t'.path i = t.path i) ?_ ?_ hi
  · rw [h.path_root, h'.path_root]
  · intro i n p hn hp _ _ ih
    have hn' : t'.nodes[i]? = some n := (getElem?_of_extends hgrown (lt_length hn)).trans hn
    rw [h.path_child hn hp, h'.path_child hn' hp, ih]

theorem IsTree.fullName_of_extends (h : t.IsTree) (h' : t'.IsTree) (hgrown : t.nodes <+: t'.nodes)
    (hi : i < t.nodes.length) : t'.fullName i = t.fullName i := by
  rw [fullName_eq, fullName_eq, h.path_of_extends h' hgrown hi]

theorem add_ok (hadd : t.add p name kind = .ok (t', i)) :
    t'.nodes = t.nodes ++ [⟨name, kind, some p⟩] ∧ i = t.nodes.length ∧ t'.cacheScope? = none ∧
      t.child? p name = none := by
  unfold add at hadd
  split at hadd
  · cases hadd
  · rename_i hnone
    cases hadd
    exact ⟨rfl, rfl, rfl, hnone⟩

theorem child?_eq_none_iff :
    t.child? p name = none ↔ ∀ n ∈ t.nodes, n.parent? = some p → n.name ≠ name := by
  simp [child?]

theorem lt_length_of_container (h : (t.kind? p).any SymbolKind.isContainer = true) :
    p < t.nodes.length := by
  obtain ⟨kind, hkind, _⟩ := (Option.any_eq_true _ _).mp h
  obtain ⟨n, hn, _⟩ := Option.map_eq_some_iff.mp hkind
  exact IsTree.lt_length hn

theorem lt_length_of_kind? (h : t.kind? p = some kind) : p < t.nodes.length := by
  obtain ⟨n, hn, _⟩ := Option.map_eq_some_iff.mp h
  exact IsTree.lt_length hn

theorem getElem?_add (hadd : t.add p name kind = .ok (t', i)) (hm : t'.nodes[j]? = some m) :
    t.nodes[j]? = some m ∧ (m.parent? = some p → m.name ≠ name) ∨
      j = t.nodes.length ∧ m = ⟨name, kind, some p⟩ := by
  obtain ⟨hnodes, _, _, hnone⟩ := add_ok hadd
  rw [hnodes, getElem?_append] at hm
  split at hm
  · exact .inl ⟨hm, child?_eq_none_iff.mp hnone m (mem_of_getElem? hm)⟩
  · rw [getElem?_singleton] at hm
    split at hm
    · cases hm
      exact .inr ⟨by omega, rfl⟩
    · cases hm

theorem NamesApart.add (h : t.NamesApart) (hadd : t.add p name kind = .ok (t', i)) :
    t'.NamesApart := by
  intro j k m m' hm hm' hp hsame
  rcases getElem?_add hadd hm with ⟨hm, hfresh⟩ | ⟨rfl, rfl⟩
  · rcases getElem?_add hadd hm' with ⟨hm', _⟩ | ⟨rfl, rfl⟩
    · exact h j k m m' hm hm' hp hsame
    · exact absurd hsame (hfresh hp)
  · rcases getElem?_add hadd hm' with ⟨_, hfresh⟩ | ⟨rfl, rfl⟩
    · exact absurd hsame.symm (hfresh hp.symm)
    · rfl

theorem IsTree.add (h : t.IsTree) (hname : IsSegment name)
    (hparent : (t.kind? p).any SymbolKind.isContainer = true)
    (hadd : t.add p name kind = .ok (t', i)) :
    t'.IsTree ∧ t.nodes <+: t'.nodes ∧ t'.nodes[i]? = some ⟨name, kind, some p⟩ := by
  obtain ⟨hnodes, rfl, _, _⟩ := add_ok hadd
  have hgrown : t.nodes <+: t'.nodes := hnodes ▸ prefix_append _ _
  have hlt := lt_length_of_container hparent
  refine ⟨⟨?_, ?_, NamesApart.add h.unique hadd⟩, hgrown, by simp [hnodes]⟩
  · rw [getElem?_of_extends hgrown (lt_length h.root), h.root]
  · intro j m hm hj
    rcases getElem?_add hadd hm with ⟨hm, _⟩ | ⟨rfl, rfl⟩
    · obtain ⟨q, hq, hqj, hcontainer, hsegment⟩ := h.below j m hm hj
      have hq' : q < t.nodes.length := by
        have hj := lt_length hm
        omega
      exact ⟨q, hq, hqj, by rwa [kind?_of_extends hgrown hq'], hsegment⟩
    · exact ⟨p, rfl, hlt, by rwa [kind?_of_extends hgrown hlt], hname⟩

end Growth

section Answers

def resolved? (t : SymbolTable) (name : String) (scope : Nat) : Option ResolvedSymbol :=
  match Name.absolute? name with
  | some path => (t.walk? root (segments path)).bind t.symbol?
  | none => (t.search? name scope).bind t.symbol?

def Remembers (t : SymbolTable) : Prop :=
  ∀ scope, t.cacheScope? = some scope → ∀ name found, t.cache.lookup name = some found →
    found = t.search? name scope

section

variable (h : t'.nodes = t.nodes)
include h

theorem ancestors_congr (node : Nat) : t'.ancestors node = t.ancestors node := by
  induction node using Nat.strongRecOn with
  | ind node ih =>
    have hparent : t'.parent? node = t.parent? node := by rw [parent?, parent?, h]
    rw [ancestors, ancestors, hparent]
    cases t.parent? node with
    | none => rfl
    | some p =>
      dsimp only
      split
      · rename_i hlt
        rw [ih p hlt]
      · rfl

theorem walk?_congr (node : Nat) (ss : List String) : t'.walk? node ss = t.walk? node ss := by
  induction ss generalizing node with
  | nil => rfl
  | cons s ss ih =>
    have hkind : t'.kind? node = t.kind? node := by rw [kind?, kind?, h]
    have hchild : t'.child? node s = t.child? node s := by rw [child?, child?, h]
    rw [walk?, walk?, hkind, hchild]
    simp [ih]

theorem search?_congr (name : String) (scope : Nat) :
    t'.search? name scope = t.search? name scope := by
  rw [search?, search?, ancestors_congr h]
  simp [walk?_congr h]

theorem symbol?_congr (node : Nat) : t'.symbol? node = t.symbol? node := by
  have hkind : t'.kind? node = t.kind? node := by rw [kind?, kind?, h]
  have hname : t'.fullName node = t.fullName node := by
    simp [fullName, parent?, ancestors_congr h, h]
  rw [symbol?, symbol?, hkind, hname]

theorem resolved?_congr (name : String) (scope : Nat) :
    t'.resolved? name scope = t.resolved? name scope := by
  have hsymbol : t'.symbol? = t.symbol? := funext (symbol?_congr h)
  simp [resolved?, walk?_congr h, search?_congr h, hsymbol]

end

theorem resolve_spec (h : t.Remembers) (name : String) (scope : Nat) :
    (t.resolve name scope).2 = t.resolved? name scope ∧ (t.resolve name scope).1.nodes = t.nodes ∧
      (t.resolve name scope).1.Remembers := by
  unfold resolve resolved?
  cases Name.absolute? name with
  | some path => exact ⟨rfl, rfl, h⟩
  | none =>
    dsimp only
    -- What is remembered for another scope is forgotten first.
    generalize hbegin : (if t.cacheScope? = some scope then t else
      { t with cacheScope? := some scope, cache := [] } : SymbolTable) = start
    have hstart : start.nodes = t.nodes ∧ start.cacheScope? = some scope ∧ start.Remembers := by
      by_cases hscope : t.cacheScope? = some scope
      · rw [if_pos hscope] at hbegin
        exact hbegin ▸ ⟨rfl, hscope, h⟩
      · rw [if_neg hscope] at hbegin
        subst hbegin
        exact ⟨rfl, rfl, fun _ _ _ _ hfound => nomatch hfound⟩
    obtain ⟨hnodes, hscope, hremembers⟩ := hstart
    have hsymbol : start.symbol? = t.symbol? := funext (symbol?_congr hnodes)
    rw [hsymbol]
    cases hknown : start.cache.lookup name with
    | some found =>
      have hfound := hremembers scope hscope name found hknown
      rw [search?_congr hnodes] at hfound
      exact ⟨by rw [hfound], hnodes, hremembers⟩
    | none =>
      refine ⟨by rw [search?_congr hnodes], hnodes, ?_⟩
      intro scope' hscope' name' found hfound
      have hsame : scope = scope' := Option.some.inj (hscope.symm.trans hscope')
      subst hsame
      have hsearch (cache : List (String × Option Nat)) :
          search? { start with cache := cache } name' scope = start.search? name' scope := by
        apply search?_congr
        rfl
      rw [hsearch]
      rw [lookup_cons] at hfound
      split at hfound
      · rename_i heq
        cases hfound
        rw [beq_iff_eq.mp heq]
      · exact hremembers scope hscope name' found hfound

end Answers

section Packages

theorem addPackage_spec (h : t.IsTree) (hcache : t.cacheScope? = none)
    (hkinds : ∀ n ∈ t.nodes, n.kind = .package) (hnode : node < t.nodes.length)
    (hleaf : ∀ n ∈ t.nodes, n.parent? ≠ some node) (hss : ∀ s ∈ ss, IsSegment s) :
    (t.addPackage node ss).1.IsTree ∧ (t.addPackage node ss).1.cacheScope? = none ∧
    (∀ n ∈ (t.addPackage node ss).1.nodes, n.kind = .package) ∧
    t.nodes <+: (t.addPackage node ss).1.nodes ∧
    (t.addPackage node ss).2 < (t.addPackage node ss).1.nodes.length ∧
    (t.addPackage node ss).1.path (t.addPackage node ss).2 = t.path node ++ ss ∧
    ∀ full, full ∈ FileDescriptor.packagePrefixes (t.fullName node) ss ↔
      ∃ i, t.nodes.length ≤ i ∧ i < (t.addPackage node ss).1.nodes.length ∧
        (t.addPackage node ss).1.fullName i = full := by
  induction ss generalizing t node with
  | nil =>
    refine ⟨h, hcache, hkinds, prefix_refl _, hnode, by simp [addPackage], ?_⟩
    simp only [FileDescriptor.packagePrefixes, not_mem_nil, addPackage, false_iff, not_exists]
    omega
  | cons s ss ih =>
    obtain ⟨hs, hss⟩ := forall_mem_cons.mp hss
    have hnone : t.child? node s = none :=
      child?_eq_none_iff.mpr fun n hn hp => absurd hp (hleaf n hn)
    obtain ⟨t', hadd⟩ : ∃ t', t.add node s .package = .ok (t', t.nodes.length) := by
      rw [add, hnone]
      exact ⟨_, rfl⟩
    have hcontainer : (t.kind? node).any SymbolKind.isContainer = true := by
      rw [kind?, getElem?_eq_getElem hnode, Option.map_some, hkinds _ (getElem_mem hnode)]
      rfl
    obtain ⟨hnodes, _, hcache', _⟩ := add_ok hadd
    obtain ⟨htree, hgrown, hadded⟩ := h.add hs hcontainer hadd
    have hlength : t'.nodes.length = t.nodes.length + 1 := by simp [hnodes]
    have hkinds' : ∀ n ∈ t'.nodes, n.kind = .package := by
      rw [hnodes]
      exact forall_mem_append.mpr ⟨hkinds, by simp⟩
    have hleaf' : ∀ n ∈ t'.nodes, n.parent? ≠ some t.nodes.length := by
      intro n hn hp
      obtain ⟨i, hi⟩ := mem_iff_getElem?.mp hn
      have hlt := htree.parent_lt hi hp
      have hi := IsTree.lt_length hi
      omega
    obtain ⟨hfinal, hcache, hkinds, hgrows, hlast, hpath, hnames⟩ :=
      ih htree hcache' hkinds' (by omega) hleaf' hss
    have hsteps : t.addPackage node (s :: ss) = t'.addPackage t.nodes.length ss := by
      rw [addPackage, hadd]
    rw [hsteps]
    refine ⟨hfinal, hcache, hkinds, hgrown.trans hgrows, hlast, ?_, ?_⟩
    · have hparent := h.path_of_extends htree hgrown hnode
      rw [hpath, htree.path_child hadded rfl, hparent, append_assoc]
      rfl
    · intro full
      have hfirst := htree.fullName_child hadded rfl hs
      rw [h.fullName_of_extends htree hgrown hnode] at hfirst
      rw [FileDescriptor.packagePrefixes, mem_cons, ← hfirst, hnames]
      have hkept := htree.fullName_of_extends hfinal hgrows (i := t.nodes.length) (by omega)
      have hlong := hgrows.length_le
      constructor
      · rintro (rfl | ⟨i, hle, hlt, hfull⟩)
        · exact ⟨t.nodes.length, Nat.le_refl _, by omega, hkept⟩
        · exact ⟨i, by omega, hlt, hfull⟩
      · rintro ⟨i, hle, hlt, hfull⟩
        by_cases hi : i = t.nodes.length
        · subst hi
          exact .inl (hfull.symm.trans hkept)
        · exact .inr ⟨i, by omega, hlt, hfull⟩

theorem ofPackage_spec (package : String) :
    (ofPackage package).IsTree ∧ (ofPackage package).cacheScope? = none ∧
    (∀ n ∈ (ofPackage package).nodes, n.kind = .package) ∧
    (ofPackage package).package < (ofPackage package).nodes.length ∧
    (ofPackage package).fullName (ofPackage package).package =
      dotted ((segments package).filter (· ≠ "")) ∧
    ∀ full, full ∈ FileDescriptor.packagePrefixes "" ((segments package).filter (· ≠ "")) ↔
      ∃ i, i ≠ 0 ∧ i < (ofPackage package).nodes.length ∧
        (ofPackage package).fullName i = full := by
  have hss : ∀ s ∈ (segments package).filter (· ≠ ""), IsSegment s := by
    intro s hs
    obtain ⟨hmem, hne⟩ := mem_filter.mp hs
    exact ⟨by simpa using hne, Name.not_mem_of_mem_segments hmem⟩
  have hroot : root < empty.nodes.length := by simp [empty, root]
  obtain ⟨htree, hcache, hkinds, _, hlast, hpath, hnames⟩ := addPackage_spec isTree_empty rfl
    (by simp [empty]) hroot (by simp [empty]) hss
  have hnodes : (ofPackage package).nodes =
      (empty.addPackage root ((segments package).filter (· ≠ ""))).1.nodes := rfl
  have hname (node : Nat) : (ofPackage package).fullName node =
      (empty.addPackage root ((segments package).filter (· ≠ ""))).1.fullName node := by
    simp [fullName, parent?, ancestors_congr hnodes, hnodes]
  refine ⟨htree.congr hnodes, hcache, hkinds, hlast, ?_, ?_⟩
  · have hroot : empty.path root = [] := isTree_empty.path_root
    rw [hroot, nil_append] at hpath
    rw [hname, fullName_eq]
    exact congrArg dotted hpath
  · intro full
    have hroot : empty.fullName root = "" := isTree_empty.fullName_root
    rw [hroot] at hnames
    rw [hnames, hnodes]
    simp only [hname]
    have hpos : ∀ i, empty.nodes.length ≤ i ↔ i ≠ 0 := by
      rw [show empty.nodes.length = 1 from rfl]
      omega
    simp [hpos]

end Packages

end SymbolTable

end ProtobufSchema

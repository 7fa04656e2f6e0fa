import ProtobufSchema.Proofs.OrderlyAssembly
import ProtobufSchema.Proofs.SymbolTrees

/-! What assembling keeps account of: the symbols that were declared, the names that were taken, and
the references to types, each entered together with a child of the open element. -/

namespace ProtobufSchema

open List
open Name (join IsSegment)
open ScopeStack (Place)

variable {kind : SymbolKind} {full : String}
variable {names : List (String × Definition)} {uses : List (Placed Use)}

/-- What is said about types is complete: the name of a type that is not known yet, a scalar type
without a name, or a message that was made for the field. -/
inductive Use.IsSettled (t : SymbolTable) : Use → Prop
  | named (name : String) (extendee? : Option String) :
    IsSettled t (.field none (some name) extendee?)
  | scalar {type : FieldType} (htype : type.isScalar = true) (extendee? : Option String) :
    IsSettled t (.field (some type) none extendee?)
  | made {type : FieldType} (htype : type.isMessage = true) {node : Nat}
    (hnode : t.kind? node = some .message) (extendee? : Option String) :
    IsSettled t (.field (some type) (some (Name.qualify (t.fullName node))) extendee?)
  | method (input output : String) : IsSettled t (.method (some input) (some output))

structure Ledger where
  symbols : SymbolTable
  taken : List (Nat × String)
  references : List Reference

namespace Ledger

variable {d : Definition} {node : Nat}

def size (l : Ledger) : Nat := l.symbols.nodes.length

structure IsSound (l : Ledger) : Prop where
  tree : l.symbols.IsTree
  cache : l.symbols.cacheScope? = none
  taken : ∀ x ∈ l.taken, x.1 < l.size ∧ l.symbols.child? x.1 x.2 = none

def Takes (l : Ledger) (full : String) : Prop :=
  ∃ node name, (node, name) ∈ l.taken ∧ IsSegment name ∧ full = join (l.symbols.fullName node) name

def Traces (l : Ledger) (r : Reference) : Prop :=
  r.scopeNode < l.size ∧ r.scope = l.symbols.fullName r.scopeNode

def HasFrom (l : Ledger) (start : Nat) (full : String) (kind : SymbolKind) : Prop :=
  ∃ node, start ≤ node ∧ node < l.size ∧ l.symbols.fullName node = full ∧
    l.symbols.kind? node = some kind

/-- From one ledger to a later one these uses and names came up. The new symbols have these names,
apart from some whose elements are still owed. -/
structure Accounts (owed : List (String × SymbolKind)) (l l' : Ledger) (uses : List (Placed Use))
    (names : List (String × Definition)) : Prop where
  sound : l'.IsSound
  nodes : l.symbols.nodes <+: l'.symbols.nodes
  taken : ∀ x ∈ l.taken, x ∈ l'.taken
  mentions : ∃ more, l'.references = l.references ++ more ∧ (∀ r ∈ more, l'.Traces r) ∧
    (more.map Reference.mention).Perm (uses.flatMap Placed.useMentions)
  symbols : ∀ full kind, l'.HasFrom l.size full kind ↔
    (∃ d, (full, d) ∈ names ∧ d.symbolKind? = some kind) ∨ (full, kind) ∈ owed
  extensions : ∀ full d, (full, d) ∈ names → d.symbolKind? = none → l'.Takes full
  settled : ∀ w ∈ uses, w.value.IsSettled l'.symbols

section Growth

variable {l l' : Ledger} (h : l.IsSound) (h' : l'.IsSound)
  (hnodes : l.symbols.nodes <+: l'.symbols.nodes)
include h h' hnodes

theorem fullName_of_grown (hnode : node < l.size) :
    l'.symbols.fullName node = l.symbols.fullName node :=
  h.tree.fullName_of_extends h'.tree hnodes hnode

theorem Traces.grow {r : Reference} (hr : l.Traces r) : l'.Traces r := by
  obtain ⟨hnode, hscope⟩ := hr
  refine ⟨lt_of_lt_of_le hnode hnodes.length_le, ?_⟩
  rw [fullName_of_grown h h' hnodes hnode, hscope]

theorem Takes.grow (htaken : ∀ x ∈ l.taken, x ∈ l'.taken) (hfull : l.Takes full) :
    l'.Takes full := by
  obtain ⟨node, name, hmem, hname, hfull⟩ := hfull
  refine ⟨node, name, htaken _ hmem, hname, ?_⟩
  rw [fullName_of_grown h h' hnodes (h.taken _ hmem).1, hfull]

theorem isSettled_grow {u : Use} (hu : u.IsSettled l.symbols) : u.IsSettled l'.symbols := by
  cases hu with
  | named name extendee? => exact .named name extendee?
  | scalar htype extendee? => exact .scalar htype extendee?
  | made htype hnode extendee? =>
    have hlt := SymbolTable.lt_length_of_kind? hnode
    rw [← fullName_of_grown h h' hnodes hlt]
    exact .made htype (SymbolTable.kind?_of_extends hnodes hlt ▸ hnode) extendee?
  | method input output => exact .method input output

theorem hasFrom_iff {start : Nat} (hstart : start ≤ l.size) :
    l'.HasFrom start full kind ↔ l.HasFrom start full kind ∨ l'.HasFrom l.size full kind := by
  have hlength : l.size ≤ l'.size := hnodes.length_le
  constructor
  · rintro ⟨node, hle, hlt, hname, hkind⟩
    by_cases hnode : node < l.size
    · rw [fullName_of_grown h h' hnodes hnode] at hname
      rw [SymbolTable.kind?_of_extends hnodes hnode] at hkind
      exact .inl ⟨node, hle, hnode, hname, hkind⟩
    · exact .inr ⟨node, by omega, hlt, hname, hkind⟩
  · rintro (⟨node, hle, hlt, hname, hkind⟩ | ⟨node, hle, hlt, hname, hkind⟩)
    · refine ⟨node, hle, by omega, ?_, ?_⟩
      · rw [fullName_of_grown h h' hnodes hlt, hname]
      · rw [SymbolTable.kind?_of_extends hnodes hlt, hkind]
    · exact ⟨node, by omega, hlt, hname, hkind⟩

end Growth

namespace Accounts

variable {owed owed' : List (String × SymbolKind)} {l l' l'' : Ledger}
  {uses uses' : List (Placed Use)} {names names' : List (String × Definition)}

theorem refl (h : l.IsSound) : Accounts [] l l [] [] where
  sound := h
  nodes := prefix_rfl
  taken := fun _ hx => hx
  mentions := ⟨[], by simp⟩
  symbols := by
    intro full kind
    simp only [not_mem_nil, false_and, exists_false, or_self, iff_false]
    rintro ⟨node, hle, hlt, _⟩
    omega
  extensions := by simp
  settled := by simp

theorem trans (h : Accounts owed l l' uses names) (h' : Accounts owed' l' l'' uses' names') :
    Accounts (owed ++ owed') l l'' (uses ++ uses') (names ++ names') where
  sound := h'.sound
  nodes := h.nodes.trans h'.nodes
  taken := fun x hx => h'.taken x (h.taken x hx)
  mentions := by
    obtain ⟨more, hmore, htraces, hmentions⟩ := h.mentions
    obtain ⟨more', hmore', htraces', hmentions'⟩ := h'.mentions
    refine ⟨more ++ more', by rw [hmore', hmore, append_assoc], ?_, ?_⟩
    · refine forall_mem_append.mpr ⟨fun r hr => ?_, htraces'⟩
      exact (htraces r hr).grow h.sound h'.sound h'.nodes
    · rw [map_append, flatMap_append]
      exact hmentions.append hmentions'
  symbols := by
    intro full kind
    have hsize : l.size ≤ l'.size := h.nodes.length_le
    rw [hasFrom_iff h.sound h'.sound h'.nodes hsize, h.symbols, h'.symbols]
    simp only [mem_append, or_and_right, exists_or]
    exact or_or_or_comm
  extensions := by
    intro full d hd hkind
    rcases mem_append.mp hd with hd | hd
    · exact (h.extensions full d hd hkind).grow h.sound h'.sound h'.nodes h'.taken
    · exact h'.extensions full d hd hkind
  settled := by
    refine forall_mem_append.mpr ⟨fun w hw => ?_, h'.settled⟩
    exact isSettled_grow h.sound h'.sound h'.nodes (h.settled w hw)

theorem named (h : Accounts [(full, kind)] l l' uses names) (hkind : d.symbolKind? = some kind) :
    Accounts [] l l' uses ((full, d) :: names) := by
  refine ⟨h.sound, h.nodes, h.taken, h.mentions, ?_, ?_, h.settled⟩
  · intro full' kind'
    rw [h.symbols]
    simp only [mem_cons, Prod.mk.injEq, or_and_right, exists_or, not_mem_nil, or_false]
    rw [or_comm]
    refine or_congr ⟨?_, ?_⟩ .rfl
    · rintro ⟨rfl, rfl⟩
      exact ⟨d, ⟨rfl, rfl⟩, hkind⟩
    · rintro ⟨d', ⟨rfl, rfl⟩, hkind'⟩
      exact ⟨rfl, Option.some.inj (hkind'.symm.trans hkind)⟩
  · intro full' d' hd hnone
    rcases mem_cons.mp hd with heq | hd
    · cases heq
      rw [hkind] at hnone
      cases hnone
    · exact h.extensions full' d' hd hnone

end Accounts

namespace IsSound

variable {l : Ledger} {parent : Nat} {name : String}

theorem take (h : l.IsSound) (hparent : parent < l.size)
    (hfree : l.symbols.child? parent name = none) :
    Accounts [] l { l with taken := (parent, name) :: l.taken } [] [] := by
  have hempty := Accounts.refl h
  exact ⟨⟨h.tree, h.cache, forall_mem_cons.mpr ⟨⟨hparent, hfree⟩, h.taken⟩⟩, hempty.nodes,
    fun x hx => mem_cons_of_mem _ hx, hempty.mentions, hempty.symbols, by simp, hempty.settled⟩

theorem declare (h : l.IsSound)
    (hparent : (l.symbols.kind? parent).any SymbolKind.isContainer = true) (hname : IsSegment name)
    {symbols : SymbolTable} (hadd : l.symbols.add parent name kind = .ok (symbols, node))
    (hfree : (parent, name) ∉ l.taken) :
    Accounts [(join (l.symbols.fullName parent) name, kind)] l { l with symbols := symbols } [] [] ∧
      symbols.fullName node = join (l.symbols.fullName parent) name ∧
      symbols.kind? node = some kind := by
  obtain ⟨htree, hgrown, hnode⟩ := h.tree.add hname hparent hadd
  obtain ⟨hnodes, rfl, hcache, _⟩ := SymbolTable.add_ok hadd
  have hsize : symbols.nodes.length = l.symbols.nodes.length + 1 := by simp [hnodes]
  have hfull : symbols.fullName l.symbols.nodes.length = join (l.symbols.fullName parent) name := by
    rw [htree.fullName_child hnode rfl hname, h.tree.fullName_of_extends htree hgrown
      (SymbolTable.lt_length_of_container hparent)]
  have hkind : symbols.kind? l.symbols.nodes.length = some kind := by
    rw [SymbolTable.kind?, hnode]
    rfl
  refine ⟨⟨⟨htree, hcache, fun x hx => ?_⟩, hgrown, fun _ hx => hx, ⟨[], by simp⟩, ?_, by simp,
    by simp⟩, hfull, hkind⟩
  · obtain ⟨hlt, hbefore⟩ := h.taken x hx
    rw [SymbolTable.child?_eq_none_iff] at hbefore ⊢
    refine ⟨lt_of_lt_of_le hlt hgrown.length_le, ?_⟩
    intro n hn hparent
    rw [hnodes] at hn
    rcases mem_append.mp hn with hn | hn
    · exact hbefore n hn hparent
    · cases mem_singleton.mp hn
      rintro rfl
      exact hfree (Option.some.inj hparent ▸ hx)
  · intro full k
    simp only [HasFrom, size, hsize, mem_singleton, Prod.mk.injEq, not_mem_nil, false_and,
      exists_false, false_or]
    constructor
    · rintro ⟨i, hle, hlt, rfl, hk⟩
      obtain rfl : i = l.symbols.nodes.length := by omega
      exact ⟨hfull, Option.some.inj (hk.symm.trans hkind)⟩
    · rintro ⟨rfl, rfl⟩
      exact ⟨_, le_refl _, Nat.lt_succ_self _, hfull, hkind⟩

end IsSound

/-- What was added to an element that is open at a path, where names are written in a scope, is what
came up in the ledger. -/
def Brings (owed : List (String × SymbolKind)) (scope : String) (path : Path) (l : Ledger)
    (e : Element) (l' : Ledger) (e' : Element) : Prop :=
  ∃ uses names, Accounts owed l l' uses names ∧
    (e'.uses scope path).Perm (e.uses scope path ++ uses) ∧
    ∀ x, x ∈ e'.names scope path ↔ x ∈ e.names scope path ∨ x ∈ names

namespace Brings

variable {owed owed' : List (String × SymbolKind)} {scope : String} {path : Path}
  {l l₁ l' l'' : Ledger} {e e₁ e' e'' c : Element} {p inner : Place} {tag : Tag}

theorem of_accounts (h : Accounts owed l l' [] []) : Brings owed scope path l e l' e :=
  ⟨[], [], h, by simp, by simp⟩

theorem of_like (h : l.IsSound) (hlike : e.Like e') : Brings [] scope path l e l e' :=
  ⟨[], [], .refl h, by simp [hlike.uses], by simp [hlike.names]⟩

theorem trans (h : Brings owed scope path l e l' e') (h' : Brings owed' scope path l' e' l'' e'') :
    Brings (owed ++ owed') scope path l e l'' e'' := by
  obtain ⟨uses, names, haccounts, huses, hnames⟩ := h
  obtain ⟨uses', names', haccounts', huses', hnames'⟩ := h'
  refine ⟨_, _, haccounts.trans haccounts', ?_, ?_⟩
  · rw [← append_assoc]
    exact huses'.trans (huses.append_right _)
  · intro x
    rw [hnames', hnames, mem_append, or_assoc]

theorem of_takes (hopens : p.Opens e tag inner) (htakes : e.Takes tag c e')
    (haccounts : Accounts owed l l' (c.childUses scope inner.path)
      (c.childNames scope inner.path tag)) : Brings owed scope p.path l e l' e' := by
  rw [hopens.path] at haccounts
  exact ⟨_, _, haccounts, htakes.uses _ _, htakes.names _ _⟩

theorem child (h : Brings [(full, kind)] scope p.path l e l₁ e₁) (hopens : p.Opens e₁ tag inner)
    (htakes : e₁.Takes tag c e') (haccounts : Accounts [] l₁ l' uses names)
    (huses : (c.childUses scope inner.path).Perm uses)
    (hnames : ∀ x, x ∈ c.childNames scope inner.path tag ↔ x ∈ (full, d) :: names)
    (hd : d.symbolKind? = some kind) : Brings [] scope p.path l e l' e' := by
  obtain ⟨uses₀, names₀, haccounts₀, huses₀, hnames₀⟩ := h
  rw [hopens.path] at huses hnames
  refine ⟨uses₀ ++ uses, (full, d) :: (names₀ ++ names),
    (haccounts₀.trans haccounts).named hd, ?_, ?_⟩
  · rw [← append_assoc]
    exact (htakes.uses _ _).trans (huses₀.append huses)
  · intro x
    rw [htakes.names, hnames, hnames₀, mem_cons, mem_cons, mem_append]
    tauto

end Brings

end Ledger

def Element.Head.isContainer : Head → Bool
  | file _ | message _ _ => true
  | _ => false

namespace Assembly

open Ledger (Accounts)

def ledger (a : Assembly) : Ledger := ⟨a.symbols, a.taken, a.references⟩

def here (a : Assembly) : String := a.symbols.fullName a.scope

variable {a a' a'' : Assembly}

/-! ### References -/

/-- References to types were made in the current scope. -/
def Notes (ms : List Mention) (a a' : Assembly) : Prop :=
  ∃ more, a' = { a with references := a.references ++ more } ∧ more.map Reference.mention = ms ∧
    ∀ r ∈ more, r.scopeNode = a.scope ∧ r.scope = a.here

namespace Notes

variable {ms ms' : List Mention}

theorem refl (a : Assembly) : Notes [] a a := ⟨[], by simp, rfl, by simp⟩

theorem here_eq (h : Notes ms a a') : a'.here = a.here := by
  obtain ⟨_, rfl, _⟩ := h
  rfl

theorem trans (h : Notes ms a a') (h' : Notes ms' a' a'') : Notes (ms ++ ms') a a'' := by
  obtain ⟨more, rfl, rfl, hmore⟩ := h
  obtain ⟨more', rfl, rfl, hmore'⟩ := h'
  refine ⟨more ++ more', by simp, by simp, ?_⟩
  exact forall_mem_append.mpr ⟨hmore, hmore'⟩

theorem accounts (h : Notes ms a a') (hsound : a.ledger.IsSound) (hscope : a.scope < a.ledger.size)
    (hms : uses.flatMap Placed.useMentions = ms)
    (hsettled : ∀ w ∈ uses, w.value.IsSettled a.symbols)
    (hnames : ∀ full d, (full, d) ∈ names → d.symbolKind? = none ∧ a.ledger.Takes full) :
    Accounts [] a.ledger a'.ledger uses names := by
  obtain ⟨more, rfl, rfl, hmore⟩ := h
  refine ⟨⟨hsound.tree, hsound.cache, hsound.taken⟩, prefix_rfl, fun _ hx => hx,
    ⟨more, rfl, ?_, hms ▸ .refl _⟩, ?_, fun full d hd _ => (hnames full d hd).2, hsettled⟩
  · intro r hr
    obtain ⟨hnode, hfull⟩ := hmore r hr
    refine ⟨hnode ▸ hscope, hfull.trans ?_⟩
    rw [hnode]
    rfl
  · intro full kind
    refine ((Accounts.refl hsound).symbols full kind).trans (or_congr ⟨?_, ?_⟩ Iff.rfl)
    · rintro ⟨_, hd, _⟩
      cases hd
    · rintro ⟨d, hd, hkind⟩
      rw [(hnames full d hd).1] at hkind
      cases hkind

end Notes

theorem refer_notes {name : String} {kind : ReferenceKind} {path : Path} {span : Span} {u : PUnit}
    (h : refer name kind path span a = .ok u a') : Notes [⟨path, kind, a.here, name⟩] a a' := by
  cases h
  exact ⟨_, rfl, rfl, by simp [here]⟩

end Assembly

end ProtobufSchema

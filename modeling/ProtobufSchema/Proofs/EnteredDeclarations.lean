import ProtobufSchema.Proofs.AssemblyLedgers
import ProtobufSchema.Proofs.DistinctNames

/-! The account that assembling keeps of its scope. A declaration finds what it needs in use and
leaves the account as it is, or enters its children, names and numbers. -/

namespace ProtobufSchema

open Name (join IsSegment)
open ScopeStack (Place)
open Usage

variable {node : Nat} {b : Bool}
variable {name : String} (c d : Contents)

namespace Options

variable {kind : OptionsKind} {options : Option Options}

theorem awaiting_nil : awaiting kind options [] = options := rfl

theorem adding_eq (raw : RawOption) : adding kind options raw = awaiting kind options [raw] := rfl

theorem awaiting_append (raws more : List RawOption) :
    awaiting kind (awaiting kind options raws) more = awaiting kind options (raws ++ more) := by
  unfold awaiting
  by_cases hraws : raws = []
  · simp [hraws]
  · by_cases hmore : more = []
    · simp [hmore]
    · simp [hraws]

end Options

/-! ### Elements with further contents -/

def MessageDescriptor.having (c : Contents) (m : MessageDescriptor) : MessageDescriptor :=
  { m with
    fields := m.fields ++ c.fields
    extensions := m.extensions ++ c.extensions
    nestedTypes := m.nestedTypes ++ c.messages
    enumTypes := m.enumTypes ++ c.enums
    extensionRanges := m.extensionRanges ++ c.ranges
    oneofs := m.oneofs ++ c.oneofs
    options := Options.awaiting .message m.options c.raws
    reservedRanges := m.reservedRanges ++ c.reservedRanges
    reservedNames := m.reservedNames ++ c.reservedNames }

theorem MessageDescriptor.having_append (m : MessageDescriptor) :
    (m.having c).having d = m.having (c ++ d) := by
  simp [having, Contents.append_def, Options.awaiting_append]

namespace Element

variable (e : Element)

/-- An element that contents are added to, as far as it can hold them. -/
def having (c : Contents) : Element → Element
  | file f => file {
      f with
      messageTypes := f.messageTypes ++ c.messages
      enumTypes := f.enumTypes ++ c.enums
      services := f.services ++ c.services
      extensions := f.extensions ++ c.extensions
      options := Options.awaiting .file f.options c.raws }
  | message m => message (m.having c)
  | field f => field { f with options := Options.awaiting .field f.options c.raws }
  | enum e => enum {
      e with
      values := e.values ++ c.values
      options := Options.awaiting .enum e.options c.raws
      reservedRanges := e.reservedRanges ++ c.reservedRanges
      reservedNames := e.reservedNames ++ c.reservedNames }
  | enumValue v => enumValue { v with options := Options.awaiting .enumValue v.options c.raws }
  | service s => service {
      s with
      methods := s.methods ++ c.methods
      options := Options.awaiting .service s.options c.raws }
  | method m => method { m with options := Options.awaiting .method m.options c.raws }
  | oneof o => oneof { o with options := Options.awaiting .oneof o.options c.raws }
  | extensionRange r =>
    extensionRange { r with options := Options.awaiting .extensionRange r.options c.raws }
  | option o => option o

theorem having_append (e : Element) : (e.having c).having d = e.having (c ++ d) := by
  cases e <;>
    simp [having, MessageDescriptor.having_append, Contents.append_def, Options.awaiting_append]

theorem having_empty : e.having {} = e := by
  cases e with
  | message m =>
    cases m
    simp [having, MessageDescriptor.having, Options.awaiting_nil]
  | _ => simp [having, Options.awaiting_nil]

def awaitingAt (index : Nat) (raws : List RawOption) : Element → Element
  | message m => message {
      m with
      oneofs := m.oneofs.modify index fun o =>
        { o with options := Options.awaiting .oneof o.options raws } }
  | e => e

def contentsIn (block? : Option Block) : Element → Contents
  | file _ => {}
  | message m => { messages := [m] }
  | field x => .ofField block? (x.inBlock block?)
  | enum e => { enums := [e] }
  | enumValue v => { values := [v] }
  | service s => { services := [s] }
  | method m => { methods := [m] }
  | oneof o => { oneofs := [o] }
  | extensionRange r => { ranges := [r] }
  | option o => { raws := [o] }

theorem head_having : (e.having c).head = e.head := by
  cases e with
  | message m =>
    have hentry : (m.having c).isMapEntry = m.isMapEntry := by
      simp only [MessageDescriptor.isMapEntry, MessageDescriptor.having, Options.awaiting]
      split
      · rfl
      · cases m.options <;> rfl
    simp only [having, head, hentry]
    rfl
  | _ => rfl

theorem like_having (raws : List RawOption) (ranges : List ReservedRange) (names : List String) :
    e.Like (e.having { raws := raws, reservedRanges := ranges, reservedNames := names }) := by
  have hhead := head_having { raws := raws, reservedRanges := ranges, reservedNames := names } e
  cases e with
  | message m =>
    obtain ⟨hname, hentry⟩ := Head.message.inj hhead
    exact like_message rfl hentry (by simp [MessageDescriptor.having]) (List.append_nil _)
      (List.append_nil _) (List.append_nil _) (List.append_nil _)
  | _ => exact ⟨hhead, fun t => by cases t <;> simp [having, size], by simp [having, uses],
    by simp [having, Element.names]⟩

def PartsDistinct : Element → Prop
  | file f => (∀ m ∈ f.messageTypes, m.IsDistinct) ∧
    ∀ s ∈ f.services, (s.methods.map (·.name)).Nodup
  | message m => ∀ x ∈ m.nestedTypes, x.IsDistinct
  | _ => True

end Element

structure Contents.PartsDistinct (c : Contents) : Prop where
  messages : ∀ m ∈ c.messages, m.IsDistinct
  methods : ∀ s ∈ c.services, (s.methods.map (·.name)).Nodup

theorem Contents.PartsDistinct.of_nil {c : Contents} (hmessages : c.messages = [])
    (hservices : c.services = []) : c.PartsDistinct :=
  ⟨by simp [hmessages], by simp [hservices]⟩

theorem Element.PartsDistinct.having {e : Element} {c : Contents} (h : e.PartsDistinct)
    (hc : c.PartsDistinct) : (e.having c).PartsDistinct := by
  cases e with
  | file f =>
    obtain ⟨hmessages, hmethods⟩ := h
    exact ⟨List.forall_mem_append.mpr ⟨hmessages, hc.messages⟩,
      List.forall_mem_append.mpr ⟨hmethods, hc.methods⟩⟩
  | message m => exact List.forall_mem_append.mpr ⟨h, hc.messages⟩
  | _ => trivial

namespace ScopeStack

open Element

variable {o c c' e e' : Element} {block? : Option Block} {tag : Tag}
variable {raw : RawOption}

theorem attach_having (htag : childTag? o block? c = some tag) :
    attach o block? c = .ok (o.having (c.contentsIn block?)) := by
  rcases block? with _ | (extendee | index)
  all_goals
    unfold childTag? at htag
    split at htag <;> cases htag
  any_goals exact nomatch ‹some (.oneof index) = some (Block.extend _)›
  any_goals contradiction
  all_goals simp [attach, having, MessageDescriptor.having, contentsIn, Contents.ofField,
    FieldDescriptor.inBlock, Block.isExtend, Options.awaiting_nil]

theorem takes_having (htag : childTag? o block? c = some tag) :
    o.Takes tag (c.inBlock block?) (o.having (c.contentsIn block?)) :=
  attach_takes htag (attach_having htag)

theorem attachOption_having (h : attachOption e none raw = .ok e') :
    e' = e.having { raws := [raw] } := by
  cases e <;> simp only [attachOption, addOption?, Except.ok.injEq, reduceCtorEq] at h
  all_goals
    subst h
    simp [having, MessageDescriptor.having, Options.adding_eq]

theorem attachOption_oneof {index : Nat}
    (h : attachOption e (some (.oneof index)) raw = .ok e') : e' = e.awaitingAt index [raw] := by
  cases e with
  | message m =>
    simp only [attachOption, addOneofOption?] at h
    cases ho : m.oneofs[index]? with
    | none => simp [ho] at h
    | some o =>
      simp only [ho, Option.map_some, Except.ok.injEq] at h
      subst h
      simp only [awaitingAt, List.modify_eq_set_getElem?, ho]
      rfl
  | _ => simp [attachOption] at h

end ScopeStack

/-! ### The account of a scope -/

namespace Usage

variable (u v : Usage)

theorem append_def : u ++ v = ⟨u.names ++ v.names, u.numbers ++ v.numbers⟩ := rfl

theorem append_assoc (w : Usage) : u ++ v ++ w = u ++ (v ++ w) := by simp [append_def]

theorem append_empty : u ++ {} = u := by simp [append_def]

theorem empty_append : ({} : Usage) ++ u = u := by simp [append_def]

end Usage

namespace Contents

theorem append_assoc (e : Contents) : c ++ d ++ e = c ++ (d ++ e) := by simp [append_def]

theorem append_empty : c ++ {} = c := by simp [append_def]

theorem empty_append : ({} : Contents) ++ c = c := by simp [append_def]

end Contents

namespace Assembly

variable {span : Span}

/-- A name is in use in the scope of a node: a symbol has it, or it was taken. -/
def InUse (a : Assembly) (node : Nat) (name : String) : Prop :=
  (a.symbols.child? node name).isSome = true ∨ (node, name) ∈ a.taken

/-- An element is open at a place, and in the current scope these names and numbers are in use. -/
structure Works (p : Place) (e : Element) (u : Usage) (a : Assembly) : Prop where
  stack : p.IsAt e a.stack
  sound : a.ledger.IsSound
  scope : a.scope < a.ledger.size
  container : e.head.isContainer = true →
    (a.symbols.kind? a.scope).any SymbolKind.isContainer = true
  names : ∀ name, a.InUse a.scope name ↔ name ∈ u.names
  numbers : a.claims.fields.map (·.number) = u.numbers
  names_nodup : u.names.Nodup
  numbers_nodup : u.numbers.Nodup
  parts : e.PartsDistinct

/-- From one state to a later one in the same scope. What is in use in other scopes stays in use
there, and nothing else. -/
structure Advances (a a' : Assembly) : Prop where
  scope : a'.scope = a.scope
  here : a'.here = a.here
  dialect : a'.dialect = a.dialect
  nodes : a.symbols.nodes <+: a'.symbols.nodes
  elsewhere : ∀ node, node < a.ledger.size → node ≠ a.scope → ∀ name, a'.InUse node name ↔
    a.InUse node name
  log : a.log.size ≤ a'.log.size

/-- Contents were entered in the open element, and names and numbers came into use for them. The
ledger accounts for them, and for symbols whose elements are still owed. -/
structure Enters (owed : List (String × SymbolKind)) (p : Place) (e : Element) (u : Usage)
    (a : Assembly) (c : Contents) (v : Usage) (a' : Assembly) : Prop where
  after : a'.Works p (e.having c) (u ++ v)
  advances : Advances a a'
  brings : Ledger.Brings owed a.here p.path a.ledger e a'.ledger (e.having c)

/-- States with the same account; there may be more reports. -/
structure Alike (a a' : Assembly) : Prop where
  ledger : a'.ledger = a.ledger
  scope : a'.scope = a.scope
  dialect : a'.dialect = a.dialect
  claims : a'.claims.fields = a.claims.fields
  log : a.log.size ≤ a'.log.size

variable {p inner : Place} {e e' c c' : Element} {u v w : Usage} {d d' : Contents}
  {a a' a'' : Assembly} {owed owed' : List (String × SymbolKind)}

theorem Advances.trans (h : Advances a a') (h' : Advances a' a'') : Advances a a'' where
  scope := h'.scope.trans h.scope
  here := h'.here.trans h.here
  dialect := h'.dialect.trans h.dialect
  nodes := h.nodes.trans h'.nodes
  elsewhere := by
    intro node hnode hne name
    rw [h'.elsewhere node (lt_of_lt_of_le hnode h.nodes.length_le) (h.scope ▸ hne),
      h.elsewhere node hnode hne]
  log := h.log.trans h'.log

namespace Alike

theorem refl (a : Assembly) : Alike a a := ⟨rfl, rfl, rfl, rfl, le_refl _⟩

variable (h : Alike a a')
include h

theorem trans (h' : Alike a' a'') : Alike a a'' :=
  ⟨h'.ledger.trans h.ledger, h'.scope.trans h.scope, h'.dialect.trans h.dialect,
    h'.claims.trans h.claims, h.log.trans h'.log⟩

theorem symbols : a'.symbols = a.symbols := congrArg Ledger.symbols h.ledger

theorem inUse (node : Nat) (name : String) : a'.InUse node name ↔ a.InUse node name := by
  rw [InUse, InUse, h.symbols, show a'.taken = a.taken from congrArg Ledger.taken h.ledger]

theorem here_eq : a'.here = a.here := by rw [here, here, h.symbols, h.scope]

theorem advances : Advances a a' where
  scope := h.scope
  here := h.here_eq
  dialect := h.dialect
  nodes := h.symbols ▸ List.prefix_rfl
  elsewhere := fun node _ _ name => h.inUse node name
  log := h.log

end Alike

theorem Works.alike {q : Place} (h : a.Works p e u) (ha : Alike a a') (hstack : q.IsAt e' a'.stack)
    (hparts : e'.PartsDistinct) (hcontainer : e'.head.isContainer = true →
      (a.symbols.kind? a.scope).any SymbolKind.isContainer = true) : a'.Works q e' u where
  stack := hstack
  sound := ha.ledger ▸ h.sound
  scope := by
    rw [ha.scope, ha.ledger]
    exact h.scope
  container := by
    intro hcontain
    rw [ha.scope, ha.symbols]
    exact hcontainer hcontain
  names := by
    intro name
    rw [ha.scope, ha.inUse, h.names]
  numbers := by rw [ha.claims, h.numbers]
  names_nodup := h.names_nodup
  numbers_nodup := h.numbers_nodup
  parts := hparts

theorem Works.stay (h : a.Works p e u) (ha : Alike a a') (hstack : a'.stack = a.stack) :
    a'.Works p e u :=
  h.alike ha (hstack ▸ h.stack) h.parts h.container

namespace Enters

theorem of_works (h : a'.Works p e (u ++ v)) (ha : Advances a a')
    (haccounts : Ledger.Accounts owed a.ledger a'.ledger [] []) : Enters owed p e u a {} v a' :=
  ⟨by rwa [Element.having_empty], ha, by
    rw [Element.having_empty]
    exact .of_accounts haccounts⟩

theorem trans (h : Enters owed p e u a d v a')
    (h' : Enters owed' p (e.having d) (u ++ v) a' d' w a'') :
    Enters (owed ++ owed') p e u a (d ++ d') (v ++ w) a'' := by
  refine ⟨?_, h.advances.trans h'.advances, ?_⟩
  · rw [← Element.having_append, ← append_assoc]
    exact h'.after
  · rw [← Element.having_append]
    exact h.brings.trans (h.advances.here ▸ h'.brings)

theorem of_alike {raws : List RawOption} {ranges : List ReservedRange} {names : List String}
    (h : a'.Works p (e.having { raws := raws, reservedRanges := ranges, reservedNames := names }) u)
    (ha : Alike a a') :
    Enters [] p e u a { raws := raws, reservedRanges := ranges, reservedNames := names } {} a' := by
  refine ⟨by rwa [append_empty], ha.advances, ?_⟩
  have hsound := h.sound
  rw [ha.ledger] at hsound ⊢
  exact .of_like hsound (e.like_having _ _ _)

theorem of_stay (h : a.Works p e u) (ha : Alike a a') (hstack : a'.stack = a.stack) :
    Enters [] p e u a {} {} a' :=
  .of_alike (by
    rw [Element.having_empty]
    exact h.stay ha hstack) ha

theorem refl (h : a.Works p e u) : Enters [] p e u a {} {} a := .of_stay h (.refl a) rfl

theorem after_alike (ha : Alike a a') (h : Enters owed p e u a' d v a'') :
    Enters owed p e u a d v a'' := by
  refine ⟨h.after, ha.advances.trans h.advances, ?_⟩
  rw [← ha.ledger, ← ha.here_eq]
  exact h.brings

theorem then_alike (h : Enters owed p e u a d v a') (ha : Alike a' a'')
    (hstack : a''.stack = a'.stack) : Enters owed p e u a d v a'' := by
  refine ⟨h.after.stay ha hstack, h.advances.trans ha.advances, ?_⟩
  rw [ha.ledger]
  exact h.brings

theorem later (h : Enters owed p e u a {} v a') (h' : Enters owed' p e (u ++ v) a' d w a'') :
    Enters (owed ++ owed') p e u a d (v ++ w) a'' := by
  have hall := h.trans (by rwa [Element.having_empty])
  rwa [Contents.empty_append] at hall

theorem works (h : Enters owed p e u a {} v a') : a'.Works p e (u ++ v) :=
  Element.having_empty e ▸ h.after

end Enters

/-! ### Names -/

theorem inUse_take {n : Nat} {s : String} :
    InUse { a with taken := (node, name) :: a.taken } n s ↔ a.InUse n s ∨
      (n = node ∧ s = name) := by
  simp only [InUse, List.mem_cons, Prod.mk.injEq]
  tauto

theorem not_inUse_iff :
    ¬a.InUse node name ↔ a.symbols.child? node name = none ∧ (node, name) ∉ a.taken := by
  simp [InUse]

theorem Works.take (h : a.Works p e u) (hfree : ¬a.InUse a.scope name) :
    Enters [] p e u a {} { names := [name] } { a with taken := (a.scope, name) :: a.taken } := by
  have haccounts := h.sound.take h.scope (not_inUse_iff.mp hfree).1
  refine .of_works ?_ ?_ haccounts
  · refine ⟨h.stack, haccounts.sound, h.scope, h.container, ?_, ?_, ?_, ?_, h.parts⟩
    · intro s
      rw [inUse_take, h.names]
      simp [append_def]
    · simp [append_def, h.numbers]
    · rw [h.names] at hfree
      simpa [append_def, List.nodup_append,
        h.names_nodup] using fun s hs => ne_of_mem_of_not_mem hs hfree
    · simpa [append_def] using h.numbers_nodup
  · refine ⟨rfl, rfl, rfl, List.prefix_rfl, ?_, le_refl _⟩
    intro node _ hne name
    rw [inUse_take]
    simp [hne]

theorem report_alike (d : Diagnostic) : Alike a { a with log := a.log.report d } :=
  ⟨rfl, rfl, rfl, rfl, by simp [Log.report, Log.size]⟩

theorem size_report (log : Log) (d : Diagnostic) :
    log.size < (log.report d).size := by simp [Log.report, Log.size]

theorem takeName_cases (h : takeName node name span a = .ok b a') :
    (b = false ∧ a.InUse node name ∧ ∃ d, a' = { a with log := a.log.report d }) ∨
      (b = true ∧ ¬a.InUse node name ∧ a' = { a with taken := (node, name) :: a.taken }) := by
  have h := get_ok h
  split at h
  · next huse =>
    obtain ⟨_, _, hreport, h⟩ := bind_ok h
    cases hreport
    cases h
    exact .inl ⟨rfl, by simpa [InUse] using huse, _, rfl⟩
  · next huse =>
    cases h
    exact .inr ⟨rfl, by simpa [InUse] using huse, rfl⟩

theorem Works.takeName (h : a.Works p e u) (hrun : takeName a.scope name span a = .ok b a') :
    (b = false ∧ name ∈ u.names ∧ Enters [] p e u a {} {} a' ∧ a.log.size < a'.log.size) ∨
      (b = true ∧ Enters [] p e u a {} { names := [name] } a') := by
  rcases takeName_cases hrun with ⟨rfl, huse, d, rfl⟩ | ⟨rfl, hfree, rfl⟩
  · exact .inl ⟨rfl, (h.names name).mp huse, .of_stay h (report_alike d) rfl, size_report _ d⟩
  · exact .inr ⟨rfl, h.take hfree⟩

/-! ### Symbols -/

end Assembly

theorem SymbolTable.child?_isSome_iff {t : SymbolTable} {parent : Nat} :
    (t.child? parent name).isSome = true ↔ ∃ n ∈ t.nodes, n.parent? = some parent ∧
      n.name = name := by
  rw [child?, List.findIdx?_isSome, List.any_eq_true]
  simp

namespace Assembly

variable {p inner : Place} {e e' c c' : Element} {u v w : Usage} {d d' : Contents}
  {a a' a'' : Assembly} {name : String} {kind : SymbolKind} {span : Span}
variable {context : FieldContext} {node? : Option Nat} {number : Int32}

/-- A symbol of the current scope in which nothing is declared yet. -/
structure IsVacant (name : String) (kind : SymbolKind) (node : Nat) (a : Assembly) : Prop where
  fullName : a.symbols.fullName node = join a.here name
  kind? : a.symbols.kind? node = some kind
  ne : node ≠ a.scope
  empty : ∀ s, ¬a.InUse node s

theorem Works.found (h : a.Works p e u) (hcontainer : e.head.isContainer = true)
    (hname : IsSegment name) {symbols : SymbolTable}
    (hadd : a.symbols.add a.scope name kind = .ok (symbols, node)) (hfree : ¬a.InUse a.scope name) :
    Enters [(join a.here name, kind)] p e u a {} { names := [name] } { a with symbols := symbols } ∧
      IsVacant name kind node { a with symbols := symbols } ∧ a.ledger.size ≤ node := by
  obtain ⟨haccounts, hfull, hkind⟩ :=
    h.sound.declare (h.container hcontainer) hname hadd (not_inUse_iff.mp hfree).2
  obtain ⟨hnodes, rfl, _, _⟩ := SymbolTable.add_ok hadd
  have hlength : symbols.nodes.length = a.symbols.nodes.length + 1 := by simp [hnodes]
  have hgrown : a.symbols.nodes <+: symbols.nodes := haccounts.nodes
  have hhere : here { a with symbols := symbols } = a.here :=
    Ledger.fullName_of_grown h.sound haccounts.sound hgrown h.scope
  have huse (n : Nat) (s : String) :
      InUse { a with symbols := symbols } n s ↔ a.InUse n s ∨ (n = a.scope ∧ s = name) := by
    simp only [InUse, SymbolTable.child?_isSome_iff, hnodes, List.mem_append, List.mem_singleton,
      or_and_right]
    grind
  refine ⟨.of_works ?_ ?_ haccounts, ?_, le_refl _⟩
  · refine ⟨h.stack, haccounts.sound, lt_of_lt_of_le h.scope hgrown.length_le, ?_, ?_, ?_, ?_,
      ?_, h.parts⟩
    · intro hcontain
      simp only [SymbolTable.kind?_of_extends hgrown h.scope]
      exact h.container hcontain
    · intro s
      rw [huse, h.names]
      simp [append_def]
    · simp [append_def, h.numbers]
    · rw [h.names] at hfree
      simpa [append_def, List.nodup_append,
        h.names_nodup] using fun s hs => ne_of_mem_of_not_mem hs hfree
    · simpa [append_def] using h.numbers_nodup
  · refine ⟨rfl, hhere, rfl, hgrown, ?_, le_refl _⟩
    intro n _ hne s
    rw [huse]
    simp [hne]
  · refine ⟨hfull.trans (by rw [hhere]; rfl), hkind, ne_of_gt h.scope, ?_⟩
    intro s hs
    rcases hs with hs | hs
    · obtain ⟨n, hn, hparent, _⟩ := SymbolTable.child?_isSome_iff.mp hs
      obtain ⟨i, hi⟩ := List.mem_iff_getElem?.mp hn
      have hlt := haccounts.sound.tree.parent_lt hi hparent
      have hbound := (getElem?_eq_some_iff.mp hi).1
      simp only at hbound
      omega
    · exact lt_irrefl _ (h.sound.taken _ hs).1

theorem IsVacant.later (h : a.IsVacant name kind node) (hworks : a.Works p e u)
    (hworks' : a'.Works p e' v) (ha : Advances a a') : a'.IsVacant name kind node := by
  have hnode := SymbolTable.lt_length_of_kind? h.kind?
  refine ⟨?_, ?_, ha.scope ▸ h.ne, ?_⟩
  · rw [ha.here, ← h.fullName]
    exact hworks.sound.tree.fullName_of_extends hworks'.sound.tree ha.nodes hnode
  · rw [SymbolTable.kind?_of_extends ha.nodes hnode, h.kind?]
  · intro s
    rw [ha.elsewhere node hnode h.ne]
    exact h.empty s

theorem declare_cases (h : declare name kind span a = .ok node? a') :
    (node? = none ∧ a.InUse a.scope name ∧ ∃ d, a' = { a with log := a.log.report d }) ∨
      ∃ symbols node, node? = some node ∧ ¬a.InUse a.scope name ∧
        a.symbols.add a.scope name kind = .ok (symbols, node) ∧
        a' = { a with symbols := symbols } := by
  have hreported (h : (reportDuplicate a.scope name span >>= fun _ => pure none) a = .ok node? a') :
      node? = none ∧ ∃ d, a' = { a with log := a.log.report d } := by
    obtain ⟨_, _, hreport, hdone⟩ := bind_ok h
    cases hreport
    cases hdone
    exact ⟨rfl, _, rfl⟩
  have h := get_ok h
  by_cases htaken : a.taken.contains (a.scope, name) = true
  · rw [if_pos htaken] at h
    obtain ⟨hnone, hlog⟩ := hreported h
    exact .inl ⟨hnone, .inr (by simpa using htaken), hlog⟩
  · rw [if_neg htaken] at h
    cases hchild : a.symbols.child? a.scope name with
    | some existing =>
      rw [SymbolTable.add, hchild] at h
      obtain ⟨hnone, hlog⟩ := hreported h
      exact .inl ⟨hnone, .inl (by simp [hchild]), hlog⟩
    | none =>
      have hfree := not_inUse_iff.mpr ⟨hchild, by simpa using htaken⟩
      rw [SymbolTable.add, hchild] at h ⊢
      cases h
      exact .inr ⟨_, _, rfl, hfree, rfl, rfl⟩

theorem Works.declare (h : a.Works p e u) (hcontainer : e.head.isContainer = true)
    (hname : IsSegment name) (hrun : declare name kind span a = .ok node? a') :
    (node? = none ∧ name ∈ u.names ∧ Alike a a' ∧ a'.stack = a.stack ∧ a.log.size < a'.log.size) ∨
      ∃ node, node? = some node ∧
      Enters [(join a.here name, kind)] p e u a {} { names := [name] } a' ∧
        a'.IsVacant name kind node ∧ a.ledger.size ≤ node := by
  rcases declare_cases hrun with ⟨rfl, huse, d, rfl⟩ | ⟨symbols, node, rfl, hfree, hadd, rfl⟩
  · exact .inl ⟨rfl, (h.names name).mp huse, report_alike d, rfl, size_report _ d⟩
  · exact .inr ⟨node, rfl, h.found hcontainer hname hadd hfree⟩

/-! ### Numbers -/

theorem Works.claim (h : a.Works p e u) {f : ClaimedField} (hfree : f.number ∉ u.numbers) :
    Works p e (u ++ { numbers := [f.number] })
      { a with claims := { a.claims with fields := a.claims.fields ++ [f] } } := by
  refine ⟨h.stack, h.sound, h.scope, h.container, ?_, ?_, ?_, ?_, h.parts⟩
  · intro s
    simp only [append_def, List.append_nil]
    exact h.names s
  · simp [append_def, h.numbers]
  · simpa [append_def] using h.names_nodup
  · simpa [append_def, List.nodup_append,
      h.numbers_nodup] using fun n hn => ne_of_mem_of_not_mem hn hfree

def fieldUsage (isExtension : Bool) (name : String) (number : Int32) : Usage :=
  ⟨[name], if isExtension then [] else [number]⟩

theorem claimField_cases (h : claimField name number span context a = .ok b a') :
    (b = false ∧ ((context.isExtend = false ∧ number ∈ a.claims.fields.map (·.number)) ∨
        a.InUse a.scope name) ∧ ∃ d, a' = { a with log := a.log.report d }) ∨
      (b = true ∧ (context.isExtend = false → number ∉ a.claims.fields.map (·.number)) ∧
        ¬a.InUse a.scope name ∧ ∃ ds, a' = { a with
          taken := (a.scope, name) :: a.taken
          log := a.log.extend ds
          claims := if context.isExtend then a.claims
            else { a.claims with fields := a.claims.fields ++ [⟨name, number, span⟩] } }) := by
  have h := get_ok h
  split at h
  · next hnumber =>
    cases h
    simp only [Bool.and_eq_true, Bool.not_eq_true'] at hnumber
    refine .inl ⟨rfl, .inl ⟨hnumber.1, ?_⟩, _, rfl⟩
    simpa using hnumber.2
  · next hnumber =>
    have hfree : context.isExtend = false → number ∉ a.claims.fields.map (·.number) := by
      intro hext
      simpa [hext] using hnumber
    obtain ⟨taken, a₁, htake, h⟩ := bind_ok h
    rcases takeName_cases htake with ⟨rfl, huse, d, rfl⟩ | ⟨rfl, huse, rfl⟩
    · cases h
      exact .inl ⟨rfl, .inr huse, d, rfl⟩
    · refine .inr ?_
      revert h
      generalize isReservedNumber number = reserved
      generalize context.isExtend = inExtend at hfree ⊢
      cases reserved <;> cases inExtend <;> intro h <;> cases h
      · exact ⟨rfl, hfree, huse, [], by rw [Log.extend_nil]; rfl⟩
      · exact ⟨rfl, hfree, huse, [], by rw [Log.extend_nil]; rfl⟩
      · exact ⟨rfl, hfree, huse, [_], rfl⟩
      · exact ⟨rfl, hfree, huse, [_], rfl⟩

theorem release_concat (c : Claims) (f : ClaimedField) :
    ({ c with fields := c.fields ++ [f] } : Claims).release f.name f.number = c := by
  simp [Claims.release]

theorem Works.claimField (h : a.Works p e u)
    (hrun : claimField name number span context a = .ok b a') :
    (b = false ∧ u.Clashes (fieldUsage context.isExtend name number) ∧ Enters [] p e u a {} {} a' ∧
        a.log.size < a'.log.size) ∨
      (b = true ∧ Enters [] p e u a {} (fieldUsage context.isExtend name number) a' ∧
        a'.stack = a.stack ∧
        (a'.scope, name) ∈ a'.taken ∧
        ∀ ⦃a₁ a₂⦄, Alike a' a₁ → releaseField name number context a₁ = .ok () a₂ →
          Alike a a₂ ∧ a₂.stack = a₁.stack ∧ a₂.log = a₁.log) := by
  rcases claimField_cases hrun with ⟨rfl, hclash, d, rfl⟩ | ⟨rfl, hnumber, hfree, ds, rfl⟩
  · refine .inl ⟨rfl, ?_, .of_stay h (report_alike d) rfl, size_report _ d⟩
    rw [h.numbers, h.names] at hclash
    rcases hclash with ⟨hext, hclash⟩ | hclash
    · exact .inr ⟨number, by simp [fieldUsage, hext], hclash⟩
    · exact .inl ⟨name, by simp [fieldUsage], hclash⟩
  · have hlog : a.log.size ≤ (a.log.extend ds).size := by simp
    refine .inr ⟨rfl, ?_, rfl, List.mem_cons_self, ?_⟩
    · have hlogged : Alike { a with taken := (a.scope, name) :: a.taken }
          { a with taken := (a.scope, name) :: a.taken, log := a.log.extend ds } :=
          ⟨rfl, rfl, rfl, rfl, hlog⟩
      have htaken := (h.take hfree).then_alike hlogged rfl
      rw [h.numbers] at hnumber
      obtain ⟨hscope, hhere, hdialect, hnodes, helsewhere, _⟩ := htaken.advances
      refine .of_works ?_ ⟨hscope, hhere, hdialect, hnodes, helsewhere, hlog⟩
        (h.sound.take h.scope (not_inUse_iff.mp hfree).1)
      cases hext : context.isExtend with
      | true => simpa [fieldUsage] using htaken.works
      | false =>
        have hclaimed := htaken.works.claim (f := ⟨name, number, span⟩)
          (by simpa [append_def] using hnumber hext)
        simpa [fieldUsage, append_def] using hclaimed
    · intro a₁ a₂ halike hrelease
      cases hrelease
      have htaken : a₁.taken = (a.scope, name) :: a.taken := congrArg Ledger.taken halike.ledger
      have hreferences : a₁.references = a.references := congrArg Ledger.references halike.ledger
      refine ⟨⟨?_, halike.scope, halike.dialect, ?_, hlog.trans halike.log⟩, rfl, rfl⟩
      · simp [ledger, halike.symbols, htaken, hreferences, halike.scope]
      · have hfields := halike.claims
        cases hext : context.isExtend with
        | true =>
          simp only [hext] at hfields ⊢
          exact hfields
        | false =>
          simp only [hext, Bool.false_eq_true, if_false] at hfields ⊢
          have hrelease := congrArg Claims.fields (release_concat a.claims ⟨name, number, span⟩)
          rw [← hrelease]
          simp [Claims.release, hfields]

end Assembly

end ProtobufSchema

import ProtobufSchema.Proofs.ResolvedReferences

/-! While a file is assembled its symbols form a tree, and once finished it is indexed by full
names; both ways find the same symbols. -/

namespace ProtobufSchema

/-- The table after names were asked for in scopes, one after the other. -/
def SymbolTable.afterQueries (t : SymbolTable) (asked : List (String × Nat)) : SymbolTable :=
  asked.foldl (fun t query => (t.resolve query.1 query.2).1) t

theorem SymbolTable.afterQueries_spec {t : SymbolTable} (h : t.Remembers)
    (asked : List (String × Nat)) :
    (t.afterQueries asked).nodes = t.nodes ∧ (t.afterQueries asked).Remembers := by
  induction asked generalizing t with
  | nil => exact ⟨rfl, h⟩
  | cons query asked ih =>
    obtain ⟨_, hnodes, hremembers⟩ := resolve_spec h query.1 query.2
    obtain ⟨hnodes', hremembers'⟩ := ih hremembers
    exact ⟨hnodes'.trans hnodes, hremembers'⟩

theorem findSome?_bind {α β γ : Type} {g : α → Option β} {keep : β → Option γ} {xs : List α}
    (h : ∀ x ∈ xs, ∀ y, g x = some y → (keep y).isSome) :
    (xs.findSome? g).bind keep = xs.findSome? fun x => (g x).bind keep := by
  induction xs with
  | nil => rfl
  | cons x xs ih =>
    obtain ⟨hx, hxs⟩ := List.forall_mem_cons.mp h
    rw [List.findSome?_cons, List.findSome?_cons]
    cases hg : g x with
    | none => exact ih hxs
    | some y =>
      obtain ⟨z, hz⟩ := Option.isSome_iff_exists.mp (hx y hg)
      simp [hz]

namespace Pool

variable (f : FileDescriptor)

/-- The symbol, a package too, that a name denotes in a scope. -/
def symbol? (p : Pool) (name scope : String) : Option (String × SymbolKind) :=
  (p.resolveWith? name scope fun d => d.symbolKind?.isSome).bind fun found =>
    found.definition.symbolKind?.map fun kind => (found.fullName, kind)

theorem lookup?_alone (full : String) :
    (ofFile (.link f [])).lookup? full =
      ((SymbolIndex.ofFile f).get? full).map fun d => (f, d) := by
  unfold lookup?
  have hindex : (ofFile (.link f [])).index = .ofFile f := by
    rw [LinkedFile.link]
    rfl
  rw [hindex]
  cases (SymbolIndex.ofFile f).get? full <;> rfl

theorem symbol?_alone (name scope : String) :
    (ofFile (.link f [])).symbol? name scope = f.ownSymbol? name scope := by
  have haccepted (full : String) :
      ((((ofFile (.link f [])).lookup? full).filter fun x => x.2.symbolKind?.isSome).map fun x =>
        (⟨full, x.1, x.2⟩ : Found)).bind (fun found =>
          found.definition.symbolKind?.map fun kind => (found.fullName, kind)) =
      (f.symbolKind? full).map fun kind => (full, kind) := by
    rw [lookup?_alone, FileDescriptor.symbolKind?]
    cases (SymbolIndex.ofFile f).get? full with
    | none => rfl
    | some d => cases hkind : d.symbolKind? <;> simp [hkind, Option.filter]
  unfold symbol? resolveWith? FileDescriptor.ownSymbol?
  cases Name.absolute? name with
  | some full => exact haccepted full
  | none =>
    rw [findSome?_bind]
    · simp [haccepted]
    · intro s _ found hfound
      obtain ⟨x, hx, rfl⟩ := Option.map_eq_some_iff.mp hfound
      obtain ⟨_, hkind⟩ := Option.filter_eq_some_iff.mp hx
      simpa using hkind

end Pool

theorem FileDescriptor.ownSymbol?_congr {f f' : FileDescriptor} (h : f'.definitions = f.definitions)
    (name scope : String) : f'.ownSymbol? name scope = f.ownSymbol? name scope := by
  have hindex : SymbolIndex.ofFile f' = .ofFile f := by
    rw [SymbolIndex.ofFile, SymbolIndex.ofFile, h]
  simp [ownSymbol?, symbolKind?, hindex]

/-- In a file that was assembled from a text, every name denotes the same symbol in the tree that
was built with it and in the finished file, from the scope of any node of the tree, whatever the
tree was asked before. -/
theorem tree_and_index_agree {text name : String} {tree : Tree.File}
    (hparse : Tree.File.parse text = .ok tree) {built : Assembled} {before after : Log}
    (h : tree.assemble name before = .ok built after) {node : Nat}
    (hnode : node < built.symbols.nodes.length) (asked : List (String × Nat)) (query : String) :
    (((built.symbols.afterQueries asked).resolve query node).2.map fun s => (s.fullName, s.kind)) =
      (Pool.ofFile (.link built.file [])).symbol? query (built.symbols.fullName node) := by
  obtain ⟨a, f, hwalk, hfinish, hresolved, -, hsymbols⟩ := Tree.File.assemble_eq_ok h
  rw [hsymbols] at hnode ⊢
  have hledger := Assembly.describes_of_walk (Tree.File.parse_isWritten hparse) hwalk hfinish
  have hremembers : a.symbols.Remembers := by
    intro scope hscope
    rw [show a.symbols.cacheScope? = none from hledger.sound.cache] at hscope
    cases hscope
  obtain ⟨hnodes, hremembers⟩ := SymbolTable.afterQueries_spec hremembers asked
  have hdefinitions := Reference.definitions_resolveAll a.symbols f a.references
  rw [← hresolved] at hdefinitions
  rw [(SymbolTable.resolve_spec hremembers query node).1, SymbolTable.resolved?_congr hnodes,
    Pool.symbol?_alone, FileDescriptor.ownSymbol?_congr hdefinitions]
  exact hledger.resolved?_eq hnode query

namespace Nested

/-- A package of two segments, and in a message a group, a map, an enum and an extension. -/
def text : String :=
  r"package a.b; message M { extensions 9; optional group G = 1 {} map<string, M> m = 2; " ++
    r"enum E { A = 0; } extend M { optional int32 e = 9; } } service S {}"

def answers (t : SymbolTable) (names : List String) : List (Option (String × SymbolKind)) :=
  names.map fun name => ((t.afterQueries [("S", 3)]).resolve name 3).2.map
    fun s => (s.fullName, s.kind)

set_option maxRecDepth 100000 in
theorem tree_and_index_agree_nested : ∃ tree built after, Tree.File.parse text = .ok tree ∧
    tree.assemble "a.proto" .empty = .ok built after ∧ 3 < built.symbols.nodes.length ∧
    built.symbols.fullName 3 = "a.b.M" ∧
    ["b.M.MEntry", ".a.b", "e", "M..G"].map (fun name =>
      (Pool.ofFile (.link built.file [])).symbol? name "a.b.M") =
        [some ("a.b.M.MEntry", .message), some ("a.b", .package), none, none] := by
  have hcheck : ((Tree.File.parse text).toOption.any fun tree =>
      match tree.assemble "a.proto" .empty with
      | .error _ _ => false
      | .ok built _ => decide (3 < built.symbols.nodes.length ∧ built.symbols.fullName 3 = "a.b.M" ∧
          answers built.symbols ["b.M.MEntry", ".a.b", "e", "M..G"] =
            [some ("a.b.M.MEntry", .message), some ("a.b", .package), none, none])) = true := by
    decide +kernel
  cases hparse : Tree.File.parse text with
  | error e => rw [hparse] at hcheck; cases hcheck
  | ok tree =>
    rw [hparse] at hcheck
    cases hbuilt : tree.assemble "a.proto" .empty with
    | error e log => simp [hbuilt, Except.toOption] at hcheck
    | ok built after =>
      simp only [Except.toOption, Option.any_some, hbuilt, decide_eq_true_eq] at hcheck
      obtain ⟨hnode, hscope, hanswers⟩ := hcheck
      have hagree := tree_and_index_agree hparse hbuilt hnode [("S", 3)]
      simp only [answers, hagree, hscope] at hanswers
      exact ⟨tree, built, after, rfl, hbuilt, hnode, hscope, hanswers⟩

end Nested

end ProtobufSchema

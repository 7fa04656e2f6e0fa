import ProtobufSchema.Text.Name

/-! The names of one file as a tree, with a node for each segment of the package. Nodes are numbered
in the order they were added. Answers to relative names are kept until the tree changes or another
scope asks. -/

namespace ProtobufSchema

inductive SymbolKind where
  | package
  | message
  | enum
  | service
  deriving DecidableEq, Repr

namespace SymbolKind

def all : List SymbolKind := [package, message, enum, service]

def name : SymbolKind → String
  | package => "package"
  | message => "message"
  | enum => "enum"
  | service => "service"

def isContainer : SymbolKind → Bool
  | package | message => true
  | enum | service => false

def isType : SymbolKind → Bool
  | message | enum => true
  | package | service => false

end SymbolKind

structure SymbolNode where
  name : String
  kind : SymbolKind
  parent? : Option Nat
  deriving DecidableEq, Repr

structure ResolvedSymbol where
  node : Nat
  fullName : String
  kind : SymbolKind
  deriving DecidableEq, Repr

structure SymbolTable where
  nodes : List SymbolNode
  package : Nat
  cacheScope? : Option Nat
  cache : List (String × Option Nat)
  deriving DecidableEq, Repr

namespace SymbolTable

def root : Nat := 0

def empty : SymbolTable := ⟨[⟨"", .package, none⟩], root, none, []⟩

def kind? (t : SymbolTable) (node : Nat) : Option SymbolKind := (t.nodes[node]?).map (·.kind)

def parent? (t : SymbolTable) (node : Nat) : Option Nat := (t.nodes[node]?).bind (·.parent?)

def child? (t : SymbolTable) (parent : Nat) (name : String) : Option Nat :=
  t.nodes.findIdx? fun n => n.parent? == some parent && n.name == name

/-- Adds a symbol below a node, unless the node has one of that name, which is the answer then. -/
def add (t : SymbolTable) (parent : Nat) (name : String) (kind : SymbolKind) :
    Except Nat (SymbolTable × Nat) :=
  match t.child? parent name with
  | some existing => .error existing
  | none =>
    let nodes := t.nodes ++ [⟨name, kind, some parent⟩]
    .ok ({ t with nodes, cacheScope? := none, cache := [] }, t.nodes.length)

def addPackage (t : SymbolTable) (node : Nat) : List String → SymbolTable × Nat
  | [] => (t, node)
  | segment :: more =>
    match t.add node segment .package with
    | .ok (t', added) => t'.addPackage added more
    | .error existing => t.addPackage existing more

def ofPackage (package : String) : SymbolTable :=
  let (t, node) := empty.addPackage root ((Name.segments package).filter (· ≠ ""))
  { t with package := node }

def ancestors (t : SymbolTable) (node : Nat) : List Nat :=
  match t.parent? node with
  | none => [node]
  | some parent => if parent < node then node :: t.ancestors parent else [node]
termination_by node

def fullName (t : SymbolTable) (node : Nat) : String :=
  let named := (t.ancestors node).filter fun n => (t.parent? n).isSome
  ".".intercalate ((named.filterMap fun n => (t.nodes[n]?).map (·.name)).reverse)

def walk? (t : SymbolTable) (node : Nat) : List String → Option Nat
  | [] => some node
  | segment :: more =>
    if (t.kind? node).any SymbolKind.isContainer then
      (t.child? node segment).bind fun next => t.walk? next more
    else none

/-- The innermost scope around a node from which a whole relative name can be followed decides. -/
def search? (t : SymbolTable) (name : String) (scope : Nat) : Option Nat :=
  (t.ancestors scope).findSome? fun node => t.walk? node (Name.segments name)

def symbol? (t : SymbolTable) (node : Nat) : Option ResolvedSymbol :=
  (t.kind? node).map fun kind => ⟨node, t.fullName node, kind⟩

def resolve (t : SymbolTable) (name : String) (scope : Nat) : SymbolTable × Option ResolvedSymbol :=
  match Name.absolute? name with
  | some path => (t, (t.walk? root (Name.segments path)).bind t.symbol?)
  | none =>
    let t :=
      if t.cacheScope? = some scope then t else { t with cacheScope? := some scope, cache := [] }
    match t.cache.lookup name with
    | some known => (t, known.bind t.symbol?)
    | none =>
      let found := t.search? name scope
      ({ t with cache := (name, found) :: t.cache }, found.bind t.symbol?)

end SymbolTable

end ProtobufSchema

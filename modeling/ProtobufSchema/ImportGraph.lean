/-!
Import graphs: files and the files they import, by name. A file reaches another if a chain of
imports, possibly empty, leads from the one to the other.
-/

namespace ProtobufSchema

structure ImportGraph where
  edges : List (String × List String)
  deriving DecidableEq, Repr

namespace ImportGraph

/-- What a file imports; a file that is not in the graph imports nothing. -/
def imports (g : ImportGraph) (file : String) : List String := (g.edges.lookup file).getD []

def spread (g : ImportGraph) (files : List String) : List String :=
  (files ++ files.flatMap g.imports).eraseDups

def within (g : ImportGraph) (file : String) : Nat → List String
  | 0 => [file]
  | n + 1 => g.spread (g.within file n)

def reaches (g : ImportGraph) (a b : String) : Bool :=
  (g.imports a).contains b || (g.within a g.edges.length).contains b

end ImportGraph

end ProtobufSchema

/-!
Places in a schema text. Lines and columns count from one, and a column counts bytes.
-/

namespace ProtobufSchema

structure Span where
  line : Nat
  column : Nat
  deriving DecidableEq, Repr

end ProtobufSchema

import QueryShape.Executable.Basic
import QueryShape.Text.Sha256

/-!
# What identifies an operation

Two operations are the same for a server that stores them if their canonical texts are
the same: the text of the operation, followed by the texts of all fragments that it
reaches.

## What this module delivers

- `Operation.closure`: the fragments that an operation reaches.
- `Operation.canonicalSource`: the canonical text.
- `Operation.identifier`: its hash, in hexadecimal digits.

Layout, file names and the order of definitions do not enter the canonical text, since
every part of it is printed anew and the fragments stand in the order of first reference.
-/

set_option autoImplicit false

namespace QueryShape

namespace Operation

/-- The fragments that an operation reaches, in depth-first order of first reference. -/
def closure (operation : Operation) (table : FragmentTable) : List FragmentId :=
  table.reachable operation.spreads

/-- The canonical text of an operation: one definition below the other. -/
def canonicalSource (operation : Operation) (table : FragmentTable) : String :=
  "\n".intercalate (operation.source ::
    (operation.closure table).filterMap (fun id => (table.get? id).map Fragment.source))

/-- The identifier of an operation. -/
def identifier (operation : Operation) (table : FragmentTable) : String :=
  Text.Sha256.hex (operation.canonicalSource table)

end Operation

end QueryShape

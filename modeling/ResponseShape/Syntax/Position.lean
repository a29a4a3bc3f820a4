/-!
# Source positions

Nodes of a document remember where they were written, so that errors can name the place.
-/

set_option autoImplicit false

namespace ResponseShape

/-- A line and a column of a document. -/
structure Position where
  line : Nat
  column : Nat
  deriving DecidableEq

/-- The written form `line:column`. -/
def Position.render (position : Position) : String :=
  s!"{position.line}:{position.column}"

/-- Where a selection set begins and ends. -/
structure Span where
  start : Position
  stop : Position
  deriving DecidableEq

end ResponseShape

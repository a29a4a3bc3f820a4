import ResponseShape.Schema.Lookup
import ResponseShape.Fragment.Table
import ResponseShape.Error

/-!
# What selections are read against

The meaning of a selection depends on a schema and on the fragments it may spread. A fragment's
type condition is read in the scope in which the fragment is used: it has to name a composite
type that some value of the scope can be of.
-/

set_option autoImplicit false

namespace ResponseShape

/-- A schema, and the fragments that selections spread. -/
structure Environment where
  schema : Schema
  fragments : FragmentTable

/-- The type that the condition names, when it is composite and has a possible type in common
with the scope. -/
def Environment.resolveCondition (environment : Environment) (condition : String)
    (scope : TypeDefinition) (path : Path) (position : Position) : Outcome TypeDefinition :=
  match environment.schema.type? condition with
  | none => .error (.unknownTypeCondition condition scope.name path position)
  | some type =>
      if type.isComposite && environment.schema.overlap type scope then .ok type
      else .error (.unknownTypeCondition condition scope.name path position)

/-- The scope inside an inline fragment: the type of its condition, or the scope around it when
it has none. -/
def Environment.inlineScope (environment : Environment) (condition : Option String)
    (scope : TypeDefinition) (path : Path) (position : Position) : Outcome TypeDefinition :=
  match condition with
  | none => .ok scope
  | some name => environment.resolveCondition name scope path position

end ResponseShape

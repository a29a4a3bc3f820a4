import ResponseShape.OrderedSet
import ResponseShape.Syntax.Document
import ResponseShape.Text.ClassName

/-!
# Names that models must not take

The caller reserves names, which no model takes. An operation's root model is called by the class
name of the operation, so the other models keep away from the class names of all operations as
well, whichever of them is built first.
-/

set_option autoImplicit false

namespace ResponseShape

/-- The names that models must not take. Reserved names are taken by nobody; the names to avoid
also contain what operations will be called, and root models are free to take those. -/
structure NamePolicy where
  reserved : List String
  avoided : List String

/-- The names that models of enums, inputs and nested positions avoid: the reserved ones, and
the class names of all named operations. -/
def NamePolicy.avoidedNames (documents : List Document) (reserved : List String) :
    List String :=
  OrderedSet.addAll (OrderedSet.ofList reserved)
    ((Document.operations documents).filterMap
      (fun operation => operation.name.map Text.className))

/-- The policy for documents, given the reserved names. -/
def NamePolicy.ofDocuments (documents : List Document) (reserved : List String) : NamePolicy :=
  ⟨reserved, avoidedNames documents reserved⟩

end ResponseShape

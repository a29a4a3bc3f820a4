import ResponseShape.Syntax.TypeRef
import ResponseShape.Syntax.Selection

/-!
# Executable documents

A document is a list of operations and fragments. The analysis looks at several documents
together, and the order of their definitions is the order of its results.
-/

set_option autoImplicit false

namespace ResponseShape

/-- The kinds of operations. -/
inductive OperationKind where
  | query
  | mutation
  | subscription
  deriving DecidableEq

namespace OperationKind

/-- The kind as it is written in a document. -/
def keyword : OperationKind → String
  | query => "query"
  | mutation => "mutation"
  | subscription => "subscription"

/-- The name of the kind, which is also the name of its root type in a schema that does not
declare its root types. -/
def rootName : OperationKind → String
  | query => "Query"
  | mutation => "Mutation"
  | subscription => "Subscription"

end OperationKind

/-- A variable of an operation. -/
structure VariableDefinition where
  name : String
  type : TypeRef
  default? : Option Value

/-- An operation. -/
structure OperationDefinition where
  kind : OperationKind
  name : Option String
  position : Position
  variableDefinitions : List VariableDefinition
  directives : List Directive
  span : Span
  items : List Selection

/-- An operation in the short form that is a bare selection set: a query without a name, which
stands where its selection set begins. -/
def OperationDefinition.shorthand (span : Span) (items : List Selection) :
    OperationDefinition :=
  { kind := .query, name := none, position := span.start, variableDefinitions := [],
    directives := [], span := span, items := items }

/-- A named fragment, which applies to values of the type it names as its condition. -/
structure FragmentDefinition where
  name : String
  condition : String
  directives : List Directive
  position : Position
  span : Span
  items : List Selection

/-- A definition of a document. -/
inductive Definition where
  | operation (operation : OperationDefinition)
  | fragment (fragment : FragmentDefinition)

namespace Definition

/-- The operation, if the definition is one. -/
def operation? : Definition → Option OperationDefinition
  | operation definition => some definition
  | fragment _ => none

/-- The fragment, if the definition is one. -/
def fragment? : Definition → Option FragmentDefinition
  | operation _ => none
  | fragment definition => some definition

end Definition

/-- The definitions of one document, in their order. -/
abbrev Document := List Definition

namespace Document

/-- The operations of all documents, in their order. -/
def operations (documents : List Document) : List OperationDefinition :=
  documents.flatMap (fun document => document.filterMap Definition.operation?)

/-- The fragments of all documents, in their order. -/
def fragments (documents : List Document) : List FragmentDefinition :=
  documents.flatMap (fun document => document.filterMap Definition.fragment?)

end Document

end ResponseShape

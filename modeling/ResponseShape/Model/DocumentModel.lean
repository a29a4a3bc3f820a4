import ResponseShape.OrderedMap
import ResponseShape.Syntax.Document
import ResponseShape.Model.TypeModel

/-!
# The model of documents

The result of an analysis: all type models by name, and for every operation the name of the
model at each position of its response.
-/

set_option autoImplicit false

namespace ResponseShape

/-- An operation: its root model, and the name of the model at each position that has one, the
root included. -/
structure OperationModel where
  name : String
  kind : OperationKind
  rootType : String
  paths : OrderedMap Path String
  deriving DecidableEq

/-- The name of the model at the path. -/
def OperationModel.typeAt? (operation : OperationModel) (path : Path) : Option String :=
  operation.paths.get? path

/-- All models of an analysis, and its operations. -/
structure DocumentModel where
  types : OrderedMap String TypeModel
  operations : List OperationModel
  deriving DecidableEq

namespace DocumentModel

/-- The model of the given name. -/
def type? (model : DocumentModel) (name : String) : Option TypeModel :=
  model.types.get? name

/-- The first operation of the given name. -/
def operation? (model : DocumentModel) (name : String) : Option OperationModel :=
  model.operations.find? (fun operation => operation.name == name)

/-- The root model of the operation of the given name. -/
def rootType? (model : DocumentModel) (operation : String) : Option TypeModel :=
  (model.operation? operation).bind (fun found => model.type? found.rootType)

/-- The model at the path, in the operation that the path starts with. -/
def typeAt? (model : DocumentModel) (path : Path) : Option TypeModel := do
  let name ← path.segments.head?
  let operation ← model.operation? name
  let typeName ← operation.typeAt? path
  model.type? typeName

end DocumentModel

end ResponseShape

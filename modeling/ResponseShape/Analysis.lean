import ResponseShape.Fragment.Cycle
import ResponseShape.Traversal.Operation
import ResponseShape.Usage.Models

/-!
# Analysing documents against a schema

An analysis turns a schema and documents into a document model. First the fragments are checked.
Then the enums and the input objects in use get their models, and last the operations, all in
the order of the documents. The first error ends the analysis.
-/

set_option autoImplicit false

namespace ResponseShape

/-- What is to be analysed. Models will not take the reserved names. -/
structure AnalysisRequest where
  schema : Option Schema
  documents : List Document
  reserved : List String

/-- The catalog with the models of all enums and input objects in use. -/
def Catalog.ofUsage (schema : Schema) (usage : TypeUsage) (avoided : List String) :
    Outcome Catalog :=
  match Catalog.empty.addEnums schema usage avoided with
  | (.error error, _) => .error error
  | (.ok _, withEnums) =>
      match withEnums.addInputs schema usage avoided with
      | (.error error, _) => .error error
      | (.ok _, withInputs) => .ok withInputs

/-- The document model of a request. -/
def AnalysisRequest.analyze (request : AnalysisRequest) : Outcome DocumentModel := do
  let schema ←
    match request.schema with
    | none => throw .missingSchema
    | some schema => pure schema
  if request.documents.isEmpty then throw .noDocuments
  let fragments ← FragmentTable.ofDocuments request.documents
  let policy := NamePolicy.ofDocuments request.documents (OrderedSet.ofList request.reserved)
  let usage := TypeUsage.ofDocuments schema request.documents
  let catalog ← Catalog.ofUsage schema usage policy.avoided
  let (built, operations) ←
    (Environment.mk schema fragments).buildOperations policy catalog
      (Document.operations request.documents)
  return ⟨built.models, operations⟩

end ResponseShape

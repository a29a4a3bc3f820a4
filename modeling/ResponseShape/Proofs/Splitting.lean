import ResponseShape.Analysis
import ResponseShape.Proofs.Chains
import ResponseShape.Proofs.Visiting

/-!
# Where one document ends and the next begins

An analysis goes through the documents four times: for the fragments, for the names that operations
will need, for the types in use and for the operations. The borders of the documents matter to none
of these walks. Three of them look at all definitions in a row. The visits of the documents start
over in every document with no types in effect, but a visit also ends with the types in effect with
which it started (`Observer.scopes_visitDocument`), so it is the same to visit two documents in turn
and to visit one that holds the definitions of both (`Observer.notesOn_append`).

Hence documents are analysed as the single document with all their definitions
(`AnalysisRequest.analyze_flatten`). Only whether there is any document counts, apart from the
definitions.
-/

set_option autoImplicit false

namespace ResponseShape

/-! ## Definitions in a row -/

namespace Document

/-- Definitions are picked from all documents as from the one that holds all. -/
theorem flatMap_filterMap_flatten {α : Type} (pick : Definition → Option α)
    (documents : List Document) :
    [documents.flatten].flatMap (fun document => document.filterMap pick) =
      documents.flatMap (fun document => document.filterMap pick) := by
  rw [List.flatMap_singleton, List.filterMap_flatten, List.flatMap_def]

theorem operations_flatten (documents : List Document) :
    operations [documents.flatten] = operations documents :=
  flatMap_filterMap_flatten Definition.operation? documents

theorem fragments_flatten (documents : List Document) :
    fragments [documents.flatten] = fragments documents :=
  flatMap_filterMap_flatten Definition.fragment? documents

end Document

theorem FragmentTable.ofDocuments_flatten (documents : List Document) :
    ofDocuments [documents.flatten] = ofDocuments documents := by
  rw [ofDocuments, ofDocuments, Document.fragments_flatten]

theorem NamePolicy.ofDocuments_flatten (documents : List Document) (reserved : List String) :
    ofDocuments [documents.flatten] reserved = ofDocuments documents reserved := by
  rw [ofDocuments, ofDocuments, avoidedNames, avoidedNames, Document.operations_flatten]

/-! ## Visits of several documents -/

namespace Observer

variable {σ : Type} {schema : Schema}

/-- Every observer keeps what holds of all notes. -/
theorem keeps_true (observer : Observer σ) (schema : Schema) :
    observer.Keeps schema (fun _ => True) (fun _ => True) where
  closed := TypeScopes.closedInside_true schema
  onVariable _ _ _ _ _ := trivial
  onArgument _ _ _ _ _ := trivial
  onField _ _ _ _ _ := trivial
  onObjectField _ _ _ _ _ _ := trivial

/-- A visit of a document ends with the types in effect with which it started. -/
theorem scopes_visitDocument (observer : Observer σ) (schema : Schema) (document : Document)
    (visit : Visit σ) : (observer.visitDocument schema document visit).scopes = visit.scopes :=
  (keeps_visitDocument (observer.keeps_true schema) document visit).scopes

theorem notesOn_nil (observer : Observer σ) (schema : Schema) (noted : σ) :
    observer.notesOn schema noted [] = noted :=
  rfl

/-- **Two documents in turn are visited like one document with the definitions of both.** -/
theorem notesOn_append (observer : Observer σ) (schema : Schema) (noted : σ)
    (first second : Document) :
    observer.notesOn schema noted (first ++ second) =
      observer.notesOn schema (observer.notesOn schema noted first) second := by
  have between : observer.visitDocument schema first ⟨TypeScopes.empty, noted⟩ =
      ⟨TypeScopes.empty, observer.notesOn schema noted first⟩ :=
    congrArg (fun scopes => Visit.mk scopes (observer.notesOn schema noted first))
      (observer.scopes_visitDocument schema first ⟨TypeScopes.empty, noted⟩)
  have inTurn : observer.visitDocument schema (first ++ second) ⟨TypeScopes.empty, noted⟩ =
      observer.visitDocument schema second
        (observer.visitDocument schema first ⟨TypeScopes.empty, noted⟩) :=
    List.foldl_append
  rw [notesOn, inTurn, between, ← notesOn]

theorem notesOn_flatten (observer : Observer σ) (schema : Schema) (noted : σ)
    (documents : List Document) :
    observer.notesOn schema noted documents.flatten =
      documents.foldl (observer.notesOn schema) noted := by
  induction documents generalizing noted with
  | nil => exact observer.notesOn_nil schema noted
  | cons document rest ih => rw [List.flatten_cons, notesOn_append, ih, List.foldl_cons]

end Observer

theorem TypeUsage.ofDocuments_flatten (schema : Schema) (documents : List Document) :
    ofDocuments schema [documents.flatten] = ofDocuments schema documents := by
  rw [ofDocuments, ofDocuments, List.foldl_cons, List.foldl_nil, Observer.notesOn_flatten]

/-! ## Analyses of several documents -/

namespace AnalysisRequest

/-- Every walk of the analysis gives the same on one document with all definitions. -/
theorem analyze_flatten_of_ne_nil {documents : List Document} (some : documents ≠ [])
    (schema : Option Schema) (reserved : List String) :
    analyze ⟨schema, documents, reserved⟩ = analyze ⟨schema, [documents.flatten], reserved⟩ := by
  have sameEmptiness : documents.isEmpty = [documents.flatten].isEmpty := by
    rw [List.isEmpty_eq_false_iff.mpr some]
    rfl
  simp only [analyze, sameEmptiness, FragmentTable.ofDocuments_flatten,
    NamePolicy.ofDocuments_flatten, TypeUsage.ofDocuments_flatten, Document.operations_flatten]

/-- **How definitions are spread over documents does not matter.** Documents give the same result,
be it a document model or an error, as the single document with all their definitions, and as any
other documents with the same definitions in the same order. -/
theorem analyze_flatten {documents : List Document} (some : documents ≠ [])
    (schema : Option Schema) (reserved : List String) :
    analyze ⟨schema, documents, reserved⟩ = analyze ⟨schema, [documents.flatten], reserved⟩ ∧
      ∀ others : List Document, others ≠ [] → others.flatten = documents.flatten →
        analyze ⟨schema, documents, reserved⟩ = analyze ⟨schema, others, reserved⟩ := by
  have whole := analyze_flatten_of_ne_nil some schema reserved
  refine ⟨whole, fun others otherSome same => ?_⟩
  rw [whole, analyze_flatten_of_ne_nil otherSome, same]

end AnalysisRequest

namespace Sample

/-- The documents about pets, the fragment in a document of its own between empty ones. -/
def petDocumentsApart : List Document :=
  [[.operation petQuery], [], [.fragment catFragment], []]

theorem analyze_petDocumentsApart :
    petDocumentsApart.flatten = petDocuments.flatten ∧
      (AnalysisRequest.analyze ⟨some petSchema, petDocumentsApart, ["Pet"]⟩).map
          (fun document => document.types.keys) =
        .ok ["Mood", "Q", "Pet1", "Dog", "Cat", "Person"] ∧
      AnalysisRequest.analyze ⟨some petSchema, petDocumentsApart, ["Pet"]⟩ =
        AnalysisRequest.analyze ⟨some petSchema, petDocuments, ["Pet"]⟩ := by
  have same : petDocumentsApart.flatten = petDocuments.flatten := rfl
  have nonempty : petDocumentsApart ≠ [] := List.cons_ne_nil _ _
  obtain ⟨_, alike⟩ := AnalysisRequest.analyze_flatten nonempty (some petSchema) ["Pet"]
  exact ⟨same, AnalysisRequest.map_analyze_of_within 4 (by decide +kernel),
    alike petDocuments (List.cons_ne_nil _ _) same.symm⟩

end Sample

end ResponseShape

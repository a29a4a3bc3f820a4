import ResponseShape.Proofs.Acyclicity
import ResponseShape.Proofs.Building
import ResponseShape.Proofs.Visiting
import ResponseShape.Usage.TypeUsage

/-!
# Reading selections at the types around them

Documents can be read without choosing a runtime type: a selection stands in the scope of the
operation, fragment or field around it (`Environment.Reads`). This is how a visit goes through
documents, so every selection that is read is visited in its scope
(`Environment.Reads.reaches`), and the enum that a field of the scope gives is recorded
(`Environment.Reads.mem_enums`).

A read field need not be declared in its scope. In documents of which all are
(`Environment.DeclaresSelections`), no selection is lost to the visit.
-/

set_option autoImplicit false

namespace ResponseShape

/-! ## What is recorded stays recorded -/

namespace TypeUsage

variable {usage : TypeUsage} {name : String} {schema : Schema}

theorem mem_enums_record (type : TypeDefinition) (member : name ∈ usage.enums) :
    name ∈ (usage.record type).enums := by
  rw [record]
  cases type.kind with
  | enum => exact OrderedSet.mem_add.mpr (.inl member)
  | scalar | object | interface | union | inputObject => exact member

theorem mem_enums_recordAny (type : Option TypeDefinition) (member : name ∈ usage.enums) :
    name ∈ (usage.recordAny type).enums := by
  cases type with
  | none => exact member
  | some type => exact mem_enums_record type member

theorem mem_enums_recordEnum_self {type : TypeDefinition} (kind : type.kind = .enum) :
    type.name ∈ (usage.recordEnum (some type)).enums := by
  simp only [recordEnum, Option.filter_some, kind, beq_self_eq_true, if_true, recordAny,
    Option.elim, record]
  exact OrderedSet.mem_add.mpr (.inr rfl)

theorem keeps_observer (schema : Schema) (name : String) :
    observer.Keeps schema (fun _ => True) (fun usage => name ∈ usage.enums) where
  closed := TypeScopes.closedInside_true schema
  onVariable _ scopes _ _ member := mem_enums_recordAny scopes.input? member
  onArgument _ scopes _ _ member := mem_enums_recordAny scopes.input? member
  onField _ _ _ _ member := mem_enums_recordAny _ member
  onObjectField _ _ scopes _ _ member := mem_enums_recordAny scopes.input? member

theorem mem_enums_recordFields (inputName : String) (member : name ∈ usage.enums) :
    name ∈ (usage.recordFields schema inputName).enums :=
  related_foldl (R := fun before after => name ∈ before.enums → name ∈ after.enums)
    (fun _ => id) (fun first second => second ∘ first)
    (fun _ (field : InputValueDefinition) =>
      mem_enums_recordAny (schema.type? field.type.namedType)) _ usage member

theorem mem_enums_followFrom (place : Nat) (member : name ∈ usage.enums) :
    name ∈ (usage.followFrom schema place).enums := by
  induction usage, place using followFrom.induct schema with
  | case1 usage place last =>
      rw [followFrom]
      split
      · exact member
      · simp_all
  | case2 usage place inputName here ih =>
      rw [followFrom]
      split
      · exact member
      · rename_i other found
        obtain rfl : other = inputName := Option.some.inj (found.symm.trans here)
        exact ih (mem_enums_recordFields other member)

end TypeUsage

/-! ## Reading -/

theorem Document.exists_of_mem_operations {documents : List Document}
    {operation : OperationDefinition} (member : operation ∈ operations documents) :
    ∃ document ∈ documents, .operation operation ∈ document := by
  obtain ⟨document, isDocument, here⟩ := List.mem_flatMap.mp member
  obtain ⟨definition, isDefinition, same⟩ := List.mem_filterMap.mp here
  cases definition with
  | operation other =>
      obtain rfl := Option.some.inj same
      exact ⟨document, isDocument, isDefinition⟩
  | fragment _ => cases same

theorem Document.exists_of_mem_fragments {documents : List Document}
    {fragment : FragmentDefinition} (member : fragment ∈ fragments documents) :
    ∃ document ∈ documents, .fragment fragment ∈ document := by
  obtain ⟨document, isDocument, here⟩ := List.mem_flatMap.mp member
  obtain ⟨definition, isDefinition, same⟩ := List.mem_filterMap.mp here
  cases definition with
  | operation _ => cases same
  | fragment other =>
      obtain rfl := Option.some.inj same
      exact ⟨document, isDocument, isDefinition⟩

namespace Environment

variable {environment : Environment} {documents : List Document} {scope type : TypeDefinition}
  {selection : Selection}

/-- The selection is read in the scope. Reading starts at the root types of the operations and
goes into everything that is not excluded: into the selections of a field at the declared type of
the field, and into fragments at the type of their condition. -/
inductive Reads (environment : Environment) (documents : List Document) :
    TypeDefinition → Selection → Prop where
  | operation {operation : OperationDefinition} {root : TypeDefinition} {selection : Selection} :
      operation ∈ Document.operations documents →
        environment.schema.root? operation.kind = some root → selection ∈ operation.items →
        Reads environment documents root selection
  | field {scope type : TypeDefinition} {head : FieldHead} {span : Span} {items : List Selection}
      {declaration : FieldDefinition} {selection : Selection} :
      Reads environment documents scope (.field head span items) →
        isExcluded head.directives = false → scope.field? head.name = some declaration →
        environment.schema.type? declaration.type.namedType = some type → selection ∈ items →
        Reads environment documents type selection
  | inline {scope type : TypeDefinition} {condition : Option String} {directives : List Directive}
      {position : Position} {span : Span} {items : List Selection} {selection : Selection} :
      Reads environment documents scope (.inline condition directives position span items) →
        isExcluded directives = false → environment.AdmitsInline condition scope type →
        selection ∈ items → Reads environment documents type selection
  | spread {scope type : TypeDefinition} {name : String} {directives : List Directive}
      {position : Position} {fragment : FragmentDefinition} {selection : Selection} :
      Reads environment documents scope (.spread name directives position) →
        isExcluded directives = false → environment.fragments.find? name = some fragment →
        environment.Admits fragment.condition scope type → selection ∈ fragment.items →
        Reads environment documents type selection

/-- Every field that is read and not excluded is declared in its scope. -/
def DeclaresSelections (environment : Environment) (documents : List Document) : Prop :=
  ∀ scope head span items, environment.Reads documents scope (.field head span items) →
    isExcluded head.directives = false → ∃ declaration, scope.field? head.name = some declaration

namespace Reads

/-- Scopes are found by their names. -/
theorem known (reads : environment.Reads documents scope selection) :
    environment.schema.type? scope.name = some scope := by
  induction reads with
  | operation _ found _ => exact (Schema.root?_eq_some found).1
  | field _ _ _ found _ => exact Schema.name_of_type? found ▸ found
  | @inline _ _ condition _ _ _ _ _ _ _ admitted _ ih =>
      cases condition with
      | none =>
          obtain rfl := admitted
          exact ih
      | some name => exact Schema.name_of_type? admitted.1 ▸ admitted.1
  | spread _ _ _ admitted _ _ => exact Schema.name_of_type? admitted.1 ▸ admitted.1

/-- **Every selection that is read is visited in its scope.** -/
theorem reaches {σ : Type} {observer : Observer σ} {holds : σ → Prop}
    (keeps : observer.Keeps environment.schema (fun _ => True) holds) (empty : σ)
    (fragments : environment.fragments = ⟨Document.fragments documents⟩)
    (reads : environment.Reads documents scope selection) :
    observer.Reaches environment.schema holds
      (documents.foldl (observer.notesOn environment.schema) empty) scope selection := by
  induction reads with
  | operation isOperation found member =>
      obtain ⟨document, isDocument, isDefinition⟩ := Document.exists_of_mem_operations isOperation
      obtain ⟨visit, passes⟩ :=
        Observer.exists_visitDefinition keeps empty isDocument isDefinition
      exact Observer.reaches_of_visitOperation keeps (Option.filter_eq_some_iff.mp found).1 passes
        member
  | field _ _ declared found member ih => exact ih.field keeps declared found member
  | @inline scope _ condition _ _ _ _ _ reads _ admitted member ih =>
      refine ih.inline keeps ?_ member
      cases condition with
      | none =>
          obtain rfl := admitted
          exact reads.known
      | some name => exact admitted.1
  | spread _ _ found admitted member ih =>
      have isFragment := (FragmentTable.mem_of_find? found).1
      rw [fragments] at isFragment
      obtain ⟨document, isDocument, isDefinition⟩ := Document.exists_of_mem_fragments isFragment
      obtain ⟨visit, passes⟩ :=
        Observer.exists_visitDefinition keeps empty isDocument isDefinition
      exact Observer.reaches_of_visitFragment keeps admitted.1 passes member

/-- **The enum that a read field of the scope gives is in use.** -/
theorem mem_enums {head : FieldHead} {span : Span} {items : List Selection}
    (fragments : environment.fragments = ⟨Document.fragments documents⟩)
    (reads : environment.Reads documents scope (.field head span items))
    {declaration : FieldDefinition} (declared : scope.field? head.name = some declaration)
    (found : environment.schema.type? declaration.type.namedType = some type)
    (kind : type.kind = .enum) :
    type.name ∈ (TypeUsage.ofDocuments environment.schema documents).enums := by
  have keeps := TypeUsage.keeps_observer environment.schema type.name
  obtain ⟨scopes, noted, isType, passes⟩ :=
    (reads.reaches keeps TypeUsage.empty fragments).exists_onField keeps declared
  refine TypeUsage.mem_enums_followFrom 0 (passes ?_)
  change type.name ∈ (noted.recordEnum scopes.type?).enums
  rw [isType, found]
  exact TypeUsage.mem_enums_recordEnum_self kind

end Reads

end Environment

end ResponseShape

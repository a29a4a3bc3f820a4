import ResponseShape.Proofs.Chains
import ResponseShape.Proofs.UsedTypes

/-!
# References in a document model

Models refer to each other by names: a field to the model of its value, an interface or a union to
its implementations, and an operation to the models at its paths. In the result of an analysis no
such name dangles, and the names agree with each other (`DocumentModel.Consistent`,
`AnalysisRequest.consistent_of_analyze`).

Every field of a model is read back from a declaration of the schema (`Schema.Declares`): that of
the field that was planned for it (`Environment.Builds.exists_planned`). If the value of a planned
field is composite, then the position below it is in the history and has the model that the field
refers to (`Environment.Builds.exists_below`).
-/

set_option autoImplicit false

namespace ResponseShape

/-! ## Declarations -/

/-- The field was built from the declaration, which a type of the given name has. -/
def Schema.Declares (schema : Schema) (typeName : String) (field : OutputFieldModel)
    (declaration : FieldDefinition) : Prop :=
  ∃ type ∈ schema.types, type.name = typeName ∧ type.field? field.fieldName = some declaration ∧
    field.fieldType = declaration.type.render

theorem TypeDefinition.name_of_field? {type : TypeDefinition} {name : String}
    {declaration : FieldDefinition} (declared : type.field? name = some declaration) :
    declaration.name = name := by
  rw [field?] at declared
  split at declared
  · rename_i isTypename
    obtain rfl := Option.some.inj declared
    exact (beq_iff_eq.mp (Bool.and_eq_true_iff.mp isTypename).1).symm
  · exact beq_iff_eq.mp (List.find?_some declared :)

theorem Schema.mem_types_of_type? {schema : Schema} {name : String} {type : TypeDefinition}
    (found : schema.type? name = some type) : type ∈ schema.types :=
  List.mem_of_find?_eq_some found

theorem Schema.mem_types_of_mem_possibleTypes {schema : Schema} {type runtime : TypeDefinition}
    (possible : runtime ∈ schema.possibleTypes type) : runtime ∈ schema.types := by
  rw [possibleTypes] at possible
  split at possible
  · exact mem_types_of_type? (Option.mem_toList.mp possible)
  · exact (List.mem_filter.mp possible).1
  · obtain ⟨member, _, found⟩ := List.mem_filterMap.mp possible
    exact mem_types_of_type? (Option.filter_eq_some_iff.mp found).1
  all_goals cases possible

namespace Environment

variable {environment : Environment} {type : TypeDefinition} {task : Task} {plan : Plan}

/-- A selected field has the definition that the type declares under its name. -/
theorem field?_of_collectFor {runtime scope : TypeDefinition} {items : List Selection}
    {path : Path} {fields : List SelectedField}
    (collected : environment.collectFor runtime scope items path = .ok fields) :
    ∀ field ∈ fields, runtime.field? field.definition.name = some field.definition := by
  intro field member
  obtain ⟨nodes, after, _, _, selected⟩ := collectFor_eq_ok_iff.mp collected
  obtain ⟨node, _, here⟩ := exists_left_of_mem selected member
  obtain ⟨declared, _, _⟩ := selectField_eq_ok_iff.mp here
  rw [TypeDefinition.name_of_field? declared, declared]

/-- What stands for a planned field is declared by a type of its variant's name. -/
theorem PlanParts.exists_type_of_variant (parts : environment.PlanParts task type plan)
    {variant : Variant PlannedField} (isVariant : variant ∈ plan.variants) {field : PlannedField}
    (isField : field ∈ variant.fields) :
    ∃ runtime ∈ environment.schema.types, runtime.name = variant.typeName ∧
      runtime.field? field.occurrences.first.definition.name =
        some field.occurrences.first.definition := by
  obtain ⟨_, _, _, runtime, possible, named, fields, collected, here⟩ :=
    parts.exists_collected isVariant isField field.occurrences.first List.mem_cons_self
  exact ⟨runtime, Schema.mem_types_of_mem_possibleTypes possible, named,
    field?_of_collectFor collected _ here⟩

/-- What stands for a field on an interface or a union is declared by that type. -/
theorem PlanParts.field?_of_shared (parts : environment.PlanParts task type plan)
    {field : PlannedField} (isField : field ∈ plan.shared) :
    type.field? field.occurrences.first.definition.name =
      some field.occurrences.first.definition := by
  obtain ⟨_, _, _, fields, collected, here⟩ :=
    parts.exists_collected_shared isField field.occurrences.first List.mem_cons_self
  exact field?_of_collectFor collected _ here

/-- The model of a position has the type of its task. -/
theorem Plans.schemaType {catalog : Catalog} {own : TypeModel} {objects : List ObjectModel}
    (plans : environment.Plans task plan) (named : catalog.NamesPlan plan own objects) :
    own.schemaType = task.namedType := by
  cases named with
  | object parts =>
      cases plans with
      | object known _ _ _ => exact parts.schemaType.trans (Schema.name_of_type? known)
  | interface parts =>
      cases plans with
      | interface known _ _ _ => exact parts.schemaType.trans (Schema.name_of_type? known)
  | union parts =>
      cases plans with
      | union known _ _ _ => exact parts.schemaType.trans (Schema.name_of_type? known)

end Environment

/-! ## Fields of the models of a position -/

/-- A field of a model of the position was planned for a variant, or for the position's own type
when that is an interface or a union. -/
theorem Catalog.NamesPlan.exists_planned {catalog : Catalog} {plan : Plan} {own : TypeModel}
    {objects : List ObjectModel} (named : catalog.NamesPlan plan own objects)
    {entry : String × TypeModel} (member : entry ∈ own.entries objects) {field : OutputFieldModel}
    (isField : field ∈ entry.2.fields) :
    (∃ variant ∈ plan.variants, ∃ planned ∈ variant.fields,
      entry.2.schemaType = variant.typeName ∧ catalog.NamesField planned field) ∨
    (entry.2 = own ∧ (∀ object, entry.2 ≠ .object object) ∧ ∃ planned ∈ plan.shared,
      catalog.NamesField planned field) := by
  obtain ⟨model, isModel, rfl⟩ := List.mem_map.mp member
  cases named with
  | object parts =>
      obtain rfl := List.mem_singleton.mp isModel
      obtain ⟨planned, isPlanned, here⟩ := exists_left_of_mem parts.fields isField
      exact .inl ⟨_, List.mem_singleton_self _, planned, isPlanned, parts.schemaType, here⟩
  | interface parts | union parts =>
      rcases List.mem_cons.mp isModel with rfl | isObject
      · obtain ⟨planned, isPlanned, here⟩ := exists_left_of_mem parts.fields isField
        exact .inr ⟨rfl, by simp, planned, isPlanned, here⟩
      · obtain ⟨object, inObjects, rfl⟩ := List.mem_map.mp isObject
        obtain ⟨variant, isVariant, variantNamed⟩ := exists_left_of_mem parts.variants inObjects
        obtain ⟨planned, isPlanned, here⟩ := exists_left_of_mem variantNamed.fields isField
        exact .inl ⟨variant, isVariant, planned, isPlanned, variantNamed.schemaType, here⟩

namespace Environment.Builds

variable {environment : Environment} {catalog after later : Catalog}
  {operation : OperationDefinition} {model : OperationModel} {history : List Built}
  {built : Built}

/-- **A field of a model was planned, and what was planned is declared in the schema.** -/
theorem exists_planned (builds : environment.Builds catalog operation after model history)
    (grows : after.Grows later) (isBuilt : built ∈ history) {entry : String × TypeModel}
    (member : entry ∈ built.entries) {field : OutputFieldModel} (isField : field ∈ entry.2.fields) :
    ∃ planned ∈ built.plan.fields, later.NamesField planned field ∧
      environment.schema.Declares entry.2.schemaType field
        planned.occurrences.first.definition ∧
      ((∃ object, entry.2 = .object object) →
        ∃ variant ∈ built.plan.variants, planned ∈ variant.fields) := by
  obtain ⟨type, _, parts⟩ := builds.exists_parts isBuilt
  have named := builds.names built isBuilt
  rcases (named.mono grows).exists_planned member isField with
    ⟨variant, isVariant, planned, isPlanned, schemaType, here⟩ |
    ⟨isOwn, notObject, planned, isPlanned, here⟩
  · obtain ⟨runtime, isType, typeName, declared⟩ := parts.exists_type_of_variant isVariant isPlanned
    refine ⟨planned, Plan.mem_fields.mpr (.inl ⟨variant, isVariant, isPlanned⟩), here, ?_,
      fun _ => ⟨variant, isVariant, isPlanned⟩⟩
    exact ⟨runtime, isType, typeName.trans schemaType.symm, here.fieldName.symm ▸ declared,
      here.fieldType⟩
  · refine ⟨planned, Plan.mem_fields.mpr (.inr isPlanned), here, ?_,
      fun ⟨object, isObject⟩ => absurd isObject (notObject object)⟩
    have schemaType := (builds.plans built isBuilt).schemaType named
    exact ⟨type, Schema.mem_types_of_type? parts.known,
      (Schema.name_of_type? parts.known).trans (isOwn ▸ schemaType).symm,
      here.fieldName.symm ▸ parts.field?_of_shared isPlanned, here.fieldType⟩

/-- **The position below a field whose value is composite has the model that the field refers to.**
A variant's field gives it its type. -/
theorem exists_below (builds : environment.Builds catalog operation after model history)
    (grows : after.Grows later) (isBuilt : built ∈ history) {planned : PlannedField}
    (isPlanned : planned ∈ built.plan.fields) (composite : planned.value = .composite)
    {field : OutputFieldModel} (named : later.NamesField planned field) :
    ∃ below ∈ history, below.task.path = field.path ∧ field.typeModel = some below.own.name ∧
      ((∃ variant ∈ built.plan.variants, planned ∈ variant.fields) →
        below.own.schemaType = planned.occurrences.namedType) := by
  obtain ⟨type, _, parts⟩ := builds.exists_parts isBuilt
  have left : ∃ child ∈ built.plan.tasks, child.path = planned.occurrences.path ∧
      ((∃ variant ∈ built.plan.variants, planned ∈ variant.fields) →
        child.namedType = planned.occurrences.namedType) := by
    by_cases ofVariant : ∃ variant ∈ built.plan.variants, planned ∈ variant.fields
    · obtain ⟨variant, isVariant, inVariant⟩ := ofVariant
      obtain ⟨child, isChild, path, namedType, _⟩ :=
        parts.exists_task_of_variant isVariant inVariant composite
      exact ⟨child, isChild, path, fun _ => namedType⟩
    · obtain ⟨child, isChild, path⟩ := parts.exists_task isPlanned composite
      exact ⟨child, isChild, path, fun here => absurd here ofVariant⟩
  obtain ⟨child, isChild, path, namedType⟩ := left
  obtain ⟨below, isBelow, rfl⟩ := builds.exists_of_mem_tasks built isBuilt child isChild
  have owned := grows.names _ _ (builds.nameOf?_of_task isBuilt isBelow isChild)
  obtain ⟨name, refers, nameOf⟩ := named.composite composite
  rw [← path, owned] at nameOf
  obtain rfl := Option.some.inj nameOf
  have schemaType := (builds.plans below isBelow).schemaType (builds.names below isBelow)
  exact ⟨below, isBelow, path.trans named.path.symm, refers,
    fun ofVariant => schemaType.trans (namedType ofVariant)⟩

end Environment.Builds

/-! ## Consistent document models -/

namespace DocumentModel

/-- What a field whose value has the named type refers to. The model of a composite value is the
one that the paths of the field's own operation give for the field's path. A model of an enum is
of that enum. -/
structure Refers (document : DocumentModel) (schema : Schema) (field : OutputFieldModel)
    (namedType : String) : Prop where
  composite : ∀ type, schema.type? namedType = some type → type.isComposite = true →
    ∃ name operation, field.typeModel = some name ∧
      field.path.segments.head?.bind document.operation? = some operation ∧
      operation.paths.get? field.path = some name
  enum : ∀ type name, schema.type? namedType = some type → type.kind = .enum →
    field.typeModel = some name →
      ∃ model, document.type? name = some (.enum model) ∧ model.schemaType = namedType

/-- The field is read back from a declaration and refers to what the declaration says. In an object
model, the model of a composite value is of the declared type. -/
def ConsistentField (document : DocumentModel) (schema : Schema) (model : TypeModel)
    (field : OutputFieldModel) : Prop :=
  ∃ declaration, schema.Declares model.schemaType field declaration ∧
    document.Refers schema field declaration.type.namedType ∧
    ((∃ object, model = .object object) →
      ∀ type, schema.type? declaration.type.namedType = some type → type.isComposite = true →
        ∃ name below, field.typeModel = some name ∧ document.type? name = some below ∧
          below.schemaType = declaration.type.namedType)

/-- No name in the document model dangles, and the names agree with each other. -/
structure Consistent (document : DocumentModel) (schema : Schema) : Prop where
  fields : ∀ entry ∈ document.types.entries, ∀ field ∈ entry.2.fields,
    document.ConsistentField schema entry.2 field
  implementations : ∀ entry ∈ document.types.entries, ∀ name ∈ entry.2.implementations,
    ∃ object, document.type? name = some (.object object)
  positions : ∀ operation ∈ document.operations, ∀ entry ∈ operation.paths.entries,
    ∃ model, document.type? entry.2 = some model ∧ model.name = entry.2 ∧
      document.typeAt? entry.1 = some model
  roots : ∀ operation ∈ document.operations,
    (Path.root operation.name, operation.rootType) ∈ operation.paths.entries
  elsewhere : ∀ path, (∀ operation ∈ document.operations, path ∉ operation.paths.keys) →
    document.typeAt? path = none

theorem typeAt?_eq_some_iff {document : DocumentModel} {path : Path} {model : TypeModel} :
    document.typeAt? path = some model ↔ ∃ name, path.segments.head? = some name ∧
      ∃ operation, document.operation? name = some operation ∧
        ∃ typeName, operation.paths.get? path = some typeName ∧
          document.type? typeName = some model := by
  simp only [typeAt?, OperationModel.typeAt?, Option.bind_eq_bind, Option.bind_eq_some_iff]

/-- A path that has a model is a path of an operation. -/
theorem typeAt?_eq_none {document : DocumentModel} {path : Path}
    (absent : ∀ operation ∈ document.operations, path ∉ operation.paths.keys) :
    document.typeAt? path = none := by
  cases found : document.typeAt? path with
  | none => rfl
  | some model =>
      obtain ⟨_, _, operation, isFirst, typeName, known, _⟩ := typeAt?_eq_some_iff.mp found
      refine absurd ?_ (absent operation (List.mem_of_find?_eq_some isFirst))
      exact List.mem_map_of_mem (OrderedMap.mem_entries_of_get? known)

end DocumentModel

namespace Environment.BuildsAll

variable {environment : Environment} {catalog later : Catalog}
  {operations : List OperationDefinition} {models : List OperationModel}
  {histories : List (List Built)}

/-- **A model of the final catalog was there before, or belongs to a position.** -/
theorem origin_of_entry
    (builds : environment.BuildsAll catalog operations later models histories)
    {entry : String × TypeModel} (member : entry ∈ later.models.entries) :
    entry ∈ catalog.models.entries ∨ ∃ operation ∈ operations, ∃ model ∈ models,
      ∃ before after history, environment.Builds before operation after model history ∧
        after.Grows later ∧ ∃ built ∈ history, entry ∈ built.entries := by
  rw [builds.models, List.mem_append] at member
  rcases member with before | added
  · exact .inl before
  · obtain ⟨built, isBuilt, isEntry⟩ := List.mem_flatMap.mp added
    obtain ⟨history, isHistory, inHistory⟩ := List.mem_flatten.mp isBuilt
    obtain ⟨operation, isOperation, model, isModel, before, after, here, grows⟩ :=
      builds.exists_of_history history isHistory
    exact .inr ⟨operation, isOperation, model, isModel, before, after, history, here, grows, built,
      inHistory, isEntry⟩

/-- An operation that was built is found by its name. -/
theorem operation?_of_mem
    (builds : environment.BuildsAll catalog operations later models histories)
    (start : catalog.models.keys.Nodup) {model : OperationModel} (member : model ∈ models) :
    DocumentModel.operation? ⟨later.models, models⟩ model.name = some model :=
  OrderedSet.find?_key_eq (builds.nodup_names start).1 member

end Environment.BuildsAll

namespace Catalog.HoldsTypes

variable {schema : Schema} {catalog later : Catalog}

/-- **The name that was given to an enum is the name of its model.** -/
theorem exists_enum (holds : HoldsTypes schema catalog) (grows : catalog.Grows later)
    {type : TypeDefinition} {typeName name : String} (known : schema.type? typeName = some type)
    (kind : type.kind = .enum) (named : later.nameOf? (.schemaType typeName) = some name) :
    ∃ model, later.models.get? name = some (.enum model) ∧ model.schemaType = typeName := by
  rw [grows.types] at named
  obtain ⟨other, model, found, same, rfl, models⟩ := holds.named _ name named
  obtain rfl := NameOwner.schemaType.inj same
  obtain rfl := Option.some.inj (found.symm.trans known)
  obtain ⟨enum, rfl, schemaType⟩ := models.describes.exists_enum kind
  exact ⟨enum, grows.model models.found, schemaType⟩

end Catalog.HoldsTypes

namespace Environment.BuildsAll

variable {schema : Schema} {fragments : FragmentTable} {catalog later : Catalog}
  {operations : List OperationDefinition} {models : List OperationModel}
  {histories : List (List Built)}

/-- **Every field of a model refers to what it is declared to be.** -/
theorem consistentField
    (builds : (Environment.mk schema fragments).BuildsAll catalog operations later models histories)
    (holds : Catalog.HoldsTypes schema catalog) :
    ∀ entry ∈ later.models.entries, ∀ field ∈ entry.2.fields,
      DocumentModel.ConsistentField ⟨later.models, models⟩ schema entry.2 field := by
  intro entry member field isField
  rcases builds.origin_of_entry member with
    before | ⟨_, _, model, isModel, _, _, history, here, grows, built, isBuilt, isEntry⟩
  · obtain ⟨type, describes⟩ := holds.models entry before
    rw [describes.fields_eq_nil] at isField
    cases isField
  obtain ⟨planned, isPlanned, named, declared, ofVariant⟩ :=
    here.exists_planned grows isBuilt isEntry isField
  obtain ⟨_, _, parts⟩ := here.exists_parts isBuilt
  have value := parts.value_of_field isPlanned
  have below : ∀ type, schema.type? planned.occurrences.namedType = some type →
      type.isComposite = true → _ := fun type known composite =>
    here.exists_below grows isBuilt isPlanned (Option.some.inj (value.symm.trans
      (valueOf?_eq_composite_iff.mpr ⟨type, known, composite⟩))) named
  refine ⟨_, declared, ⟨fun type known composite => ?_, fun type name known kind refers => ?_⟩,
    fun isObject type known composite => ?_⟩
  · obtain ⟨position, isPosition, path, refers, _⟩ := below type known composite
    obtain ⟨names, segments⟩ := here.segments_of_mem position isPosition
    refine ⟨_, model, refers, ?_, ?_⟩
    · rw [← path, segments]
      exact builds.operation?_of_mem holds.distinct isModel
    · rw [← path]
      exact here.paths_of_mem position isPosition
  · have isEnum : planned.value = .enum := Option.some.inj (value.symm.trans
      (valueOf?_eq_enum_iff.mpr ⟨type, known, kind⟩))
    rw [named.enum isEnum] at refers
    exact holds.exists_enum builds.grows known kind refers
  · obtain ⟨position, isPosition, _, refers, schemaType⟩ := below type known composite
    exact ⟨_, _, refers, grows.model (here.registered position isPosition _ List.mem_cons_self),
      schemaType (ofVariant isObject)⟩

/-- Every implementation of a model is an object model. -/
theorem exists_object_of_implementation
    (builds : (Environment.mk schema fragments).BuildsAll catalog operations later models histories)
    (holds : Catalog.HoldsTypes schema catalog) :
    ∀ entry ∈ later.models.entries, ∀ name ∈ entry.2.implementations,
      ∃ object, later.models.get? name = some (.object object) := by
  intro entry member name isName
  rcases builds.origin_of_entry member with
    before | ⟨_, _, _, _, _, _, history, here, grows, built, isBuilt, isEntry⟩
  · obtain ⟨type, describes⟩ := holds.models entry before
    rw [describes.implementations_eq_nil] at isName
    cases isName
  have registers : later.Registers built.own built.objects := fun entry isEntry =>
    grows.model (here.registered built isBuilt entry isEntry)
  have named := here.names built isBuilt
  obtain ⟨task, plan, own, objects⟩ := built
  obtain ⟨model, isModel, rfl⟩ := List.mem_map.mp isEntry
  rcases List.mem_cons.mp isModel with rfl | isObject
  · cases named with
    | object => cases isName
    | interface parts | union parts =>
        rw [TypeModel.implementations, parts.implementations] at isName
        obtain ⟨object, isObject, rfl⟩ := List.mem_map.mp isName
        exact ⟨object, registers.get?_object isObject⟩
  · obtain ⟨object, _, rfl⟩ := List.mem_map.mp isObject
    cases isName

/-- **Every path of an operation leads to the model that it names.** -/
theorem exists_model_of_path
    (builds : (Environment.mk schema fragments).BuildsAll catalog operations later models histories)
    (distinct : catalog.models.keys.Nodup) :
    ∀ model ∈ models, ∀ entry ∈ model.paths.entries,
      ∃ own, later.models.get? entry.2 = some own ∧ own.name = entry.2 ∧
        DocumentModel.typeAt? ⟨later.models, models⟩ entry.1 = some own := by
  intro model member entry isEntry
  obtain ⟨_, _, _, history, _, here, grows⟩ := builds.exists_of_mem.2 model member
  have found := OrderedMap.get?_of_mem_entries here.nodup_paths isEntry
  obtain ⟨built, isBuilt, path, name⟩ := here.origin_of_path found
  obtain ⟨names, segments⟩ := here.segments_of_mem built isBuilt
  have registered : later.models.get? entry.2 = some built.own :=
    name ▸ grows.model
      (here.registered built isBuilt (built.own.name, built.own) List.mem_cons_self)
  refine ⟨built.own, registered, name, ?_⟩
  refine DocumentModel.typeAt?_eq_some_iff.mpr ⟨model.name, ?_, model, ?_, _, found, registered⟩
  · rw [← path, segments]
    rfl
  · exact builds.operation?_of_mem distinct member

end Environment.BuildsAll

namespace AnalysisRequest

variable {request : AnalysisRequest} {schema : Schema} {document : DocumentModel}

/-- What an analysis that succeeds has computed. -/
theorem exists_of_analyze (analyzed : request.analyze = .ok document) :
    ∃ schema fragments catalog later,
      request.schema = some schema ∧
      FragmentTable.ofDocuments request.documents = .ok fragments ∧
      Catalog.ofUsage schema (TypeUsage.ofDocuments schema request.documents)
        (NamePolicy.ofDocuments request.documents (OrderedSet.ofList request.reserved)).avoided =
          .ok catalog ∧
      (Environment.mk schema fragments).buildOperations
        (NamePolicy.ofDocuments request.documents (OrderedSet.ofList request.reserved)) catalog
        (Document.operations request.documents) = .ok (later, document.operations) ∧
      document.types = later.models := by
  cases given : request.schema with
  | none =>
      rw [analyze, given] at analyzed
      cases analyzed
  | some schema =>
      rw [analyze, given] at analyzed
      simp only [pure_bind] at analyzed
      split at analyzed
      · cases analyzed
      · obtain ⟨fragments, accepted, rest⟩ := bind_eq_ok_iff.mp analyzed
        obtain ⟨catalog, used, rest⟩ := bind_eq_ok_iff.mp rest
        obtain ⟨⟨later, operations⟩, built, same⟩ := bind_eq_ok_iff.mp rest
        obtain rfl := Except.ok.inj same
        exact ⟨schema, fragments, catalog, later, rfl, accepted, used, built, rfl⟩

/-- What an analysis that succeeds has built. -/
theorem exists_builds (given : request.schema = some schema)
    (analyzed : request.analyze = .ok document) :
    ∃ fragments catalog later histories,
      FragmentTable.ofDocuments request.documents = .ok fragments ∧
      Catalog.ofUsage schema (TypeUsage.ofDocuments schema request.documents)
        (NamePolicy.ofDocuments request.documents (OrderedSet.ofList request.reserved)).avoided =
          .ok catalog ∧
      (Environment.mk schema fragments).BuildsAll catalog (Document.operations request.documents)
        later document.operations histories ∧
      document.types = later.models := by
  obtain ⟨same, fragments, catalog, later, known, accepted, used, built, types⟩ :=
    exists_of_analyze analyzed
  obtain rfl := Option.some.inj (known.symm.trans given)
  obtain ⟨_, _, rank, ranked⟩ := FragmentTable.ranked_of_ofDocuments accepted
  obtain ⟨histories, builds⟩ := Environment.exists_buildsAll ranked built
  exact ⟨fragments, catalog, later, histories, accepted, used, builds, types⟩

/-- **No reference in the result of an analysis dangles or disagrees with another.** -/
theorem consistent_of_analyze (given : request.schema = some schema)
    (analyzed : request.analyze = .ok document) : document.Consistent schema := by
  obtain ⟨fragments, catalog, later, histories, _, used, builds, types⟩ :=
    exists_builds given analyzed
  obtain ⟨holds, _⟩ := Catalog.holdsTypes_of_ofUsage used
  obtain ⟨_, operations⟩ := document
  obtain rfl : _ = later.models := types
  refine ⟨builds.consistentField holds, builds.exists_object_of_implementation holds,
    builds.exists_model_of_path holds.distinct, fun model member => ?_,
    fun path absent => DocumentModel.typeAt?_eq_none absent⟩
  obtain ⟨_, _, _, history, _, here, _⟩ := builds.exists_of_mem.2 model member
  exact OrderedMap.mem_entries_of_get? here.paths_root

theorem consistent_of_pets : ∃ document,
    analyze ⟨some Sample.petSchema, Sample.petDocuments, ["Pet"]⟩ = .ok document ∧
      document.types.keys = ["Mood", "Q", "Pet1", "Dog", "Cat", "Person"] ∧
      document.Consistent Sample.petSchema := by
  have analyzed : (analyze ⟨some Sample.petSchema, Sample.petDocuments, ["Pet"]⟩).map
      (fun document => document.types.keys) =
        .ok ["Mood", "Q", "Pet1", "Dog", "Cat", "Person"] :=
    map_analyze_of_within 4 (by decide +kernel)
  obtain ⟨document, analyzed, names⟩ := map_eq_ok_iff.mp analyzed
  exact ⟨document, analyzed, names, consistent_of_analyze rfl analyzed⟩

end AnalysisRequest

end ResponseShape

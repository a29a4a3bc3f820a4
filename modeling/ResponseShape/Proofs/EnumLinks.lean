import ResponseShape.Proofs.References
import ResponseShape.Proofs.StaticReading

/-!
# Links from enum fields to enum models

Two traversals decide about an enum that is selected. Collecting looks the field up on the runtime
type; the visit that records the enums in use looks it up in the scope around it. An enum field of
a model is linked to the model of its enum exactly when the visit has recorded the enum
(`Environment.BuildsAll.linksEnum_iff`).

The two agree where objects and interfaces declare the fields of their interfaces at exactly the
same types (`Schema.Conforms`) and every field is declared in its scope: then what is selected at
run time was read (`Environment.SelectsRead`), and all enum fields are linked
(`AnalysisRequest.linksEnums_of_analyze`). A field that only the runtime type declares is found by
collecting and lost to the visit (`AnalysisRequest.not_linksEnums_of_union`).
-/

set_option autoImplicit false

namespace ResponseShape

/-! ## Runtime types and scopes -/

/-- Objects and interfaces declare the fields of the interfaces that they list, each with exactly
the same type. -/
def Schema.Conforms (schema : Schema) : Prop :=
  ∀ type ∈ schema.types, ∀ interface ∈ schema.types, interface.kind = .interface →
    type.implements interface.name = true → ∀ name declaration,
      interface.field? name = some declaration →
        ∃ own, type.field? name = some own ∧ own.type = declaration.type

namespace TypeDefinition

variable {type : TypeDefinition} {name : String} {declaration : FieldDefinition}

/-- Only `__typename` is a field of a union. -/
theorem field?_of_union (kind : type.kind = .union)
    (declared : type.field? name = some declaration) :
    name = typenameField.name ∧ declaration = typenameField := by
  rw [field?] at declared
  split at declared
  · rename_i isTypename
    exact ⟨beq_iff_eq.mp (Bool.and_eq_true_iff.mp isTypename).1, (Option.some.inj declared).symm⟩
  · have none : type.fields = [] := by
      rw [TypeDefinition.kind] at kind
      rw [fields]
      cases content : type.content <;> simp_all [TypeContent.kind]
    simp [none] at declared

/-- A type that has fields is composite. -/
theorem isComposite_of_field? (declared : type.field? name = some declaration) :
    type.isComposite = true := by
  rw [field?] at declared
  split at declared
  · rename_i isTypename
    exact (Bool.and_eq_true_iff.mp isTypename).2
  · rw [isComposite, TypeDefinition.kind]
    rw [fields] at declared
    cases content : type.content <;> simp_all [TypeContent.kind]

end TypeDefinition

/-- **A field has one type in a scope and on the runtime types to which the scope applies.** -/
theorem Schema.type_eq_of_appliesTo {schema : Schema}
    (distinct : (schema.types.map TypeDefinition.name).Nodup) (conforms : schema.Conforms)
    {scope runtime : TypeDefinition} (isScope : scope ∈ schema.types)
    (isRuntime : runtime ∈ schema.types) (applies : scope.appliesTo runtime = true)
    {name : String} {declaration own : FieldDefinition}
    (declared : scope.field? name = some declaration) (found : runtime.field? name = some own) :
    own.type = declaration.type := by
  rcases Bool.or_eq_true_iff.mp applies with same | above
  · obtain rfl := List.inj_on_of_nodup_map distinct isScope isRuntime (beq_iff_eq.mp same)
    rw [Option.some.inj (found.symm.trans declared)]
  · cases kind : scope.kind with
    | interface =>
        simp only [kind] at above
        obtain ⟨other, isOther, same⟩ :=
          conforms runtime isRuntime scope isScope kind above name declaration declared
        rw [← same, Option.some.inj (found.symm.trans isOther)]
    | union =>
        obtain ⟨rfl, rfl⟩ := TypeDefinition.field?_of_union kind declared
        rw [TypeDefinition.field?, TypeDefinition.isComposite_of_field? found] at found
        exact congrArg FieldDefinition.type (Option.some.inj found).symm
    | scalar | object | enum | inputObject =>
        simp only [kind] at above
        cases above

/-- A type applies to its possible types. -/
theorem Schema.appliesTo_of_mem_possibleTypes {schema : Schema} {type runtime : TypeDefinition}
    (possible : runtime ∈ schema.possibleTypes type) : type.appliesTo runtime = true := by
  rw [possibleTypes] at possible
  rw [TypeDefinition.appliesTo, TypeDefinition.kind, Bool.or_eq_true_iff]
  cases content : type.content with
  | object interfaces fields =>
      simp only [content] at possible
      have found := Option.mem_toList.mp possible
      exact .inl (beq_iff_eq.mpr (Schema.name_of_type? found).symm)
  | interface interfaces fields =>
      simp only [content, List.mem_filter, Bool.and_eq_true] at possible
      exact .inr possible.2.2
  | union members =>
      simp only [content] at possible
      obtain ⟨member, isMember, found⟩ := List.mem_filterMap.mp possible
      refine .inr ?_
      change type.hasMember runtime.name = true
      rw [Schema.name_of_type? (Option.filter_eq_some_iff.mp found).1]
      simp [TypeDefinition.hasMember, TypeDefinition.members, content, isMember]
  | scalar | enum _ | inputObject _ => simp [content] at possible

/-! ## Occurrences of one named type -/

/-- All occurrences have the named type of the first. -/
def Occurrences.Uniform (occurrences : Occurrences) : Prop :=
  ∀ field ∈ occurrences.toList, field.namedType = occurrences.namedType

theorem Occurrences.uniform_of_mem_groups {fields : List SelectedField}
    {occurrences : Occurrences} (compatible : SelectedField.Compatible fields)
    (grouped : occurrences ∈ groups fields) : occurrences.Uniform := by
  intro field member
  obtain ⟨here, named⟩ := of_mem_groups grouped field member
  obtain ⟨first, _⟩ := of_mem_groups grouped occurrences.first List.mem_cons_self
  exact (compatible field here _ first named).2

theorem Task.uniform_of_mem_resolve {own shared : List Task} {child : Task}
    (compatible : Compatible own)
    (uniform : ∀ task, task ∈ own ∨ task ∈ shared → task.occurrences.Uniform)
    (member : child ∈ resolve own shared) : child.occurrences.Uniform := by
  obtain ⟨path, _, found⟩ := mem_resolve.mp member
  rw [atPath?, Option.or_eq_some_iff] at found
  rcases found with joined | ⟨_, first⟩
  · obtain ⟨first, isFirst, _, sameFirst⟩ := path_of_joined? joined
    obtain ⟨firstOwn, firstPath⟩ := List.mem_filter.mp isFirst
    intro field here
    have part := (thins_of_joined? joined).subset field here
    obtain ⟨task, isTask, inTask⟩ := List.mem_flatMap.mp part
    obtain ⟨isOwn, taskPath⟩ := List.mem_filter.mp isTask
    have samePath : task.path = first.path :=
      (of_decide_eq_true taskPath).trans (of_decide_eq_true firstPath).symm
    calc field.namedType = task.namedType := uniform task (.inl isOwn) field inTask
      _ = first.namedType := (compatible task isOwn first firstOwn samePath).2
      _ = child.occurrences.namedType := congrArg SelectedField.namedType sameFirst.symm
  · exact uniform child (.inr (List.mem_of_find?_eq_some first))

namespace Environment

variable {environment : Environment} {documents : List Document} {task : Task}
  {type : TypeDefinition} {plan : Plan}

theorem PlanParts.uniform_of_field (parts : environment.PlanParts task type plan)
    {field : PlannedField} (isField : field ∈ plan.fields) : field.occurrences.Uniform := by
  rcases Plan.mem_fields.mp isField with ⟨variant, isVariant, inVariant⟩ | isShared
  · obtain ⟨found, _, compatible, plans⟩ := parts.own
    obtain ⟨whole, isWhole, _, fields⟩ := exists_left_of_mem plans isVariant
    obtain ⟨occurrences, grouped, same, _⟩ := exists_left_of_mem fields inVariant
    rw [Variant.fields_of_mem_joined isWhole] at grouped
    exact same ▸ Occurrences.uniform_of_mem_groups (compatible whole.typeName) grouped
  · rcases parts.onType with none | ⟨found, _, compatible, plans⟩
    · rw [none] at isShared
      cases isShared
    · obtain ⟨occurrences, grouped, same, _⟩ := exists_left_of_mem plans isShared
      exact same ▸ Occurrences.uniform_of_mem_groups compatible grouped

/-- **The occurrences of every task that a plan leaves have one named type.** -/
theorem PlanParts.uniform_of_task (parts : environment.PlanParts task type plan) {child : Task}
    (isChild : child ∈ plan.tasks) : child.occurrences.Uniform := by
  rw [parts.tasks] at isChild
  refine Task.uniform_of_mem_resolve parts.compatible (fun left isLeft => ?_) isChild
  rcases isLeft with own | shared
  · obtain ⟨variant, isVariant, field, inVariant, _, rfl⟩ := Variant.mem_tasks.mp own
    exact parts.uniform_of_field (Plan.mem_fields.mpr (.inl ⟨variant, isVariant, inVariant⟩))
  · obtain ⟨field, isShared, _, rfl⟩ := PlannedField.mem_tasks.mp shared
    exact parts.uniform_of_field (Plan.mem_fields.mpr (.inr isShared))

/-! ## What is selected was read -/

/-- The field was read in a scope that declares it with the same type, and its selections are read
at that type. -/
structure SelectsRead (environment : Environment) (documents : List Document)
    (field : SelectedField) : Prop where
  declared : ∃ scope head span items declaration,
    environment.Reads documents scope (.field head span items) ∧
      scope.field? head.name = some declaration ∧ declaration.type = field.definition.type
  below : ∀ type, environment.schema.type? field.namedType = some type →
    ∀ selection ∈ field.node.items, environment.Reads documents type selection

/-- The occurrences of the task have its named type, and their selections are read at that type. -/
def ReadsTask (environment : Environment) (documents : List Document) (task : Task) : Prop :=
  task.occurrences.Uniform ∧ ∀ type, environment.schema.type? task.namedType = some type →
    ∀ occurrence ∈ task.occurrences.toList, ∀ selection ∈ occurrence.node.items,
      environment.Reads documents type selection

variable {runtime scope : TypeDefinition} {path : Path} {items : List Selection}

/-- **A walk of what is read meets fields in scopes that apply to the runtime type.** -/
theorem Walk.exists_reads {agenda : List ScopedSelection} {spread after : List String}
    {nodes : List FieldNode} (walk : Walk environment runtime agenda spread nodes after)
    (reads : ∀ entry ∈ agenda, environment.Reads documents entry.scope entry.selection ∧
      entry.scope.appliesTo runtime = true) :
    ∀ node ∈ nodes, isExcluded node.head.directives = false ∧ ∃ scope,
      environment.Reads documents scope (.field node.head node.span node.items) ∧
        scope.appliesTo runtime = true := by
  induction walk with
  | nil => simp
  | excluded _ _ ih => exact ih fun entry member => reads entry (List.mem_cons_of_mem _ member)
  | field included _ ih =>
      intro node member
      rcases List.mem_cons.mp member with rfl | later
      · exact ⟨included, _, reads _ List.mem_cons_self⟩
      · exact ih (fun entry member => reads entry (List.mem_cons_of_mem _ member)) node later
  | inlineEntered included admitted applies _ _ ihInner ih =>
      intro node member
      have here := (reads _ List.mem_cons_self).1
      rcases List.mem_append.mp member with inside | later
      · refine ihInner (fun entry isEntry => ?_) node inside
        obtain ⟨selection, isItem, rfl⟩ := List.mem_map.mp isEntry
        exact ⟨.inline here included admitted isItem, applies⟩
      · exact ih (fun entry member => reads entry (List.mem_cons_of_mem _ member)) node later
  | inlinePassed _ _ _ _ ih | spreadRepeated _ _ _ ih | spreadPassed _ _ _ _ _ _ ih =>
      exact ih fun entry member => reads entry (List.mem_cons_of_mem _ member)
  | spreadEntered included _ found admitted applies _ _ ihInner ih =>
      intro node member
      have here := (reads _ List.mem_cons_self).1
      rcases List.mem_append.mp member with inside | later
      · refine ihInner (fun entry isEntry => ?_) node inside
        obtain ⟨selection, isItem, rfl⟩ := List.mem_map.mp isEntry
        exact ⟨.spread here included found admitted isItem, applies⟩
      · exact ih (fun entry member => reads entry (List.mem_cons_of_mem _ member)) node later

/-- Nodes of one response name that can be merged select the field of one name. -/
theorem name_eq_of_allMergeable {nodes : List FieldNode}
    (mergeable : FieldNode.AllMergeable nodes) {first second : FieldNode} (isFirst : first ∈ nodes)
    (isSecond : second ∈ nodes) (same : first.responseName = second.responseName) :
    first.head.name = second.head.name := by
  have group := mergeable second.responseName
  have firstHere : first ∈ nodes.filter (fun node => node.responseName = second.responseName) :=
    List.mem_filter.mpr ⟨isFirst, by simpa using same⟩
  have secondHere : second ∈ nodes.filter (fun node => node.responseName = second.responseName) :=
    List.mem_filter.mpr ⟨isSecond, by simp⟩
  cases grouped : nodes.filter (fun node => node.responseName = second.responseName) with
  | nil => simp [grouped] at firstHere
  | cons head rest =>
      rw [grouped] at group firstHere secondHere
      have withHead : ∀ node ∈ head :: rest, head.head.name = node.head.name := by
        intro node member
        rcases List.mem_cons.mp member with rfl | later
        · rfl
        · exact (FieldNode.conflict?_eq_none_iff.mp (group node later)).1
      exact (withHead first firstHere).symm.trans (withHead second secondHere)

section Conforming

variable (distinct : (environment.schema.types.map TypeDefinition.name).Nodup)
  (conforms : environment.schema.Conforms) (declares : environment.DeclaresSelections documents)

include distinct conforms declares

/-- **What is selected from selections that are read was read.** -/
theorem selectsRead_of_collectFor (isRuntime : runtime ∈ environment.schema.types)
    (applies : scope.appliesTo runtime = true)
    (reads : ∀ selection ∈ items, environment.Reads documents scope selection)
    {fields : List SelectedField}
    (collected : environment.collectFor runtime scope items path = .ok fields) :
    ∀ field ∈ fields, environment.SelectsRead documents field := by
  intro field member
  obtain ⟨nodes, after, walk, mergeable, selected⟩ := collectFor_eq_ok_iff.mp collected
  obtain ⟨node, isNode, here⟩ := exists_left_of_mem selected member
  obtain ⟨found, rfl, _⟩ := selectField_eq_ok_iff.mp here
  obtain ⟨first, isFirst, sameHead, _, sameItems⟩ := FieldNode.exists_of_mem_merged isNode
  have met := walk.exists_reads fun entry isEntry => by
    obtain ⟨selection, isItem, rfl⟩ := List.mem_map.mp isEntry
    exact ⟨reads selection isItem, applies⟩
  -- Every node of the response name was read where its field has the type of the selected field.
  have declared : ∀ other ∈ nodes, other.responseName = field.node.responseName →
      isExcluded other.head.directives = false ∧ ∃ scope declaration,
        environment.Reads documents scope (.field other.head other.span other.items) ∧
          scope.field? other.head.name = some declaration ∧
          declaration.type = field.definition.type := by
    intro other isOther same
    obtain ⟨included, scope, read, appliesHere⟩ := met other isOther
    obtain ⟨declaration, declaredHere⟩ := declares _ _ _ _ read included
    have name : other.head.name = field.node.head.name := by
      rw [sameHead]
      refine name_eq_of_allMergeable mergeable isOther isFirst (same.trans ?_)
      exact congrArg FieldHead.responseName sameHead
    refine ⟨included, scope, declaration, read, declaredHere, ?_⟩
    exact (Schema.type_eq_of_appliesTo distinct conforms
      (Schema.mem_types_of_type? read.known) isRuntime appliesHere declaredHere
      (name ▸ found)).symm
  constructor
  · obtain ⟨_, scope, declaration, read, declaredHere, sameType⟩ :=
      declared first isFirst (congrArg FieldHead.responseName sameHead.symm)
    exact ⟨scope, _, _, _, declaration, read, declaredHere, sameType⟩
  · intro type known selection isItem
    rw [sameItems] at isItem
    obtain ⟨other, isOther, inOther⟩ := List.mem_flatMap.mp isItem
    obtain ⟨isOther, same⟩ := List.mem_filter.mp isOther
    obtain ⟨included, scope, declaration, read, declaredHere, sameType⟩ :=
      declared other isOther (of_decide_eq_true same)
    refine .field read included declaredHere ?_ inOther
    rw [sameType]
    exact known

/-- Every field of a task that is read was read. -/
theorem PlanParts.selectsRead (parts : environment.PlanParts task type plan)
    (reads : environment.ReadsTask documents task) {field : PlannedField}
    (isField : field ∈ plan.fields) :
    ∀ selected ∈ field.occurrences.toList, environment.SelectsRead documents selected := by
  intro selected member
  rcases Plan.mem_fields.mp isField with ⟨variant, isVariant, inVariant⟩ | isShared
  · obtain ⟨_, occurrence, isOccurrence, runtime, possible, _, fields, collected, here⟩ :=
      parts.exists_collected isVariant inVariant selected member
    exact selectsRead_of_collectFor distinct conforms declares
      (Schema.mem_types_of_mem_possibleTypes possible)
      (Schema.appliesTo_of_mem_possibleTypes possible)
      (reads.2 type parts.known occurrence isOccurrence) collected selected here
  · obtain ⟨_, occurrence, isOccurrence, fields, collected, here⟩ :=
      parts.exists_collected_shared isShared selected member
    exact selectsRead_of_collectFor distinct conforms declares
      (Schema.mem_types_of_type? parts.known) (by simp [TypeDefinition.appliesTo])
      (reads.2 type parts.known occurrence isOccurrence) collected selected here

/-- **The tasks of an operation of the documents are read.** -/
theorem Builds.readsTask {catalog later : Catalog} {operation : OperationDefinition}
    {model : OperationModel} {history : List Built}
    (builds : environment.Builds catalog operation later model history)
    (isOperation : operation ∈ Document.operations documents) :
    ∀ built ∈ history, environment.ReadsTask documents built.task := by
  refine builds.forall_tasks (environment.ReadsTask documents) (fun root found => ?_)
    fun task plan planned composite reads child isChild => ?_
  · refine ⟨fun field member => ?_, fun type known occurrence isOccurrence selection isItem => ?_⟩
    · rw [List.mem_singleton.mp member]
      rfl
    · obtain rfl := List.mem_singleton.mp isOccurrence
      obtain rfl := Option.some.inj ((Schema.root?_eq_some found).1.symm.trans known)
      exact .operation isOperation found isItem
  · obtain ⟨type, _, parts⟩ := planned.exists_parts composite
    have uniform := parts.uniform_of_task isChild
    refine ⟨uniform, fun below known selected member => ?_⟩
    obtain ⟨field, isField, _, _, here⟩ := (parts.origin_of_task isChild).2 selected member
    refine (parts.selectsRead distinct conforms declares reads isField selected here).below below ?_
    rw [uniform selected member]
    exact known

end Conforming

end Environment

/-! ## Enum fields of models -/

/-- The values of the field are of the enum, as a type of the given name declares the field. -/
def Schema.GivesEnum (schema : Schema) (typeName : String) (field : OutputFieldModel)
    (type : TypeDefinition) : Prop :=
  ∃ declaration, schema.Declares typeName field declaration ∧
    schema.type? declaration.type.namedType = some type ∧ type.kind = .enum

namespace DocumentModel

/-- The field refers to a model of the enum. -/
def LinksEnum (document : DocumentModel) (field : OutputFieldModel) (type : TypeDefinition) :
    Prop :=
  ∃ name model, field.typeModel = some name ∧ document.type? name = some (.enum model) ∧
    model.schemaType = type.name

/-- Every field whose values are of an enum refers to a model of the enum. -/
def LinksEnums (document : DocumentModel) (schema : Schema) : Prop :=
  ∀ entry ∈ document.types.entries, ∀ field ∈ entry.2.fields, ∀ type,
    schema.GivesEnum entry.2.schemaType field type → document.LinksEnum field type

end DocumentModel

/-- Where type names are distinct, a field has one declaration. -/
theorem Schema.Declares.unique {schema : Schema}
    (distinct : (schema.types.map TypeDefinition.name).Nodup) {typeName : String}
    {field : OutputFieldModel} {first second : FieldDefinition}
    (one : schema.Declares typeName field first) (two : schema.Declares typeName field second) :
    first = second := by
  obtain ⟨oneType, isOne, oneName, oneField, _⟩ := one
  obtain ⟨twoType, isTwo, twoName, twoField, _⟩ := two
  obtain rfl := List.inj_on_of_nodup_map distinct isOne isTwo (oneName.trans twoName.symm)
  exact Option.some.inj (oneField.symm.trans twoField)

namespace Environment.BuildsAll

variable {schema : Schema} {fragments : FragmentTable} {catalog later : Catalog}
  {operations : List OperationDefinition} {models : List OperationModel}
  {histories : List (List Built)}

/-- An enum field of a model was planned at a position of an operation. -/
theorem exists_planned_of_givesEnum
    (builds : (Environment.mk schema fragments).BuildsAll catalog operations later models histories)
    (holds : Catalog.HoldsTypes schema catalog)
    (distinct : (schema.types.map TypeDefinition.name).Nodup) {entry : String × TypeModel}
    (member : entry ∈ later.models.entries) {field : OutputFieldModel}
    (isField : field ∈ entry.2.fields) {type : TypeDefinition}
    (gives : schema.GivesEnum entry.2.schemaType field type) :
    ∃ operation ∈ operations, ∃ before after model history,
      (Environment.mk schema fragments).Builds before operation after model history ∧
        ∃ built ∈ history, ∃ planned ∈ built.plan.fields,
          schema.type? planned.occurrences.namedType = some type ∧
            field.typeModel = later.nameOf? (.schemaType type.name) := by
  rcases builds.origin_of_entry member with
    before | ⟨operation, isOperation, model, _, start, after, history, here, grows, built, isBuilt,
      isEntry⟩
  · obtain ⟨type, describes⟩ := holds.models entry before
    rw [describes.fields_eq_nil] at isField
    cases isField
  obtain ⟨planned, isPlanned, named, declared, _⟩ :=
    here.exists_planned grows isBuilt isEntry isField
  obtain ⟨declaration, other, known, kind⟩ := gives
  obtain rfl := other.unique distinct declared
  obtain ⟨_, _, parts⟩ := here.exists_parts isBuilt
  have isEnum : planned.value = .enum := Option.some.inj
    ((parts.value_of_field isPlanned).symm.trans (valueOf?_eq_enum_iff.mpr ⟨type, known, kind⟩))
  refine ⟨operation, isOperation, start, after, model, history, here, built, isBuilt, planned,
    isPlanned, known, ?_⟩
  rw [named.enum isEnum, Schema.name_of_type? known]
  rfl

/-- **An enum field of a model is linked to the model of its enum exactly when the enum has a
name.** -/
theorem linksEnum_iff
    (builds : (Environment.mk schema fragments).BuildsAll catalog operations later models histories)
    (holds : Catalog.HoldsTypes schema catalog)
    (distinct : (schema.types.map TypeDefinition.name).Nodup) {entry : String × TypeModel}
    (member : entry ∈ later.models.entries) {field : OutputFieldModel}
    (isField : field ∈ entry.2.fields) {type : TypeDefinition}
    (gives : schema.GivesEnum entry.2.schemaType field type) :
    (DocumentModel.LinksEnum ⟨later.models, models⟩ field type ↔
      (catalog.nameOf? (.schemaType type.name)).isSome = true) ∧
    ((catalog.nameOf? (.schemaType type.name)).isSome = false → field.typeModel = none) := by
  obtain ⟨_, _, _, _, _, _, _, _, _, planned, _, known, refers⟩ :=
    builds.exists_planned_of_givesEnum holds distinct member isField gives
  obtain ⟨_, _, _, kind⟩ := gives
  have same : type.name = planned.occurrences.namedType := Schema.name_of_type? known
  rw [builds.grows.types] at refers
  refine ⟨⟨?_, fun named => ?_⟩, fun unnamed => ?_⟩
  · rintro ⟨name, _, refersTo, _, _⟩
    rw [← refers, refersTo]
    rfl
  · obtain ⟨name, named⟩ := Option.isSome_iff_exists.mp named
    have found := named
    rw [same, ← builds.grows.types] at found
    obtain ⟨model, isModel, schemaType⟩ := holds.exists_enum builds.grows known kind found
    exact ⟨name, model, refers.trans named, isModel, schemaType.trans same.symm⟩
  · rw [refers]
    simpa using unnamed

end Environment.BuildsAll

/-! ## Painted things -/

namespace Sample

def thingType : TypeDefinition :=
  ⟨"Thing", none, [], .object ["Painted"] [declare "color" "Color"]⟩

def paintedType : TypeDefinition :=
  ⟨"Painted", none, [], .interface [] [declare "color" "Color"]⟩

def thingsType : TypeDefinition :=
  objectType "Query" [declare "thing" "Thing"]

/-- The colour of a thing is a field of the thing's interface, but not of its union. -/
def paintSchema : Schema :=
  ⟨[.type thingsType, .type paintedType, .type thingType,
    .type ⟨"Any", none, [], .union ["Thing"]⟩,
    .type ⟨"Color", none, [], .enum [⟨"RED", none, []⟩]⟩]⟩

/-- The colour of the thing, selected in a fragment on the type of the given name. -/
def paintDocuments (condition : String) : List Document :=
  [[.operation (query "Q" [pick "thing" [onType condition [pick "color" []]]])]]

theorem distinct_paint : (paintSchema.types.map TypeDefinition.name).Nodup := by decide

theorem conforms_paint : paintSchema.Conforms := by
  intro type isType interface isInterface kind implements name declaration declared
  have types : paintSchema.types = [thingsType, paintedType, thingType,
    ⟨"Any", none, [], .union ["Thing"]⟩, ⟨"Color", none, [], .enum [⟨"RED", none, []⟩]⟩] := rfl
  simp only [types, List.mem_cons, List.not_mem_nil, or_false] at isType isInterface
  have isPainted : interface = paintedType := by
    rcases isInterface with rfl | rfl | rfl | rfl | rfl
    · cases kind
    · rfl
    all_goals cases kind
  subst isPainted
  have isThing : type = thingType := by
    rcases isType with rfl | rfl | rfl | rfl | rfl
    · cases implements
    · cases implements
    · rfl
    all_goals cases implements
  subst isThing
  exact ⟨declaration, declared, rfl⟩

/-- What is read when the fragment is on the interface. -/
theorem reads_paint {scope : TypeDefinition} {selection : Selection}
    (reads : (Environment.mk paintSchema ⟨[]⟩).Reads (paintDocuments "Painted") scope selection) :
    (scope = thingsType ∧ selection = pick "thing" [onType "Painted" [pick "color" []]]) ∨
    (scope = thingType ∧ selection = onType "Painted" [pick "color" []]) ∨
    (scope = paintedType ∧ selection = pick "color" []) := by
  induction reads with
  | operation isOperation found isItem =>
      obtain rfl := List.mem_singleton.mp isOperation
      obtain rfl : thingsType = _ := Option.some.inj found
      exact .inl ⟨rfl, List.mem_singleton.mp isItem⟩
  | field _ _ declared known isItem ih =>
      rcases ih with ⟨rfl, same⟩ | ⟨_, same⟩ | ⟨_, same⟩
      · obtain ⟨rfl, _, rfl⟩ := Selection.field.inj same
        obtain rfl : declare "thing" "Thing" = _ := Option.some.inj declared
        obtain rfl : thingType = _ := Option.some.inj known
        exact .inr (.inl ⟨rfl, List.mem_singleton.mp isItem⟩)
      · cases same
      · obtain ⟨_, _, rfl⟩ := Selection.field.inj same
        cases isItem
  | inline _ _ admitted isItem ih =>
      rcases ih with ⟨_, same⟩ | ⟨_, same⟩ | ⟨_, same⟩
      · cases same
      · obtain ⟨rfl, _, _, _, rfl⟩ := Selection.inline.inj same
        obtain rfl : paintedType = _ := Option.some.inj admitted.1
        exact .inr (.inr ⟨rfl, List.mem_singleton.mp isItem⟩)
      · cases same
  | spread _ _ found _ _ _ => cases found

theorem declares_paint :
    (Environment.mk paintSchema ⟨[]⟩).DeclaresSelections (paintDocuments "Painted") := by
  intro scope head span items reads _
  rcases reads_paint reads with ⟨rfl, same⟩ | ⟨_, same⟩ | ⟨rfl, same⟩
  · obtain ⟨rfl, _, _⟩ := Selection.field.inj same
    exact ⟨declare "thing" "Thing", rfl⟩
  · cases same
  · obtain ⟨rfl, _, _⟩ := Selection.field.inj same
    exact ⟨declare "color" "Color", rfl⟩

end Sample

namespace AnalysisRequest

open Sample

variable {request : AnalysisRequest} {schema : Schema} {document : DocumentModel}

/-- **Enum fields are linked to the models of the enums that the visit of the documents recorded,
and to no others.** So all of them are linked if every field that the documents read is declared in
its scope, in a schema with distinct type names in which types conform to their interfaces. -/
theorem linksEnums_of_analyze (given : request.schema = some schema)
    (distinct : (schema.types.map TypeDefinition.name).Nodup) (conforms : schema.Conforms)
    (analyzed : request.analyze = .ok document) :
    (∀ entry ∈ document.types.entries, ∀ field ∈ entry.2.fields, ∀ type,
      schema.GivesEnum entry.2.schemaType field type →
        (document.LinksEnum field type ↔
          type.name ∈ (TypeUsage.ofDocuments schema request.documents).enums) ∧
        (type.name ∉ (TypeUsage.ofDocuments schema request.documents).enums →
          field.typeModel = none)) ∧
    ((Environment.mk schema ⟨Document.fragments request.documents⟩).DeclaresSelections
        request.documents → document.LinksEnums schema) := by
  obtain ⟨fragments, catalog, later, histories, accepted, used, builds, types⟩ :=
    exists_builds given analyzed
  obtain ⟨rfl, _⟩ := FragmentTable.ranked_of_ofDocuments accepted
  obtain ⟨holds, namedEnums⟩ := Catalog.holdsTypes_of_ofUsage used
  obtain ⟨_, operations⟩ := document
  obtain rfl : _ = later.models := types
  have links : ∀ entry ∈ later.models.entries, ∀ field ∈ entry.2.fields, ∀ type,
      schema.GivesEnum entry.2.schemaType field type →
        (DocumentModel.LinksEnum ⟨later.models, operations⟩ field type ↔
          type.name ∈ (TypeUsage.ofDocuments schema request.documents).enums) ∧
        (type.name ∉ (TypeUsage.ofDocuments schema request.documents).enums →
          field.typeModel = none) := by
    intro entry member field isField type gives
    obtain ⟨linked, unlinked⟩ := builds.linksEnum_iff holds distinct member isField gives
    obtain ⟨declaration, _, known, kind⟩ := gives
    have inUse := namedEnums type (Schema.name_of_type? known ▸ known) kind
    refine ⟨linked.trans inUse, fun unused => unlinked ?_⟩
    rw [← Bool.not_eq_true, inUse]
    exact unused
  refine ⟨links, fun declares entry member field isField type gives => ?_⟩
  refine (links entry member field isField type gives).1.mpr ?_
  obtain ⟨operation, isOperation, _, _, _, history, here, built, isBuilt, planned, isPlanned, known,
    _⟩ := builds.exists_planned_of_givesEnum holds distinct member isField gives
  obtain ⟨_, _, _, kind⟩ := gives
  obtain ⟨_, _, parts⟩ := here.exists_parts isBuilt
  have reads := here.readsTask distinct conforms declares isOperation built isBuilt
  obtain ⟨scope, head, span, items, declaration, read, declared, sameType⟩ :=
    (parts.selectsRead distinct conforms declares reads isPlanned _ List.mem_cons_self).declared
  refine read.mem_enums rfl declared ?_ kind
  rw [sameType]
  exact known

theorem linksEnums_of_interface : ∃ document,
    analyze ⟨some paintSchema, paintDocuments "Painted", []⟩ = .ok document ∧
      document.types.keys = ["Color", "Q", "Thing"] ∧ document.LinksEnums paintSchema := by
  have analyzed : (analyze ⟨some paintSchema, paintDocuments "Painted", []⟩).map
      (fun document => document.types.keys) = .ok ["Color", "Q", "Thing"] :=
    map_analyze_of_within 4 (by decide +kernel)
  obtain ⟨document, analyzed, names⟩ := map_eq_ok_iff.mp analyzed
  exact ⟨document, analyzed, names,
    (linksEnums_of_analyze rfl distinct_paint conforms_paint analyzed).2 declares_paint⟩

/-- **An enum field is not linked if it is only selected where just the runtime type declares
it.** -/
theorem not_linksEnums_of_union :
    (paintSchema.types.map TypeDefinition.name).Nodup ∧ paintSchema.Conforms ∧ ∃ document,
      analyze ⟨some paintSchema, paintDocuments "Any", []⟩ = .ok document ∧
        ¬ document.LinksEnums paintSchema := by
  have analyzed : (analyze ⟨some paintSchema, paintDocuments "Any", []⟩).map (fun document =>
      decide (∃ entry ∈ document.types.entries, ∃ field ∈ entry.2.fields,
        entry.2.schemaType = "Thing" ∧ field.fieldName = "color" ∧ field.fieldType = "Color" ∧
          field.typeModel = none)) = .ok true :=
    map_analyze_of_within 4 (by decide +kernel)
  obtain ⟨document, analyzed, unlinked⟩ := map_eq_ok_iff.mp analyzed
  obtain ⟨entry, member, field, isField, typeName, fieldName, fieldType, refers⟩ :=
    of_decide_eq_true unlinked
  refine ⟨distinct_paint, conforms_paint, document, analyzed, fun links => ?_⟩
  have gives : paintSchema.GivesEnum entry.2.schemaType field
      ⟨"Color", none, [], .enum [⟨"RED", none, []⟩]⟩ := by
    refine ⟨declare "color" "Color", ⟨thingType, ?_, typeName.symm, ?_, fieldType⟩, rfl, rfl⟩
    · exact List.mem_of_getElem? (i := 2) rfl
    · rw [fieldName]
      rfl
  obtain ⟨name, _, refersTo, _, _⟩ := links entry member field isField _ gives
  rw [refers] at refersTo
  cases refersTo

end AnalysisRequest

end ResponseShape

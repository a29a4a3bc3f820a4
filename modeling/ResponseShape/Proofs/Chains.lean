import ResponseShape.Proofs.Building

/-!
# No selected field is lost

A response is reached by chains: from the root, one concrete type is chosen at every value, and the
chain goes on with the node that stands for a response name on that type (`Environment.Chain`).
A traversal does not follow chains. It puts the selections of all types that lead to one position
into one task, and drops nodes that equal a node of the task.

Nothing falls out on the way: every chain ends at a position of the history, whose task has an
occurrence with items alike to those of the chain (`Environment.Chain.exists_occurrence`). So every
field that a chain selects is a field of the model of its concrete type
(`Environment.exists_model_of_chain`).
-/

set_option autoImplicit false

namespace ResponseShape

/-! ## Models of concrete types -/

namespace Catalog

variable {catalog : Catalog} {plan : Plan} {own : TypeModel} {objects : List ObjectModel}
  {variant : Variant PlannedField} {object : ObjectModel} {name typeName : String}

/-- The object model is the model of values of the type at a position whose model has the name:
it is the position's own model, or one of the implementations of that. -/
def ModelsType (catalog : Catalog) (name typeName : String) (object : ObjectModel) : Prop :=
  object.schemaType = typeName ∧ catalog.models.get? object.name = some (.object object) ∧
    (object.name = name ∨
      ∃ own, catalog.models.get? name = some own ∧ object.name ∈ own.implementations)

/-- The models of the position are found by their names. -/
def Registers (catalog : Catalog) (own : TypeModel) (objects : List ObjectModel) : Prop :=
  ∀ entry ∈ own.entries objects, catalog.models.get? entry.1 = some entry.2

theorem Registers.get?_own (registers : catalog.Registers own objects) :
    catalog.models.get? own.name = some own :=
  registers (own.name, own) List.mem_cons_self

theorem Registers.get?_object (registers : catalog.Registers own objects)
    (member : object ∈ objects) :
    catalog.models.get? object.name = some (.object object) := by
  refine registers (object.name, .object object) (List.mem_cons_of_mem _ ?_)
  rw [List.map_map]
  exact List.mem_map_of_mem member

/-- **Every variant of a plan has a model at the position.** -/
theorem NamesPlan.exists_object (named : catalog.NamesPlan plan own objects)
    (registers : catalog.Registers own objects) (isVariant : variant ∈ plan.variants) :
    ∃ object, catalog.NamesVariant variant object ∧
      catalog.ModelsType own.name variant.typeName object := by
  cases named with
  | object parts =>
      obtain rfl := List.mem_singleton.mp isVariant
      exact ⟨_, parts, parts.schemaType, registers.get?_own, .inl rfl⟩
  | interface parts | union parts =>
      obtain ⟨object, isObject, here⟩ := exists_right_of_mem parts.variants isVariant
      refine ⟨object, here, here.schemaType, registers.get?_object isObject,
        .inr ⟨_, registers.get?_own, ?_⟩⟩
      rw [TypeModel.implementations, parts.implementations]
      exact List.mem_map_of_mem isObject

/-- An object model of the position is the model of a variant. -/
theorem NamesPlan.exists_variant (named : catalog.NamesPlan plan own objects)
    (registers : catalog.Registers own objects)
    (models : catalog.ModelsType own.name typeName object) :
    ∃ variant ∈ plan.variants, catalog.NamesVariant variant object := by
  obtain ⟨_, found, position⟩ := models
  cases named with
  | object parts =>
      rcases position with same | ⟨above, foundAbove, isImplementation⟩
      · rw [same, registers.get?_own] at found
        obtain rfl := TypeModel.object.inj (Option.some.inj found)
        exact ⟨_, List.mem_singleton_self _, parts⟩
      · rw [registers.get?_own] at foundAbove
        obtain rfl := Option.some.inj foundAbove
        cases isImplementation
  | interface parts | union parts =>
      rcases position with same | ⟨above, foundAbove, isImplementation⟩
      · rw [same, registers.get?_own] at found
        cases found
      · rw [registers.get?_own] at foundAbove
        obtain rfl := Option.some.inj foundAbove
        rw [TypeModel.implementations, parts.implementations] at isImplementation
        obtain ⟨other, isObject, same⟩ := List.mem_map.mp isImplementation
        have foundOther := registers.get?_object isObject
        rw [same, found] at foundOther
        obtain rfl := TypeModel.object.inj (Option.some.inj foundOther)
        obtain ⟨variant, isVariant, here⟩ := exists_left_of_mem parts.variants isObject
        exact ⟨variant, isVariant, here⟩

/-- **The models of one type at a position all are the model of its variant.** -/
theorem NamesPlan.namesVariant (named : catalog.NamesPlan plan own objects)
    (registers : catalog.Registers own objects)
    (distinct : (plan.variants.map Variant.typeName).Nodup) (isVariant : variant ∈ plan.variants)
    (models : catalog.ModelsType own.name variant.typeName object) :
    catalog.NamesVariant variant object := by
  obtain ⟨other, isOther, here⟩ := named.exists_variant registers models
  have same : other.typeName = variant.typeName := here.schemaType.symm.trans models.1
  obtain rfl := List.inj_on_of_nodup_map distinct isOther isVariant same
  exact here

end Catalog

/-! ## Chains -/

namespace Environment

variable {environment : Environment} {operation : OperationDefinition} {path : Path}
  {type : TypeDefinition} {items : List Selection}

/-- A value that a response can reach: its path, its type and its selections. The chain starts at
the root; at every value it goes on with a field that one of the possible types of the value
selects, if the field's own type is an object type, an interface or a union. -/
inductive Chain (environment : Environment) (operation : OperationDefinition) :
    Path → TypeDefinition → List Selection → Prop where
  | root {name : String} {root : TypeDefinition} :
      operation.name = some name → environment.schema.root? operation.kind = some root →
        Chain environment operation (Path.root name) root operation.items
  | field {path : Path} {type fieldType : TypeDefinition} {items : List Selection}
      {variants : List (Variant SelectedField)} {variant : Variant SelectedField}
      {field : SelectedField} :
      Chain environment operation path type items →
        environment.collect type items path = .ok variants → variant ∈ variants →
        field ∈ variant.fields → environment.schema.type? field.namedType = some fieldType →
        fieldType.isComposite = true →
        Chain environment operation field.path fieldType field.node.items

/-- The task stands at the end of a chain: it has the chain's path and type, and an occurrence with
the chain's selections. -/
structure StandsAt (environment : Environment) (task : Task) (path : Path)
    (type : TypeDefinition) (items : List Selection) : Prop where
  path : task.path = path
  known : environment.schema.type? task.namedType = some type
  occurrence : ∃ occurrence ∈ task.occurrences.toList,
    List.Forall₂ Selection.Alike occurrence.node.items items

variable {policy : NamePolicy} {catalog later : Catalog} {model : OperationModel}
  {history : List Built} {task : Task} {plan : Plan}

/-- What a chain selects at the task's position is planned with the response name, the field and
the type that it has there. -/
theorem StandsAt.exists_planned (stands : environment.StandsAt task path type items)
    (parts : environment.PlanParts task type plan) {variants : List (Variant SelectedField)}
    {variant : Variant SelectedField} {selected : SelectedField}
    (collected : environment.collect type items path = .ok variants)
    (isVariant : variant ∈ variants) (isSelected : selected ∈ variant.fields) :
    ∃ planned ∈ plan.variants, planned.typeName = variant.typeName ∧
      ∃ field ∈ planned.fields, field.occurrences.responseName = selected.responseName ∧
        field.occurrences.first.definition.name = selected.definition.name ∧
        field.occurrences.namedType = selected.namedType ∧
        ∃ known ∈ field.occurrences.toList, known.Covers selected := by
  obtain ⟨rfl, _, occurrence, isOccurrence, alike⟩ := stands
  obtain ⟨runtime, possible, typeName, selects⟩ :=
    exists_left_of_mem (collect_eq_ok_iff.mp collected) isVariant
  obtain ⟨fields, here, planned, isPlanned, named, covered⟩ :=
    parts.exists_planned isOccurrence possible
  obtain ⟨fields', here', fieldsAlike⟩ := collectFor_of_alike alike here
  obtain rfl := Except.ok.inj (here'.symm.trans selects)
  obtain ⟨other, isOther, otherAlike⟩ := exists_left_of_mem fieldsAlike isSelected
  obtain ⟨field, isField, response, name, namedType, known, isKnown, covers⟩ :=
    covered other isOther
  exact ⟨planned, isPlanned, named.trans typeName.symm, field, isField,
    response.trans otherAlike.responseName_eq,
    name.trans (congrArg FieldDefinition.name otherAlike.definition),
    namedType.trans otherAlike.namedType_eq, known, isKnown, covers.trans otherAlike.node⟩

/-- **Every chain ends at a position of the history.** -/
theorem Chain.exists_occurrence (chain : environment.Chain operation path type items)
    (builds : environment.Builds catalog operation later model history) :
    ∃ built ∈ history, environment.StandsAt built.task path type items := by
  induction chain with
  | @root name root named found =>
      obtain ⟨other, _, _, _, found', named', _, rfl⟩ := builds.exists_root
      obtain rfl := Option.some.inj (found.symm.trans found')
      obtain rfl := Option.some.inj (named.symm.trans named')
      exact ⟨_, List.mem_cons_self, rfl, (Schema.root?_eq_some found).1, _, List.mem_cons_self,
        Selection.alike_refl _⟩
  | @field path type fieldType items variants variant selected _ collected isVariant isSelected
      known composite ih =>
      obtain ⟨built, isBuilt, stands⟩ := ih
      obtain ⟨other, _, parts⟩ := builds.exists_parts isBuilt
      obtain rfl := Option.some.inj (parts.known.symm.trans stands.known)
      obtain ⟨planned, isPlanned, _, field, isField, response, _, namedType, known', isKnown,
        covers⟩ := stands.exists_planned parts collected isVariant isSelected
      have inPlan : field ∈ built.plan.fields :=
        Plan.mem_fields.mpr (.inl ⟨planned, isPlanned, isField⟩)
      have value : field.value = .composite := by
        have valued := parts.value_of_field inPlan
        rw [namedType, valueOf?_eq_composite_iff.mpr ⟨fieldType, known, composite⟩] at valued
        exact (Option.some.inj valued).symm
      obtain ⟨child, isChild, childPath, childType, covered⟩ :=
        parts.exists_task_of_variant isPlanned isField value
      obtain ⟨below, isBelow, rfl⟩ := builds.exists_of_mem_tasks built isBuilt child isChild
      obtain ⟨occurrence, isOccurrence, coversKnown⟩ := covered known' isKnown
      obtain ⟨runtime, _, _, selects⟩ :=
        exists_left_of_mem (collect_eq_ok_iff.mp collected) isVariant
      refine ⟨below, isBelow, ?_, ?_, occurrence, isOccurrence, (coversKnown.trans covers).items⟩
      · rw [childPath, parts.path_of_field inPlan, stands.path, response, SelectedField.path,
          setPath_of_collectFor selects selected isSelected]
      · rw [childType, namedType]
        exact known

end Environment

/-! ## Pets and their owners -/

namespace Sample

/-- A field that is selected without alias, arguments and directives. -/
def pick (name : String) (items : List Selection) : Selection :=
  .field ⟨none, name, [], [], ⟨1, 1⟩⟩ ⟨⟨1, 1⟩, ⟨1, 1⟩⟩ items

/-- A field that was selected so. -/
def select (typeName name : String) (items : List Selection) (path : Path) : SelectedField :=
  ⟨⟨name, .named typeName, none, [], []⟩,
    ⟨⟨none, name, [], [], ⟨1, 1⟩⟩, ⟨⟨1, 1⟩, ⟨1, 1⟩⟩, items⟩, path⟩

/-- An inline fragment without directives. -/
def onType (condition : String) (items : List Selection) : Selection :=
  .inline (some condition) [] ⟨1, 1⟩ ⟨⟨1, 1⟩, ⟨1, 1⟩⟩ items

/-- A declared field without arguments. -/
def declare (name typeName : String) : FieldDefinition :=
  ⟨name, .named typeName, none, [], []⟩

/-- An object type without interfaces. -/
def objectType (name : String) (fields : List FieldDefinition) : TypeDefinition :=
  ⟨name, none, [], .object [] fields⟩

/-- An operation without variables and directives. -/
def query (name : String) (items : List Selection) : OperationDefinition :=
  ⟨.query, some name, ⟨1, 1⟩, [], [], ⟨⟨1, 1⟩, ⟨1, 1⟩⟩, items⟩

def queryType : TypeDefinition :=
  objectType "Query" [declare "pet" "Pet"]

def petType : TypeDefinition :=
  ⟨"Pet", none, [], .union ["Dog", "Cat"]⟩

def dogType : TypeDefinition :=
  objectType "Dog" [declare "owner" "Person"]

def catType : TypeDefinition :=
  objectType "Cat" [declare "owner" "Person"]

def personType : TypeDefinition :=
  objectType "Person" [declare "name" "String", declare "mood" "Mood"]

/-- Pets are dogs and cats, and each has an owner. -/
def petSchema : Schema :=
  ⟨[.type queryType, .type petType,
    .type (objectType "Dog" [declare "owner" "Person"]),
    .type (objectType "Cat" [declare "owner" "Person"]),
    .type personType,
    .type ⟨"Mood", none, [], .enum [⟨"CALM", none, []⟩, ⟨"WILD", none, []⟩]⟩]⟩

/-- What is selected on cats. -/
def catFragment : FragmentDefinition :=
  ⟨"OfCat", "Cat", [], ⟨1, 1⟩, ⟨⟨1, 1⟩, ⟨1, 1⟩⟩, [pick "owner" [pick "mood" []]]⟩

/-- The owners of dogs are asked for their names, those of cats for their moods. -/
def petItems : List Selection :=
  [onType "Dog" [pick "owner" [pick "name" []]], .spread "OfCat" [] ⟨1, 1⟩]

def petQuery : OperationDefinition :=
  query "Q" [pick "pet" petItems]

def petDocuments : List Document :=
  [[.operation petQuery, .fragment catFragment]]

def petEnvironment : Environment :=
  ⟨petSchema, ⟨[catFragment]⟩⟩

def petModel : OperationModel :=
  ⟨"Q", .query, "Q",
    ⟨[(⟨["Q"]⟩, "Q"), (⟨["Q", "pet"]⟩, "Pet"), (⟨["Q", "pet", "owner"]⟩, "Person")]⟩⟩

/-- The owner as it is selected on dogs. -/
def dogOwner : SelectedField :=
  select "Person" "owner" [pick "name" []] ⟨["Q", "pet"]⟩

/-- The owner as it is selected on cats. -/
def catOwner : SelectedField :=
  select "Person" "owner" [pick "mood" []] ⟨["Q", "pet"]⟩

theorem accepted_of_catFragment {documents : List Document}
    (only : Document.fragments documents = [catFragment]) :
    FragmentTable.ofDocuments documents = .ok ⟨[catFragment]⟩ := by
  rw [← only]
  refine FragmentTable.ofDocuments_of_no_spreads ?_ fun fragment member => ?_
  · simp [only]
  · rw [only] at member
    obtain rfl := List.mem_singleton.mp member
    rfl

open Environment in
/-- The chain through cats, on which only the mood is selected. -/
theorem chain_of_cat :
    petEnvironment.Chain petQuery ⟨["Q", "pet", "owner"]⟩ personType [pick "mood" []] := by
  have onDog : petEnvironment.AdmitsInline (some "Dog") petType
      (objectType "Dog" [declare "owner" "Person"]) := ⟨rfl, rfl, rfl⟩
  have onCat : petEnvironment.Admits "Cat" petType
      (objectType "Cat" [declare "owner" "Person"]) := ⟨rfl, rfl, rfl⟩
  have atRoot : petEnvironment.collect queryType petQuery.items ⟨["Q"]⟩ =
      .ok [⟨"Query", [select "Pet" "pet" petItems ⟨["Q"]⟩]⟩] :=
    collect_eq_ok_iff.mpr (.cons ⟨rfl, collectFor_of_walk (.field rfl (.nil [])) rfl⟩ .nil)
  have walkDog : petEnvironment.Walk (objectType "Dog" [declare "owner" "Person"])
      (ScopedSelection.inScope petType petItems) [] ([dogOwner.node] ++ []) ["OfCat"] :=
    .inlineEntered rfl onDog rfl (.field rfl (.nil []))
      (.spreadPassed rfl List.not_mem_nil rfl onCat rfl (.nil _))
  have walkCat : petEnvironment.Walk (objectType "Cat" [declare "owner" "Person"])
      (ScopedSelection.inScope petType petItems) [] ([catOwner.node] ++ []) ["OfCat"] :=
    .inlinePassed rfl onDog rfl
      (.spreadEntered rfl List.not_mem_nil rfl onCat rfl (.field rfl (.nil _)) (.nil _))
  have atPet : petEnvironment.collect petType petItems ⟨["Q", "pet"]⟩ =
      .ok [⟨"Dog", [dogOwner]⟩, ⟨"Cat", [catOwner]⟩] :=
    collect_eq_ok_iff.mpr (.cons ⟨rfl, collectFor_of_walk walkDog rfl⟩
      (.cons ⟨rfl, collectFor_of_walk walkCat rfl⟩ .nil))
  have root : petEnvironment.Chain petQuery ⟨["Q"]⟩ queryType petQuery.items := .root rfl rfl
  have pet : petEnvironment.Chain petQuery ⟨["Q", "pet"]⟩ petType petItems :=
    .field root atRoot List.mem_cons_self List.mem_cons_self rfl rfl
  exact .field pet atPet (List.mem_cons_of_mem _ List.mem_cons_self) List.mem_cons_self rfl rfl

end Sample

/-! ## The fields of chains are in the models -/

namespace Environment

open Sample

variable {operation : OperationDefinition} {path : Path} {type : TypeDefinition}
  {items : List Selection} {policy : NamePolicy} {catalog later : Catalog} {model : OperationModel}

/-- **No selected field is lost.** In documents whose fragments are accepted and whose operations
are built, every chain ends at a path of the operation, its selections can be collected there, and
for each of the possible types the model of that type at the path has all fields that the chain
selects on the type. -/
theorem exists_model_of_chain {schema : Schema} {documents : List Document}
    {fragments : FragmentTable} (accepted : FragmentTable.ofDocuments documents = .ok fragments)
    {models : List OperationModel}
    (built : (Environment.mk schema fragments).buildOperations policy catalog
      (Document.operations documents) = .ok (later, models))
    (member : (operation, model) ∈ (Document.operations documents).zip models)
    (chain : (Environment.mk schema fragments).Chain operation path type items) :
    ∃ name variants, model.paths.get? path = some name ∧
      (Environment.mk schema fragments).collect type items path = .ok variants ∧
      variants.map Variant.typeName = (schema.possibleTypes type).map TypeDefinition.name ∧
      ∀ variant ∈ variants, (∃ object, later.ModelsType name variant.typeName object) ∧
        ∀ object, later.ModelsType name variant.typeName object →
          ∀ selected ∈ variant.fields, ∃ field ∈ object.fields,
            field.responseName = selected.responseName ∧
              field.fieldName = selected.definition.name := by
  obtain ⟨_, _, rank, ranked⟩ := FragmentTable.ranked_of_ofDocuments accepted
  obtain ⟨histories, buildsAll⟩ := exists_buildsAll ranked built
  obtain ⟨before, after, history, _, builds, grows⟩ :=
    buildsAll.exists_of_mem.1 operation model member
  obtain ⟨position, isPosition, stands⟩ := chain.exists_occurrence builds
  obtain ⟨other, _, parts⟩ := builds.exists_parts isPosition
  obtain rfl := Option.some.inj (parts.known.symm.trans stands.known)
  have named := (builds.names position isPosition).mono grows
  have registers : later.Registers position.own position.objects := fun entry isEntry =>
    grows.model (builds.registered position isPosition entry isEntry)
  obtain ⟨occurrence, isOccurrence, alike⟩ := stands.occurrence
  obtain ⟨found, collects, _, _⟩ := parts.own
  obtain ⟨occurring, _, collected⟩ := exists_right_of_mem collects isOccurrence
  obtain ⟨variants, collected', _⟩ := collect_of_alike alike collected
  rw [stands.path] at collected'
  refine ⟨position.own.name, variants, ?_, collected', ?_, fun variant isVariant => ?_⟩
  · rw [← stands.path]
    exact builds.paths_of_mem position isPosition
  · exact (forall₂_map_eq (fun _ _ here => here.1.symm) (collect_eq_ok_iff.mp collected')).symm
  · have planned : ∃ planned ∈ position.plan.variants, planned.typeName = variant.typeName := by
      obtain ⟨runtime, possible, typeName, _⟩ :=
        exists_left_of_mem (collect_eq_ok_iff.mp collected') isVariant
      obtain ⟨_, _, planned, isPlanned, name, _⟩ := parts.exists_planned isOccurrence possible
      exact ⟨planned, isPlanned, name.trans typeName.symm⟩
    obtain ⟨planned, isPlanned, typeName⟩ := planned
    refine ⟨?_, fun object isModel selected isSelected => ?_⟩
    · obtain ⟨object, _, isModel⟩ := named.exists_object registers isPlanned
      exact ⟨object, typeName ▸ isModel⟩
    · obtain ⟨other, isOther, otherName, field, isField, response, name, _⟩ :=
        stands.exists_planned parts collected' isVariant isSelected
      have namesOther := named.namesVariant registers parts.nodup_typeNames isOther
        (otherName.symm ▸ isModel)
      obtain ⟨fieldModel, isFieldModel, names⟩ := exists_right_of_mem namesOther.fields isField
      exact ⟨fieldModel, isFieldModel, names.responseName.trans response,
        names.fieldName.trans name⟩

theorem exists_mood_of_chain_of_cat :
    ∃ later, petEnvironment.buildOperations ⟨[], []⟩ Catalog.empty
        (Document.operations petDocuments) = .ok (later, [petModel]) ∧
      ∃ object, later.ModelsType "Person" "Person" object ∧
        ∃ field ∈ object.fields, field.responseName = "mood" ∧ field.fieldName = "mood" := by
  have built : (petEnvironment.buildOperations ⟨[], []⟩ Catalog.empty
      (Document.operations petDocuments)).map Prod.snd = .ok [petModel] :=
    map_buildOperations_of_within 4 (by decide +kernel)
  obtain ⟨⟨later, _⟩, built, rfl⟩ := map_eq_ok_iff.mp built
  obtain ⟨name, variants, found, collected, _, modelled⟩ :=
    exists_model_of_chain (accepted_of_catFragment rfl) built List.mem_cons_self chain_of_cat
  obtain rfl : "Person" = name := Option.some.inj found
  have selected : petEnvironment.collect personType [pick "mood" []] ⟨["Q", "pet", "owner"]⟩ =
      .ok [⟨"Person", [select "Mood" "mood" [] ⟨["Q", "pet", "owner"]⟩]⟩] :=
    collect_eq_ok_iff.mpr (.cons ⟨rfl, collectFor_of_walk (.field rfl (.nil [])) rfl⟩ .nil)
  obtain rfl := Except.ok.inj (selected.symm.trans collected)
  obtain ⟨⟨object, isModel⟩, fields⟩ := modelled _ List.mem_cons_self
  exact ⟨later, built, object, isModel, fields object isModel _ List.mem_cons_self⟩

end Environment

end ResponseShape

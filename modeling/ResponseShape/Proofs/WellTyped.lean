import ResponseShape.Proofs.Inventory
import ResponseShape.Proofs.Schedules

/-!
# Response models agree with the schema

A response model is well typed at a position (`TypeModel.WellTyped`) when its schema type resolves
to a definition of the model's own kind, its fields have distinct response names, and every field
repeats what that definition declares under the field's name and lies one segment below the
position. The models of an interface or a union and of its implementations share one position.

When the types of a schema have distinct names, what is planned for a position is well typed there
(`Environment.Plans.wellTyped`). Models stay as they are once they were added, so every state that
a traversal passes through has well typed models only (`Environment.TypedUpTo`), and so have the
operations in the end (`Environment.wellTyped_of_completesAll`). Nothing here asks whether the
fragments were accepted, nor how many passes there are.
-/

set_option autoImplicit false

namespace ResponseShape

/-! ## Well typed models -/

/-- The kind of the types that such models are made for. -/
def TypeModel.kind : TypeModel → TypeKind
  | enum _ => .enum
  | input _ => .inputObject
  | object _ => .object
  | interface _ => .interface
  | union _ => .union

/-- The field repeats what the type declares, and lies one segment below the path. -/
structure OutputFieldModel.DeclaredBy (field : OutputFieldModel) (type : TypeDefinition)
    (path : Path) : Prop where
  declared : ∃ declaration, type.field? field.fieldName = some declaration ∧
    field.description = declaration.description ∧ field.fieldType = declaration.type.render
  path : field.path = path.child field.responseName

/-- The model is of a type of its kind, and its fields repeat what the type declares, one field a
response name. -/
def TypeModel.WellTyped (model : TypeModel) (schema : Schema) (path : Path) : Prop :=
  ∃ type, schema.type? model.schemaType = some type ∧ type.kind = model.kind ∧
    (model.fields.map OutputFieldModel.responseName).Nodup ∧
    ∀ field ∈ model.fields, field.DeclaredBy type path

/-! ## Planned positions -/

theorem Schema.type?_of_mem_types {schema : Schema}
    (distinct : (schema.types.map TypeDefinition.name).Nodup) {type : TypeDefinition}
    (member : type ∈ schema.types) : schema.type? type.name = some type :=
  OrderedSet.find?_key_eq distinct member

/-- The possible types of an interface or a union are object types. -/
theorem Schema.kind_of_mem_possibleTypes {schema : Schema} {type runtime : TypeDefinition}
    (possible : runtime ∈ schema.possibleTypes type)
    (notObject : type.kind = .interface ∨ type.kind = .union) : runtime.kind = .object := by
  obtain ⟨name, description, directives, content⟩ := type
  cases content with
  | interface interfaces fields =>
      have both := (List.mem_filter.mp possible).2
      rw [Bool.and_eq_true] at both
      exact beq_iff_eq.mp both.1
  | union members =>
      obtain ⟨member, _, found⟩ := List.mem_filterMap.mp possible
      exact beq_iff_eq.mp (Option.filter_eq_some_iff.mp found).2
  | scalar | object | enum | inputObject =>
      simp [TypeDefinition.kind, TypeContent.kind] at notObject

namespace Environment

variable {environment : Environment} {type : TypeDefinition} {task : Task} {plan : Plan}
  {variant : Variant PlannedField}

/-- Every variant of a plan is of a possible type of the task's type. -/
theorem PlanParts.exists_possible (parts : environment.PlanParts task type plan)
    (isVariant : variant ∈ plan.variants) :
    ∃ runtime ∈ environment.schema.possibleTypes type, runtime.name = variant.typeName := by
  obtain ⟨found, collects, _, plans⟩ := parts.own
  obtain ⟨whole, isWhole, typeName, _⟩ := exists_left_of_mem plans isVariant
  have named : whole.typeName ∈ found.flatten.map Variant.typeName := by
    rw [← OrderedSet.mem_ofList, ← Variant.map_typeName_joined]
    exact List.mem_map_of_mem isWhole
  obtain ⟨chosen, isChosen, same⟩ := List.mem_map.mp named
  obtain ⟨variants, isFound, inVariants⟩ := List.mem_flatten.mp isChosen
  obtain ⟨occurrence, _, collected⟩ := exists_left_of_mem collects isFound
  obtain ⟨runtime, possible, runtimeName, _⟩ :=
    exists_left_of_mem (collect_eq_ok_iff.mp collected) inVariants
  exact ⟨runtime, possible, by rw [← runtimeName, same, typeName]⟩

theorem responseNames_of_plansFields {groups : List Occurrences} {fields : List PlannedField}
    (plans : List.Forall₂ environment.PlansField groups fields) :
    fields.map (fun field => field.occurrences.responseName) =
      groups.map Occurrences.responseName := by
  refine (forall₂_map_eq (fun occurrences field here => ?_) plans).symm
  rw [PlansField.same here]

/-- A variant has one field a response name. -/
theorem PlanParts.nodup_responseNames (parts : environment.PlanParts task type plan)
    (isVariant : variant ∈ plan.variants) :
    (variant.fields.map (fun field => field.occurrences.responseName)).Nodup := by
  obtain ⟨found, _, _, plans⟩ := parts.own
  obtain ⟨whole, isWhole, _, fields⟩ := exists_left_of_mem plans isVariant
  rw [responseNames_of_plansFields fields, Variant.fields_of_mem_joined isWhole,
    Occurrences.map_responseName_groups]
  exact OrderedSet.nodup_ofList _

/-- An interface or a union has one field of its own a response name. -/
theorem PlanParts.nodup_sharedNames (parts : environment.PlanParts task type plan) :
    (plan.shared.map (fun field => field.occurrences.responseName)).Nodup := by
  rcases parts.onType with none | ⟨found, _, _, plans⟩
  · rw [none]
    exact List.nodup_nil
  · rw [responseNames_of_plansFields plans, Occurrences.map_responseName_groups]
    exact OrderedSet.nodup_ofList _

/-- Named fields have the response names of the planned ones. -/
theorem responseNames_of_namesFields {catalog : Catalog} {fields : List PlannedField}
    {models : List OutputFieldModel} (named : List.Forall₂ catalog.NamesField fields models) :
    models.map OutputFieldModel.responseName =
      fields.map (fun field => field.occurrences.responseName) := by
  refine (forall₂_map_eq (fun field model here => ?_) named).symm
  exact (Catalog.NamesField.responseName here).symm

/-- A named field repeats the declaration that was planned. -/
theorem declaredBy_of_namesField {catalog : Catalog} {field : PlannedField}
    {model : OutputFieldModel} (named : catalog.NamesField field model)
    (declared : type.field? field.occurrences.first.definition.name =
      some field.occurrences.first.definition)
    (placed : field.occurrences.path = task.path.child field.occurrences.responseName) :
    model.DeclaredBy type task.path := by
  constructor
  · exact ⟨field.occurrences.first.definition, named.fieldName ▸ declared, named.description,
      named.fieldType⟩
  · rw [named.path, named.responseName, placed]

/-- **The model of a variant is well typed** when the variant's name resolves to an object type. -/
theorem PlanParts.wellTyped_of_variant (parts : environment.PlanParts task type plan)
    (distinct : (environment.schema.types.map TypeDefinition.name).Nodup)
    (isVariant : variant ∈ plan.variants) {runtime : TypeDefinition}
    (known : environment.schema.type? variant.typeName = some runtime)
    (isObject : runtime.kind = .object) {catalog : Catalog} {object : ObjectModel}
    (named : catalog.NamesVariant variant object) :
    (TypeModel.object object).WellTyped environment.schema task.path := by
  refine ⟨runtime, ?_, isObject, ?_, ?_⟩
  · rw [TypeModel.schemaType, named.schemaType]
    exact known
  · rw [TypeModel.fields, responseNames_of_namesFields named.fields]
    exact parts.nodup_responseNames isVariant
  · intro model isModel
    obtain ⟨field, isField, names⟩ := exists_left_of_mem named.fields isModel
    obtain ⟨declaring, isType, sameName, declared⟩ := parts.exists_type_of_variant isVariant isField
    have resolved := Schema.type?_of_mem_types distinct isType
    rw [sameName, known] at resolved
    obtain rfl := Option.some.inj resolved
    exact declaredBy_of_namesField names declared
      (parts.path_of_field (Plan.mem_fields.mpr (.inl ⟨variant, isVariant, isField⟩)))

/-- **The fields of an interface or a union are those that it declares.** -/
theorem PlanParts.declaredBy_of_shared (parts : environment.PlanParts task type plan)
    {catalog : Catalog} {models : List OutputFieldModel}
    (named : List.Forall₂ catalog.NamesField plan.shared models) :
    (models.map OutputFieldModel.responseName).Nodup ∧
      ∀ model ∈ models, model.DeclaredBy type task.path := by
  constructor
  · rw [responseNames_of_namesFields named]
    exact parts.nodup_sharedNames
  · intro model isModel
    obtain ⟨field, isField, names⟩ := exists_left_of_mem named isModel
    exact declaredBy_of_namesField names (parts.field?_of_shared isField)
      (parts.path_of_field (Plan.mem_fields.mpr (.inr isField)))

/-- The models of the variants of an interface or a union are well typed. -/
theorem PlanParts.wellTyped_of_variants (parts : environment.PlanParts task type plan)
    (distinct : (environment.schema.types.map TypeDefinition.name).Nodup)
    (isAbstract : type.kind = .interface ∨ type.kind = .union) {catalog : Catalog}
    {objects : List ObjectModel}
    (named : List.Forall₂ catalog.NamesVariant plan.variants objects) :
    ∀ object ∈ objects, (TypeModel.object object).WellTyped environment.schema task.path := by
  intro object isObject
  obtain ⟨variant, isVariant, names⟩ := exists_left_of_mem named isObject
  obtain ⟨runtime, possible, sameName⟩ := parts.exists_possible isVariant
  have known := Schema.type?_of_mem_types distinct (Schema.mem_types_of_mem_possibleTypes possible)
  rw [sameName] at known
  exact parts.wellTyped_of_variant distinct isVariant known
    (Schema.kind_of_mem_possibleTypes possible isAbstract) names

/-- **The models of a planned position are well typed at its path.** -/
theorem Plans.wellTyped (plans : environment.Plans task plan)
    (distinct : (environment.schema.types.map TypeDefinition.name).Nodup) {catalog : Catalog}
    {own : TypeModel} {objects : List ObjectModel} (named : catalog.NamesPlan plan own objects) :
    own.WellTyped environment.schema task.path ∧
      ∀ object ∈ objects, (TypeModel.object object).WellTyped environment.schema task.path := by
  have schemaType := plans.schemaType named
  cases plans with
  | leaf => cases named
  | object known collected kind fields =>
      have parts := (Plans.object known collected kind fields).parts known
        (by rw [TypeDefinition.isComposite, kind])
      cases named with
      | object names =>
          refine ⟨parts.wellTyped_of_variant distinct (List.mem_singleton_self _) ?_ kind names,
            List.forall_mem_nil _⟩
          exact (Schema.name_of_type? known).symm ▸ known
  | interface known collected kind abstract =>
      have parts := (Plans.interface known collected kind abstract).parts known
        (by rw [TypeDefinition.isComposite, kind])
      cases named with
      | interface names =>
          have fields := parts.declaredBy_of_shared names.fields
          exact ⟨⟨_, schemaType ▸ known, kind, fields⟩,
            parts.wellTyped_of_variants distinct (.inl kind) names.variants⟩
  | union known collected kind abstract =>
      have parts := (Plans.union known collected kind abstract).parts known
        (by rw [TypeDefinition.isComposite, kind])
      cases named with
      | union names =>
          have fields := parts.declaredBy_of_shared names.fields
          exact ⟨⟨_, schemaType ▸ known, kind, fields⟩,
            parts.wellTyped_of_variants distinct (.inr kind) names.variants⟩

end Environment

/-! ## What steps keep, traversals keep -/

namespace Environment

section Keeping

variable {environment : Environment} {policy : NamePolicy} {holds : Progress → Prop}
  {allows : Task → Prop} (keeps : ∀ before task after children, holds before → allows task →
    environment.step policy before task = .ok (after, children) →
      holds after ∧ ∀ child ∈ children, allows child)

include keeps

theorem holds_of_pass {tasks left : List Task} {before after : Progress} (start : holds before)
    (allowed : ∀ task ∈ tasks, allows task)
    (passed : environment.pass policy before tasks = .ok (after, left)) :
    holds after ∧ ∀ child ∈ left, allows child := by
  induction tasks generalizing before left with
  | nil =>
      obtain ⟨rfl, rfl⟩ := Prod.mk.inj (Except.ok.inj passed)
      exact ⟨start, fun _ isLeft => nomatch isLeft⟩
  | cons task rest ih =>
      obtain ⟨between, leftByFirst, leftByRest, first, rests, rfl⟩ :=
        pass_cons_eq_ok_iff.mp passed
      have here := keeps before task between leftByFirst start
        (allowed task List.mem_cons_self) first
      have later := ih here.1 (fun other member => allowed other (List.mem_cons_of_mem _ member))
        rests
      refine ⟨later.1, fun child isChild => ?_⟩
      rcases List.mem_append.mp isChild with byFirst | byRest
      · exact here.2 child byFirst
      · exact later.2 child byRest

/-- **What every step keeps holds at the end of a traversal**, however many passes it takes. -/
theorem holds_of_drains {tasks : List Task} {before final : Progress} {passes : Nat}
    {outcome : Outcome Progress} (drains : environment.Drains policy before tasks passes outcome)
    (succeeded : outcome = .ok final) (start : holds before)
    (allowed : ∀ task ∈ tasks, allows task) : holds final := by
  induction drains with
  | done =>
      obtain rfl := Except.ok.inj succeeded
      exact start
  | failed => cases succeeded
  | pass passed _ ih =>
      obtain ⟨here, allowedLeft⟩ := holds_of_pass keeps start allowed passed
      exact ih succeeded here allowedLeft

end Keeping

end Environment

/-! ## Well typed states -/

namespace Catalog

variable {catalog later : Catalog} {schema : Schema} {path : Path} {name : String}
  {own model : TypeModel} {objects : List ObjectModel}

/-- The model belongs to the position whose model has the name: it is that model, or the model of
one of its implementations. -/
def Belongs (catalog : Catalog) (name : String) (model : TypeModel) : Prop :=
  ∃ own, catalog.models.get? name = some own ∧
    (model = own ∨
      model.name ∈ own.implementations ∧ catalog.models.get? model.name = some model)

/-- The models of the position are found by their names, and are well typed there. -/
structure TypedAt (catalog : Catalog) (schema : Schema) (path : Path) (own : TypeModel)
    (objects : List ObjectModel) : Prop where
  registers : catalog.Registers own objects
  implementations : own.implementations = objects.map ObjectModel.name
  own : own.WellTyped schema path
  objects : ∀ object ∈ objects, (TypeModel.object object).WellTyped schema path

theorem Belongs.mono (grows : catalog.Grows later) (belongs : catalog.Belongs name model) :
    later.Belongs name model := by
  obtain ⟨own, found, same | ⟨isImplementation, registered⟩⟩ := belongs
  · exact ⟨own, grows.model found, .inl same⟩
  · exact ⟨own, grows.model found, .inr ⟨isImplementation, grows.model registered⟩⟩

theorem TypedAt.mono (grows : catalog.Grows later)
    (typed : catalog.TypedAt schema path own objects) : later.TypedAt schema path own objects :=
  { typed with registers := fun entry member => grows.model (typed.registers entry member) }

/-- What belongs to a position is well typed there. -/
theorem TypedAt.wellTyped (typed : catalog.TypedAt schema path own objects)
    (belongs : catalog.Belongs own.name model) : model.WellTyped schema path := by
  obtain ⟨other, found, position⟩ := belongs
  obtain rfl := Option.some.inj (typed.registers.get?_own.symm.trans found)
  rcases position with rfl | ⟨isImplementation, registered⟩
  · exact typed.own
  · rw [typed.implementations] at isImplementation
    obtain ⟨object, isObject, same⟩ := List.mem_map.mp isImplementation
    have here := typed.registers.get?_object isObject
    rw [same, registered] at here
    rw [Option.some.inj here]
    exact typed.objects object isObject

/-- The models of a position belong to it. -/
theorem Registers.belongs (registers : catalog.Registers own objects)
    (implementations : own.implementations = objects.map ObjectModel.name)
    {entry : String × TypeModel} (member : entry ∈ own.entries objects) :
    catalog.Belongs own.name entry.2 := by
  have registered := registers entry member
  obtain ⟨model, isModel, rfl⟩ := List.mem_map.mp member
  refine ⟨own, registers.get?_own, ?_⟩
  rcases List.mem_cons.mp isModel with rfl | isObject
  · exact .inl rfl
  · obtain ⟨object, here, rfl⟩ := List.mem_map.mp isObject
    refine .inr ⟨?_, registered⟩
    rw [implementations]
    exact List.mem_map_of_mem here

end Catalog

/-- All models at the paths of an operation are well typed, and a model that was not there before
the operation is at one of them. The name of a path below the root was given to that path. -/
structure TypedUpTo (schema : Schema) (earlier : Catalog) (root : Path) (progress : Progress) :
    Prop where
  grows : earlier.Grows progress.catalog
  typed : ∀ path name, progress.paths.get? path = some name →
    ∃ own objects, own.name = name ∧ progress.catalog.TypedAt schema path own objects
  placed : ∀ name model, progress.catalog.models.get? name = some model →
    earlier.models.get? name = some model ∨
      ∃ path given, progress.paths.get? path = some given ∧ progress.catalog.Belongs given model
  named : ∀ path name, progress.paths.get? path = some name →
    path = root ∨ progress.catalog.nameOf? (.field path) = some name

namespace TypedUpTo

variable {schema : Schema} {earlier : Catalog} {root path : Path} {before after : Progress}
  {owner : NameOwner} {plan : Plan} {own : TypeModel} {objects : List ObjectModel}

theorem start (schema : Schema) (catalog : Catalog) (root : Path) :
    TypedUpTo schema catalog root ⟨catalog, OrderedMap.empty⟩ := by
  refine ⟨.refl catalog, ?_, fun name model found => .inl found, ?_⟩
  · intro path name found
    cases found
  · intro path name found
    cases found

/-- A model was there before its plan was realized, or is one of those that realize it. -/
theorem known_or_new (realized : before.Realizes after owner path plan own objects) {name : String}
    {model : TypeModel} (found : after.catalog.models.get? name = some model) :
    before.catalog.models.get? name = some model ∨ (name, model) ∈ own.entries objects := by
  have entry := OrderedMap.mem_entries_of_get? found
  rw [realized.models, List.mem_append] at entry
  rcases entry with old | new
  · have isKey : name ∈ before.catalog.models.keys := List.mem_map_of_mem old
    obtain ⟨known, isKnown⟩ :=
      Option.isSome_iff_exists.mp (OrderedMap.contains_iff_mem_keys.mpr isKey)
    obtain rfl := Option.some.inj (found.symm.trans (realized.grows.model isKnown))
    exact .inl isKnown
  · exact .inr new

/-- A path that had a model keeps it when a plan is realized, because its name was given to it. -/
theorem get?_paths (upTo : TypedUpTo schema earlier root before)
    (realized : before.Realizes after owner path plan own objects)
    (placed : before.paths.get? path = none ∧ path = root ∨ owner = .field path ∧ path ≠ root)
    {other : Path} {name : String} (found : before.paths.get? other = some name) :
    after.paths.get? other = some name := by
  rw [realized.paths, OrderedMap.get?_insert]
  by_cases same : other = path
  · subst same
    rcases placed with ⟨absent, _⟩ | ⟨rfl, notRoot⟩
    · rw [absent] at found
      cases found
    · have given := realized.grows.names _ _ ((upTo.named other name found).resolve_left notRoot)
      rw [realized.owner] at given
      rw [if_pos rfl, given]
  · rw [if_neg same]
    exact found

/-- **Realizing a plan of well typed models keeps all models well typed.** -/
theorem realizes (upTo : TypedUpTo schema earlier root before)
    (realized : before.Realizes after owner path plan own objects)
    (wellTyped : own.WellTyped schema path)
    (objectsTyped : ∀ object ∈ objects, (TypeModel.object object).WellTyped schema path)
    (placed : before.paths.get? path = none ∧ path = root ∨
      owner = .field path ∧ path ≠ root) :
    TypedUpTo schema earlier root after := by
  have implementations := realized.names.implementations_eq
  have here : after.catalog.TypedAt schema path own objects :=
    ⟨realized.registered, implementations, wellTyped, objectsTyped⟩
  have atPath : after.paths.get? path = some own.name := by
    rw [realized.paths, OrderedMap.get?_insert, if_pos rfl]
  refine ⟨upTo.grows.trans realized.grows, ?_, ?_, ?_⟩
  · intro other name found
    rw [realized.paths, OrderedMap.get?_insert] at found
    by_cases same : other = path
    · subst same
      rw [if_pos rfl] at found
      exact ⟨own, objects, Option.some.inj found, here⟩
    · rw [if_neg same] at found
      obtain ⟨known, implementing, isNamed, typed⟩ := upTo.typed other name found
      exact ⟨known, implementing, isNamed, typed.mono realized.grows⟩
  · intro name model found
    rcases known_or_new realized found with known | new
    · rcases upTo.placed name model known with atStart | ⟨other, given, isPath, belongs⟩
      · exact .inl atStart
      · exact .inr ⟨other, given, upTo.get?_paths realized placed isPath,
          belongs.mono realized.grows⟩
    · exact .inr ⟨path, own.name, atPath,
        Catalog.Registers.belongs realized.registered implementations new⟩
  · intro other name found
    rw [realized.paths, OrderedMap.get?_insert] at found
    by_cases same : other = path
    · subst same
      rw [if_pos rfl] at found
      rcases placed with ⟨_, isRoot⟩ | ⟨rfl, _⟩
      · exact .inl isRoot
      · rw [← Option.some.inj found]
        exact .inr realized.owner
    · rw [if_neg same] at found
      exact (upTo.named other name found).imp_right (realized.grows.names _ _)

end TypedUpTo

namespace Environment

variable {environment : Environment} {policy : NamePolicy} {catalog later : Catalog}
  {operation : OperationDefinition} {model : OperationModel}
  (distinct : (environment.schema.types.map TypeDefinition.name).Nodup)

include distinct

/-- **A step keeps all models well typed**, and leaves tasks below the root. -/
theorem typedUpTo_of_step {earlier : Catalog} {name : String} {before after : Progress}
    {task : Task} {children : List Task}
    (upTo : TypedUpTo environment.schema earlier (Path.root name) before)
    (pending : environment.IsComposite task ∧ 1 < task.path.depth)
    (done : environment.step policy before task = .ok (after, children)) :
    TypedUpTo environment.schema earlier (Path.root name) after ∧
      ∀ child ∈ children, environment.IsComposite child ∧ 1 < child.path.depth := by
  obtain ⟨plan, own, objects, plans, rfl, realized⟩ := step_eq_ok pending.1 done
  obtain ⟨ownTyped, objectsTyped⟩ := plans.wellTyped distinct realized.names
  have notRoot : task.path ≠ Path.root name := by
    intro same
    have deep := pending.2
    rw [same] at deep
    exact Nat.lt_irrefl 1 deep
  refine ⟨upTo.realizes realized ownTyped objectsTyped (.inr ⟨rfl, notRoot⟩), ?_⟩
  intro child isChild
  refine ⟨plans.isComposite_of_task pending.1 child isChild, ?_⟩
  rw [plans.path_of_task pending.1 child isChild, Path.depth_child]
  exact Nat.lt_succ_of_lt pending.2

/-- An operation that is started has a well typed root, and its tasks lie below the root. -/
theorem typedUpTo_of_start {traversal : Traversal}
    (started : environment.start policy catalog operation = .ok traversal) :
    TypedUpTo environment.schema catalog (Path.root traversal.name) traversal.progress ∧
      ∀ task ∈ traversal.tasks, environment.IsComposite task ∧ 1 < task.path.depth := by
  have composite := isComposite_of_start started
  obtain ⟨name, root, fields, _, found, planned, realizing⟩ := start_eq_ok_iff.mp started
  obtain ⟨object, realized, same⟩ := realizes_of_startWith realizing
  obtain ⟨known, isObject⟩ := Schema.root?_eq_some found
  have plans := (planRoot_eq_ok_iff known isObject).mp planned
  obtain ⟨ownTyped, objectsTyped⟩ := plans.wellTyped distinct realized.names
  have named : traversal.name = name := congrArg Traversal.name same
  rw [named]
  refine ⟨(TypedUpTo.start environment.schema catalog (Path.root name)).realizes realized ownTyped
    objectsTyped (.inl ⟨rfl, rfl⟩), ?_⟩
  intro task isTask
  refine ⟨composite task isTask, ?_⟩
  rw [same] at isTask
  rw [plans.path_of_task (isComposite_root found _ _) task isTask, Path.depth_child]
  exact Nat.one_lt_succ_succ 0

/-- **The models of an operation are well typed.** -/
theorem Completes.typedUpTo
    (completes : environment.Completes policy catalog operation (.ok (later, model))) :
    TypedUpTo environment.schema catalog (Path.root model.name) ⟨later, model.paths⟩ := by
  obtain ⟨traversal, passes, final, started, drains, result⟩ := completes_ok_iff.mp completes
  obtain ⟨rfl, rfl⟩ := Prod.mk.inj result
  obtain ⟨upTo, allowed⟩ := typedUpTo_of_start distinct started
  have keeps : ∀ before task after children,
      TypedUpTo environment.schema catalog (Path.root traversal.name) before →
        (environment.IsComposite task ∧ 1 < task.path.depth) →
        environment.step policy before task = .ok (after, children) →
          TypedUpTo environment.schema catalog (Path.root traversal.name) after ∧
            ∀ child ∈ children, environment.IsComposite child ∧ 1 < child.path.depth := by
    intro before task after children here pending done
    exact typedUpTo_of_step distinct here pending done
  exact holds_of_drains keeps drains rfl upTo allowed

/-- Operations keep the models of those before them, and each places its own. -/
theorem CompletesAll.typed {operations : List OperationDefinition} {models : List OperationModel}
    (completes : environment.CompletesAll policy catalog operations (.ok (later, models))) :
    catalog.Grows later ∧
      (∀ name model, later.models.get? name = some model →
        catalog.models.get? name = some model ∨ ∃ operation ∈ models, ∃ path given,
          operation.paths.get? path = some given ∧ later.Belongs given model) ∧
      ∀ operation ∈ models, ∀ path given, operation.paths.get? path = some given →
        ∀ model, later.Belongs given model → model.WellTyped environment.schema path := by
  induction operations generalizing catalog models with
  | nil =>
      cases completes
      exact ⟨.refl _, fun name model found => .inl found, fun _ member => nomatch member⟩
  | cons operation rest ih =>
      obtain ⟨next, first, others, here, completesRest, rfl⟩ :=
        completesAll_cons_ok_iff.mp completes
      have upTo := here.typedUpTo distinct
      obtain ⟨grows, placed, typed⟩ := ih completesRest
      refine ⟨upTo.grows.trans grows, ?_, ?_⟩
      · intro name model found
        rcases placed name model found with before | ⟨later, isLater, place⟩
        · rcases upTo.placed name model before with atStart | ⟨path, given, isPath, belongs⟩
          · exact .inl atStart
          · exact .inr ⟨first, List.mem_cons_self, path, given, isPath, belongs.mono grows⟩
        · exact .inr ⟨later, List.mem_cons_of_mem _ isLater, place⟩
      · intro operation member path given isPath model belongs
        rcases List.mem_cons.mp member with rfl | isLater
        · obtain ⟨own, objects, rfl, typedAt⟩ := upTo.typed path given isPath
          exact (typedAt.mono grows).wellTyped belongs
        · exact typed operation isLater path given isPath model belongs

/-- **Every response model is well typed.** When the types of the schema have distinct names, there
is no response model at the start, and the operations are completed with a result, in however many
passes and whether or not fragments reach themselves, then every response model in the end belongs
to a position of one of the operations, and it is well typed at each position that it belongs to. -/
theorem wellTyped_of_completesAll
    (fresh : ∀ name model, catalog.models.get? name = some model → model.isResponse = false)
    {operations : List OperationDefinition} {models : List OperationModel}
    (completes : environment.CompletesAll policy catalog operations (.ok (later, models))) :
    environment.buildOperations policy catalog operations = .ok (later, models) ∧
    ∀ name model, later.models.get? name = some model → model.isResponse = true →
      (∃ operation ∈ models, ∃ path given, operation.paths.get? path = some given ∧
        later.Belongs given model) ∧
      ∀ operation ∈ models, ∀ path given, operation.paths.get? path = some given →
        later.Belongs given model → model.WellTyped environment.schema path := by
  refine ⟨buildOperations_of_completesAll completes, fun name model found response => ?_⟩
  obtain ⟨_, placed, typed⟩ := completes.typed distinct
  constructor
  · rcases placed name model found with atStart | place
    · rw [fresh name model atStart] at response
      cases response
    · exact place
  · intro operation member path given isPath belongs
    exact typed operation member path given isPath model belongs

end Environment

/-! ## Dogs, which implement a union -/

namespace Sample

/-- The model of the pets that are dogs. -/
def dogModel : ObjectModel :=
  ⟨"Dog", none, "Dog",
    [⟨"owner", "owner", none, "Person", ⟨["Q", "pet", "owner"]⟩, some "Person"⟩]⟩

end Sample

namespace Environment

open Sample

theorem wellTyped_of_dog :
    ∃ later operation, petEnvironment.CompletesAll ⟨[], []⟩ takenCatalog
        (Document.operations petDocuments) (.ok (later, [operation])) ∧
      operation.paths.get? ⟨["Q", "pet"]⟩ = some "Pet1" ∧ later.Belongs "Pet1" (.object dogModel) ∧
      (TypeModel.object dogModel).WellTyped petSchema ⟨["Q", "pet"]⟩ := by
  have computed : (petEnvironment.completeAllWithin ⟨[], []⟩ 4 takenCatalog
      (Document.operations petDocuments)).map (Except.map fun result =>
        (result.1.models.get? "Dog", (result.1.models.get? "Pet1").map TypeModel.implementations,
          result.2.map (fun operation => operation.paths.get? ⟨["Q", "pet"]⟩))) =
      some (.ok (some (.object dogModel), some ["Dog", "Cat"], [some "Pet1"])) := by
    decide +kernel
  obtain ⟨outcome, completed, read⟩ := Option.map_eq_some_iff.mp computed
  obtain ⟨⟨later, models⟩, rfl, same⟩ := map_eq_ok_iff.mp read
  have completes := completesAll_of_completeAllWithin completed
  obtain ⟨found, rest⟩ := Prod.mk.inj same
  obtain ⟨implementations, paths⟩ := Prod.mk.inj rest
  obtain ⟨operation, rfl, atPet⟩ := List.map_eq_singleton_iff.mp paths
  obtain ⟨pet, isPet, implementing⟩ := Option.map_eq_some_iff.mp implementations
  have belongs : later.Belongs "Pet1" (.object dogModel) :=
    ⟨pet, isPet, .inr ⟨implementing ▸ List.mem_cons_self, found⟩⟩
  have fresh : ∀ name model, takenCatalog.models.get? name = some model →
      model.isResponse = false := by
    intro name model found
    obtain ⟨_, rfl⟩ := Prod.mk.inj (List.mem_singleton.mp (OrderedMap.mem_entries_of_get? found))
    rfl
  have typed := (wellTyped_of_completesAll (by decide) fresh completes).2 "Dog" _ found rfl
  exact ⟨later, operation, completes, atPet, belongs,
    typed.2 operation List.mem_cons_self _ _ atPet belongs⟩

end Environment

end ResponseShape

import ResponseShape.Proofs.EnumLinks
import ResponseShape.Proofs.ExposedFields
import ResponseShape.Proofs.Implementations

/-!
# Fields that all implementations have

The fields that are selected on an interface or a union itself are found by a walk of their own, for
values of the abstract type. Another walk reads the same selections for each possible type. When
object types list what their interfaces list (`Schema.Inherits`) and unions list object types only
(`Schema.ListsObjects`), every fragment that applies to the abstract type applies to its possible
types (`Schema.appliesTo_of_possible`). So each of these walks comes to whatever the first one comes
to, wherever the fragments are spread, and every implementation has the fields of the abstract model
(`Environment.PlanParts.exists_of_shared`).

A shared field can be composite although the implementations declare a scalar, or the other way
round. When every composite one is composite in one of the variants, all tasks of the position come
from variants (`Plan.tasks_of_sharesComposites`).
-/

set_option autoImplicit false

namespace ResponseShape

/-! ## Fragments that apply to an abstract type -/

namespace Schema

/-- Every object type that lists an interface lists all interfaces that the interface lists. -/
def Inherits (schema : Schema) : Prop :=
  ∀ object ∈ schema.types, object.isObject = true → ∀ name ∈ object.interfaces,
    ∀ above ∈ schema.type? name, above.kind = .interface →
      ∀ further ∈ above.interfaces, further ∈ object.interfaces

/-- Every member of a union is the name of an object type. -/
def ListsObjects (schema : Schema) : Prop :=
  ∀ type ∈ schema.types, ∀ member ∈ type.members,
    ∃ object ∈ schema.type? member, object.isObject = true

instance (schema : Schema) : Decidable schema.Inherits :=
  inferInstanceAs (Decidable (∀ _ ∈ _, _))

instance (schema : Schema) : Decidable schema.ListsObjects :=
  inferInstanceAs (Decidable (∀ _ ∈ _, _))

variable {schema : Schema} {type runtime other : TypeDefinition} {name condition : String}

/-- An abstract type that lists an interface is one, and its possible types are object types that
list it. -/
theorem listed_of_possible (possible : runtime ∈ schema.possibleTypes type) {above : String}
    (lists : above ∈ type.interfaces) (isAbstract : type.kind = .interface ∨ type.kind = .union) :
    type.kind = .interface ∧ runtime.isObject = true ∧ type.name ∈ runtime.interfaces := by
  cases content : type.content with
  | interface =>
      simp only [possibleTypes, content] at possible
      have both := (List.mem_filter.mp possible).2
      rw [Bool.and_eq_true, TypeDefinition.implements, List.contains_iff_mem] at both
      exact ⟨by simp [TypeDefinition.kind, TypeContent.kind, content], both⟩
  | _ =>
      simp [TypeDefinition.interfaces, content, TypeDefinition.kind, TypeContent.kind]
        at lists isAbstract

/-- **What applies to an interface or a union applies to its possible types.** -/
theorem appliesTo_of_possible (inherits : schema.Inherits) (objects : schema.ListsObjects)
    (known : schema.type? name = some type)
    (isAbstract : type.kind = .interface ∨ type.kind = .union)
    (possible : runtime ∈ schema.possibleTypes type)
    (found : schema.type? condition = some other) (applies : other.appliesTo type = true) :
    other.appliesTo runtime = true := by
  have ofType := name_of_type? known
  have ofOther := name_of_type? found
  rcases Bool.or_eq_true_iff.mp applies with same | above
  · -- types of one name are found as one type
    have sameName : condition = name := by
      rw [← ofOther, ← ofType]
      exact beq_iff_eq.mp same
    obtain rfl := Option.some.inj ((sameName ▸ found).symm.trans known)
    exact appliesTo_of_mem_possibleTypes possible
  · apply Bool.or_eq_true_iff.mpr
    right
    cases kind : other.kind with
    | interface =>
        rw [kind] at above
        have isRuntime := mem_types_of_mem_possibleTypes possible
        rw [TypeDefinition.implements, List.contains_iff_mem] at above ⊢
        obtain ⟨isInterface, isObject, lists⟩ := listed_of_possible possible above isAbstract
        exact inherits runtime isRuntime isObject name (ofType ▸ lists) type known isInterface
          other.name above
    | union =>
        -- an interface or a union is not a member of a union
        rw [kind] at above
        obtain ⟨object, foundObject, isObject⟩ :=
          objects other (mem_types_of_type? found) type.name (List.contains_iff_mem.mp above)
        rw [ofType, known] at foundObject
        obtain rfl := Option.some.inj foundObject
        rcases isAbstract with abstract | abstract <;>
          simp [TypeDefinition.isObject, abstract] at isObject
    | object | scalar | enum | inputObject =>
        rw [kind] at above
        cases above

end Schema

/-! ## Shared fields -/

namespace Environment

variable {environment : Environment} {policy : NamePolicy} {task : Task} {type : TypeDefinition}
  {plan : Plan}

/-- **Every variant has the response names of the shared fields.** -/
theorem PlanParts.exists_of_shared (parts : environment.PlanParts task type plan)
    (inherits : environment.schema.Inherits) (objects : environment.schema.ListsObjects)
    (isAbstract : type.kind = .interface ∨ type.kind = .union) {field : PlannedField}
    (isField : field ∈ plan.shared) {variant : Variant PlannedField}
    (isVariant : variant ∈ plan.variants) :
    ∃ other ∈ variant.fields,
      other.occurrences.responseName = field.occurrences.responseName := by
  obtain ⟨named, occurrence, isOccurrence, fields, collected, here⟩ :=
    parts.exists_collected_shared isField field.occurrences.first List.mem_cons_self
  obtain ⟨runtime, possible, typeName⟩ := parts.exists_possible isVariant
  obtain ⟨selected, collectedThere, same, isSame, sameName, covered⟩ :=
    parts.exists_planned isOccurrence possible
  -- The selections of the occurrence were walked for the abstract type and for the possible type.
  have applies : ∀ condition other, environment.schema.type? condition = some other →
      other.appliesTo type = true → other.appliesTo runtime = true := fun condition other =>
    Schema.appliesTo_of_possible inherits objects parts.known isAbstract possible
  have names := map_responseName_subset (by simp [TypeDefinition.appliesTo]) applies
    (Schema.appliesTo_of_mem_possibleTypes possible) collected collectedThere
  obtain ⟨chosen, isChosen, chosenName⟩ := List.mem_map.mp (names (List.mem_map_of_mem here))
  obtain ⟨other, isOther, otherName, _⟩ := covered chosen isChosen
  obtain rfl := List.inj_on_of_nodup_map parts.nodup_typeNames isSame isVariant
    (sameName.trans typeName)
  exact ⟨other, isOther, by rw [otherName, chosenName, named]⟩

end Environment

/-! ## Tasks of shared fields -/

namespace TaskMap

theorem addMissing_of_mem {tasks : TaskMap} {task : Task} (present : task.path ∈ tasks.keys) :
    tasks.addMissing task = tasks := by
  rw [addMissing, if_pos (OrderedMap.contains_iff_mem_keys.mpr present)]

theorem foldl_addMissing_of_forall {tasks : TaskMap} {missing : List Task}
    (nothing : ∀ task ∈ missing, tasks.addMissing task = tasks) :
    missing.foldl addMissing tasks = tasks := by
  induction missing with
  | nil => rfl
  | cons task rest ih =>
      obtain ⟨here, later⟩ := List.forall_mem_cons.mp nothing
      rw [List.foldl_cons, here, ih later]

end TaskMap

namespace Plan

/-- Every shared field with a composite value is composite in one of the variants, under the same
response name. -/
def SharesComposites (plan : Plan) : Prop :=
  ∀ field ∈ plan.shared, field.value = .composite →
    ∃ variant ∈ plan.variants, ∃ other ∈ variant.fields, other.value = .composite ∧
      other.occurrences.responseName = field.occurrences.responseName

instance (plan : Plan) : Decidable plan.SharesComposites :=
  inferInstanceAs (Decidable (∀ _ ∈ _, _))

/-- The task comes from variants: all of its occurrences are occurrences of composite fields of
variants at its position. -/
def FromVariants (plan : Plan) (task : Task) : Prop :=
  ∀ occurrence ∈ task.occurrences.toList, ∃ variant ∈ plan.variants, ∃ field ∈ variant.fields,
    field.value = .composite ∧ field.occurrences.path = task.path ∧
      occurrence ∈ field.occurrences.toList

variable {environment : Environment} {task : Task} {type : TypeDefinition} {plan : Plan}

/-- **No shared field leaves a task when all composite ones are composite in variants.** -/
theorem tasks_of_sharesComposites (parts : environment.PlanParts task type plan)
    (shares : plan.SharesComposites) :
    ∃ tasks, TaskMap.joinAll OrderedMap.empty (Variant.tasks plan.variants) = .ok tasks ∧
      (∀ shared ∈ PlannedField.tasks plan.shared, tasks.addMissing shared = tasks) ∧
      plan.tasks = tasks.values ∧ ∀ child ∈ plan.tasks, plan.FromVariants child := by
  obtain ⟨tasks, joined⟩ := TaskMap.exists_joinAll parts.compatible
  have keys := (TaskMap.joinAll_empty_eq_ok joined).2.1
  have nothing : ∀ shared ∈ PlannedField.tasks plan.shared, tasks.addMissing shared = tasks := by
    intro shared isShared
    obtain ⟨field, isField, composite, rfl⟩ := PlannedField.mem_tasks.mp isShared
    obtain ⟨variant, isVariant, other, isOther, otherComposite, sameName⟩ :=
      shares field isField composite
    apply TaskMap.addMissing_of_mem
    rw [keys, OrderedSet.mem_ofList]
    refine List.mem_map.mpr ⟨Task.ofOccurrences other.occurrences, ?_, ?_⟩
    · exact Variant.mem_tasks.mpr ⟨variant, isVariant, other, isOther, otherComposite, rfl⟩
    · change other.occurrences.path = field.occurrences.path
      rw [parts.path_of_field (mem_fields.mpr (.inr isField)), ← sameName]
      exact parts.path_of_field (mem_fields.mpr (.inl ⟨variant, isVariant, isOther⟩))
  have values : plan.tasks = tasks.values := by
    rw [parts.tasks, ← TaskMap.values_foldl_addMissing joined,
      TaskMap.foldl_addMissing_of_forall nothing]
  refine ⟨tasks, joined, nothing, values, fun child isChild occurrence isOccurrence => ?_⟩
  have own : child ∈ Task.resolve (Variant.tasks plan.variants) [] := by
    rw [← TaskMap.values_foldl_addMissing joined]
    exact values ▸ isChild
  obtain ⟨origin, isOrigin, path, here⟩ :=
    (Task.origin_of_mem_resolve own).2 occurrence isOccurrence
  obtain ⟨variant, isVariant, field, isField, composite, rfl⟩ :=
    Variant.mem_tasks.mp (isOrigin.resolve_right List.not_mem_nil)
  exact ⟨variant, isVariant, field, isField, composite, path, here⟩

end Plan

namespace Environment

variable {environment : Environment} {policy : NamePolicy} {task : Task} {type : TypeDefinition}

/-- **Fields of an abstract model are common to all its implementations.** When object types list
what their interfaces list and unions list object types, the registered model of an interface or a
union has no response name that one of the registered implementations lacks. So shared fields leave
no tasks of their own if each composite one is composite in a variant. -/
theorem sharedFields_of_step (inherits : environment.schema.Inherits)
    (objects : environment.schema.ListsObjects)
    (known : environment.schema.type? task.namedType = some type)
    (isAbstract : type.kind = .interface ∨ type.kind = .union) {before after : Progress}
    {children : List Task}
    (stepped : environment.step policy before task = .ok (after, children)) :
    (∃ own, after.RegistersAt task.path type own ∧
      ∀ name ∈ own.implementations, ∃ object,
        after.catalog.models.get? name = some (.object object) ∧
          own.fields.map OutputFieldModel.responseName ⊆
            object.fields.map OutputFieldModel.responseName) ∧
    ∃ plan, environment.plan task = .ok plan ∧ children = plan.tasks ∧
      (plan.SharesComposites →
        ∃ tasks, TaskMap.joinAll OrderedMap.empty (Variant.tasks plan.variants) = .ok tasks ∧
          (∀ shared ∈ PlannedField.tasks plan.shared, tasks.addMissing shared = tasks) ∧
          children = tasks.values ∧ ∀ child ∈ children, plan.FromVariants child) := by
  obtain ⟨plan, own, models, plans, rfl, builds⟩ := exists_buildsAbstract known isAbstract stepped
  refine ⟨⟨own, builds.position, ?_⟩, plan, plan_eq_ok_iff.mpr plans, rfl,
    Plan.tasks_of_sharesComposites builds.parts⟩
  intro name isName
  rw [builds.implementations] at isName
  obtain ⟨object, isObject, rfl⟩ := List.mem_map.mp isName
  refine ⟨object, builds.registered object isObject, ?_⟩
  obtain ⟨variant, isVariant, names⟩ := exists_left_of_mem builds.variants isObject
  rw [responseNames_of_namesFields builds.fields, responseNames_of_namesFields names.fields]
  intro responseName isResponse
  obtain ⟨field, isField, rfl⟩ := List.mem_map.mp isResponse
  obtain ⟨other, isOther, same⟩ :=
    builds.parts.exists_of_shared inherits objects isAbstract isField isVariant
  exact List.mem_map.mpr ⟨other, isOther, same⟩

end Environment

/-! ## Animals that are pets -/

namespace Sample

/-- Pets are animals, dogs and cats are pets. -/
def animalType : TypeDefinition :=
  ⟨"Pet", none, [], .interface ["Animal"] [declare "owner" "Person"]⟩

def animalEnvironment : Environment where
  schema := ⟨[.type ⟨"Animal", none, [], .interface [] [declare "owner" "Person"]⟩,
    .type animalType,
    .type ⟨"Dog", none, [], .object ["Pet", "Animal"] [declare "owner" "Person"]⟩,
    .type ⟨"Cat", none, [], .object ["Animal", "Pet"] [declare "owner" "Person"]⟩,
    .type personType]⟩
  fragments := ⟨[⟨"OfAnimal", "Animal", [], ⟨1, 1⟩, ⟨⟨1, 1⟩, ⟨1, 1⟩⟩,
    [pick "owner" [pick "name" []]]⟩]⟩

/-- The owner is asked for where a fragment on animals is spread, on dogs and then on all pets. -/
def animalTask : Task :=
  ⟨.single (select "Pet" "pet" [onType "Dog" [.spread "OfAnimal" [] ⟨1, 1⟩],
    .spread "OfAnimal" [] ⟨1, 1⟩] ⟨["Q"]⟩), ⟨["Q", "pet"]⟩⟩

end Sample

namespace Environment

open Sample

theorem sharedFields_of_animals :
    ∃ after children, animalEnvironment.step ⟨[], []⟩ ⟨Catalog.empty, OrderedMap.empty⟩
        animalTask = .ok (after, children) ∧
      (∃ own, after.RegistersAt ⟨["Q", "pet"]⟩ animalType own ∧
        ∀ name ∈ own.implementations, ∃ object,
          after.catalog.models.get? name = some (.object object) ∧
            own.fields.map OutputFieldModel.responseName ⊆
              object.fields.map OutputFieldModel.responseName) ∧
      ∃ plan, animalEnvironment.plan animalTask = .ok plan ∧
        ∀ child ∈ children, plan.FromVariants child := by
  have done : (animalEnvironment.step ⟨[], []⟩ ⟨Catalog.empty, OrderedMap.empty⟩
      animalTask).map (fun _ => ()) = .ok () := by decide +kernel
  obtain ⟨⟨after, children⟩, stepped, _⟩ := map_eq_ok_iff.mp done
  obtain ⟨shares, plan, planned, _, fromVariants⟩ := sharedFields_of_step (by decide +kernel)
    (by decide +kernel) rfl (.inl rfl) stepped
  have composites : (animalEnvironment.plan animalTask).map
      (fun plan => decide plan.SharesComposites) = .ok true := by decide +kernel
  rw [planned] at composites
  obtain ⟨_, _, _, _, each⟩ := fromVariants (of_decide_eq_true (Except.ok.inj composites))
  exact ⟨after, children, stepped, shares, plan, planned, each⟩

end Environment

end ResponseShape

import Mathlib.Data.List.Forall2
import ResponseShape.Proofs.Allotting
import ResponseShape.Proofs.Running
import ResponseShape.Proofs.Schedules
import ResponseShape.Proofs.WellTyped

/-!
# The implementations of an interface or a union

The model of an interface or a union names the models of its implementations. There is one for each
name that a possible type has, in the order in which the names come first: definitions of one name
share a variant, and so do the selections of all occurrences. The variant has a field for each
response name that any of the occurrences selects on any of the definitions
(`Environment.Gathered`).

The implementations have different names because all of them were added to one catalog
(`Catalog.nodup_of_addAll`). So a step gives every possible type name a model of its own, whatever
the catalog was before (`Environment.implementations_of_step`).
-/

set_option autoImplicit false

namespace ResponseShape

/-! ## Models that were added -/

/-- **Models that are added have names that differ and that had no model.** -/
theorem Catalog.nodup_of_addAll {catalog later : Catalog} {models : List TypeModel}
    (added : catalog.addAll models = .ok later) :
    (models.map TypeModel.name).Nodup ∧ ∀ model ∈ models, model.name ∉ catalog.models.keys := by
  induction models generalizing catalog with
  | nil => simp
  | cons model rest ih =>
      rw [addAll, List.foldlM_cons, bind_eq_ok_iff] at added
      obtain ⟨next, first, others⟩ := added
      obtain ⟨absent, rfl⟩ := add_eq_ok_iff.mp first
      obtain ⟨distinct, new⟩ := ih others
      simp only [OrderedMap.keys_insert, OrderedSet.mem_add, not_or] at new
      constructor
      · rw [List.map_cons, List.nodup_cons]
        refine ⟨fun member => ?_, distinct⟩
        obtain ⟨other, isOther, same⟩ := List.mem_map.mp member
        exact (new other isOther).2 same
      · intro other member
        rcases List.mem_cons.mp member with rfl | later
        · exact absent
        · exact (new other later).1

/-- The model of the type is registered for the position at the path, under the position's name. -/
structure Progress.RegistersAt (progress : Progress) (path : Path) (type : TypeDefinition)
    (own : TypeModel) : Prop where
  named : progress.catalog.nameOf? (.field path) = some own.name
  built : progress.paths.get? path = some own.name
  registered : progress.catalog.models.get? own.name = some own
  kind : own.kind = type.kind
  schemaType : own.schemaType = type.name

namespace Progress.Realizes

variable {before after : Progress} {owner : NameOwner} {path : Path} {plan : Plan}
  {own : TypeModel} {objects : List ObjectModel}

/-- The models of a position differ in their names. -/
theorem nodup_names (realizes : before.Realizes after owner path plan own objects)
    {schema : Schema} {avoided : List String} (planned : plan ≠ .leaf)
    (realized : before.realize schema avoided path plan = .ok after) :
    (objects.map ObjectModel.name).Nodup := by
  obtain ⟨catalog, first, others, same, position⟩ :=
    before.exists_named schema avoided path planned
  rw [same] at realized
  obtain ⟨extended, adding, _⟩ := bind_eq_ok_iff.mp realized
  have distinct := (Catalog.nodup_of_addAll adding).1
  have added := (Progress.adds_of_addModels position realized).models
  -- The names that were added can be read off the catalog, so they are the names of the models.
  have entries : after.catalog.models.keys =
      before.catalog.models.keys ++ own.name :: objects.map ObjectModel.name := by
    rw [OrderedMap.keys, realizes.models, TypeModel.entries]
    simp [OrderedMap.keys, Function.comp_def, TypeModel.name]
  have names := List.append_cancel_left (added.symm.trans entries)
  rw [List.map_cons, List.map_map] at distinct
  change (first.name :: others.map ObjectModel.name).Nodup at distinct
  rw [names] at distinct
  exact (List.nodup_cons.mp distinct).2

end Progress.Realizes

/-! ## Variants of all occurrences -/

namespace OrderedSet

variable {α : Type} [DecidableEq α]

theorem addAll_flatten_of_forall {lists : List (List α)} {members same : List α}
    (alike : ∀ list ∈ lists, list = same) (subset : same ⊆ members) :
    addAll members lists.flatten = members := by
  apply addAll_of_subset
  intro item isItem
  obtain ⟨list, isList, here⟩ := List.mem_flatten.mp isItem
  exact subset (alike list isList ▸ here)

/-- Copies of a list have the members of one of them, in the same order. -/
theorem ofList_flatten_of_forall {lists : List (List α)} {same : List α}
    (alike : ∀ list ∈ lists, list = same) (nonempty : lists ≠ []) :
    ofList lists.flatten = ofList same := by
  cases lists with
  | nil => exact absurd rfl nonempty
  | cons first rest =>
      obtain ⟨rfl, others⟩ := List.forall_mem_cons.mp alike
      rw [List.flatten_cons, ofList, addAll_append]
      apply addAll_flatten_of_forall others
      intro item isItem
      exact mem_ofList.mpr isItem

end OrderedSet

namespace Environment

variable {environment : Environment} {policy : NamePolicy} {task : Task} {type : TypeDefinition}
  {plan : Plan}

/-- What the occurrences of a task select on the possible types of one name: occurrence by
occurrence, and for each occurrence definition by definition. -/
def Gathered (environment : Environment) (type : TypeDefinition) (task : Task)
    (typeName : String) (found : List (List (List SelectedField))) : Prop :=
  List.Forall₂
    (fun occurrence lists =>
      List.Forall₂
        (fun runtime fields =>
          environment.collectFor runtime type occurrence.node.items task.path = .ok fields)
        ((environment.schema.possibleTypes type).filter (fun runtime => runtime.name = typeName))
        lists)
    task.occurrences.toList found

/-- What an occurrence collects has the names of the possible types. -/
theorem map_typeName_of_collect {items : List Selection} {path : Path}
    {variants : List (Variant SelectedField)}
    (collected : environment.collect type items path = .ok variants) :
    variants.map Variant.typeName =
      (environment.schema.possibleTypes type).map TypeDefinition.name :=
  (forall₂_map_eq (fun _ _ here => here.1.symm) (collect_eq_ok_iff.mp collected)).symm

/-- **A task has one variant for each name of a possible type.** -/
theorem Collects.map_typeName_joined {found : List (List (Variant SelectedField))}
    (collects : environment.Collects type task found) :
    (Variant.joined found.flatten).map Variant.typeName =
      OrderedSet.ofList ((environment.schema.possibleTypes type).map TypeDefinition.name) := by
  rw [Variant.map_typeName_joined, List.map_flatten]
  apply OrderedSet.ofList_flatten_of_forall
  · intro names isNames
    obtain ⟨variants, isFound, rfl⟩ := List.mem_map.mp isNames
    obtain ⟨occurrence, _, collected⟩ := exists_left_of_mem collects isFound
    exact map_typeName_of_collect collected
  · intro none
    obtain ⟨variants, isFound, _⟩ := exists_right_of_mem collects List.mem_cons_self
    simp [List.map_eq_nil_iff.mp none] at isFound

/-- The fields of a variant are what the occurrences select on the definitions of its name. -/
theorem Collects.exists_gathered {found : List (List (Variant SelectedField))}
    (collects : environment.Collects type task found) (typeName : String) :
    ∃ gathered, environment.Gathered type task typeName gathered ∧
      gathered.flatten.flatten = Variant.fieldsOf found.flatten typeName := by
  refine ⟨found.map (fun variants =>
    (variants.filter (fun variant => variant.typeName = typeName)).map Variant.fields), ?_, ?_⟩
  · rw [Gathered, List.forall₂_map_right_iff]
    refine collects.imp fun occurrence variants collected => ?_
    rw [List.forall₂_map_right_iff]
    have each := collect_eq_ok_iff.mp collected
    have kept := List.rel_filter (p := fun runtime => decide (runtime.name = typeName))
      (q := fun variant => decide (variant.typeName = typeName))
      (fun runtime variant here => by simp [here.1]) each
    exact kept.imp fun _ _ here => here.2
  · rw [Variant.fieldsOf, List.filter_flatten, List.flatMap_def, List.map_flatten, List.map_map]
    rfl

/-- **Every variant has one field for each response name** that an occurrence selects on a
definition of its name. -/
theorem PlanParts.exists_gathered (parts : environment.PlanParts task type plan)
    {variant : Variant PlannedField} (isVariant : variant ∈ plan.variants) :
    ∃ gathered, environment.Gathered type task variant.typeName gathered ∧
      variant.fields.map (fun field => field.occurrences.responseName) =
        OrderedSet.ofList (gathered.flatten.flatten.map SelectedField.responseName) := by
  obtain ⟨found, collects, _, plans⟩ := parts.own
  obtain ⟨whole, isWhole, typeName, fields⟩ := exists_left_of_mem plans isVariant
  obtain ⟨gathered, here, same⟩ := Collects.exists_gathered collects variant.typeName
  refine ⟨gathered, here, ?_⟩
  rw [responseNames_of_plansFields fields, Variant.fields_of_mem_joined isWhole,
    Occurrences.map_responseName_groups, same, typeName]

theorem PlanParts.map_typeName_variants (parts : environment.PlanParts task type plan) :
    plan.variants.map Variant.typeName =
      OrderedSet.ofList ((environment.schema.possibleTypes type).map TypeDefinition.name) := by
  obtain ⟨found, collects, _, plans⟩ := parts.own
  rw [← Collects.map_typeName_joined collects]
  refine (forall₂_map_eq (fun whole variant here => ?_) plans).symm
  exact (PlansVariant.typeName here).symm

/-! ## The step at an interface or a union -/

/-- What a step at the position of an interface or a union has built: the model of the position and
the models of its implementations, for the planned fields. -/
structure BuildsAbstract (environment : Environment) (task : Task) (type : TypeDefinition)
    (after : Progress) (plan : Plan) (own : TypeModel) (objects : List ObjectModel) : Prop where
  parts : environment.PlanParts task type plan
  position : after.RegistersAt task.path type own
  implementations : own.implementations = objects.map ObjectModel.name
  distinct : own.implementations.Nodup
  registered : ∀ object ∈ objects, after.catalog.models.get? object.name = some (.object object)
  variants : List.Forall₂ after.catalog.NamesVariant plan.variants objects
  fields : List.Forall₂ after.catalog.NamesField plan.shared own.fields

/-- **A step at an interface or a union builds its model and the models of its variants.** -/
theorem exists_buildsAbstract (known : environment.schema.type? task.namedType = some type)
    (isAbstract : type.kind = .interface ∨ type.kind = .union) {before after : Progress}
    {children : List Task}
    (stepped : environment.step policy before task = .ok (after, children)) :
    ∃ plan own objects, environment.Plans task plan ∧ children = plan.tasks ∧
      environment.BuildsAbstract task type after plan own objects := by
  have composite : type.isComposite = true := by
    rcases isAbstract with kind | kind <;> simp [TypeDefinition.isComposite, kind]
  obtain ⟨plan, plans, rfl, realized⟩ := step_eq_ok_iff.mp stepped
  have planned : plan ≠ .leaf := plans.ne_leaf ⟨type, known, composite⟩
  obtain ⟨own, objects, realizes⟩ := Progress.realizes_of_realize planned realized
  have parts := plans.parts known composite
  have distinct := realizes.nodup_names planned realized
  have nodup : ∀ {names : List String}, names = objects.map ObjectModel.name → names.Nodup :=
    fun same => same ▸ distinct
  have registers : after.catalog.Registers own objects := realizes.registered
  have built : after.paths.get? task.path = some own.name := by
    rw [realizes.paths, OrderedMap.get?_insert, if_pos rfl]
  have sameType : own.schemaType = type.name := by
    rw [plans.schemaType realizes.names, Schema.name_of_type? known]
  have objectsFound : ∀ object ∈ objects,
      after.catalog.models.get? object.name = some (.object object) :=
    fun _ isObject => registers.get?_object isObject
  refine ⟨plan, own, objects, plans, rfl, ?_⟩
  have names := realizes.names
  cases plans with
  | leaf => exact absurd rfl planned
  | object found _ kind _ =>
      obtain rfl := Option.some.inj (found.symm.trans known)
      rcases isAbstract with other | other <;> simp [kind] at other
  | interface found _ kind _ =>
      obtain rfl := Option.some.inj (found.symm.trans known)
      cases names with
      | interface here =>
          exact ⟨parts, ⟨realizes.owner, built, registers.get?_own, kind.symm, sameType⟩,
            here.implementations, nodup here.implementations, objectsFound, here.variants,
            here.fields⟩
  | union found _ kind _ =>
      obtain rfl := Option.some.inj (found.symm.trans known)
      cases names with
      | union here =>
          exact ⟨parts, ⟨realizes.owner, built, registers.get?_own, kind.symm, sameType⟩,
            here.implementations, nodup here.implementations, objectsFound, here.variants,
            here.fields⟩

/-- The object model is registered under the name, for the type of the other name, with one field
for each response name that the occurrences of the task select on the definitions of that type. -/
structure Implements (environment : Environment) (type : TypeDefinition) (task : Task)
    (catalog : Catalog) (typeName name : String) (object : ObjectModel) : Prop where
  registered : catalog.models.get? name = some (.object object)
  schemaType : object.schemaType = typeName
  fields : ∃ gathered, environment.Gathered type task typeName gathered ∧
    object.fields.map OutputFieldModel.responseName =
      OrderedSet.ofList (gathered.flatten.flatten.map SelectedField.responseName)

/-- **One implementation for each possible type.** The model of an interface or a union names as
many implementations as its possible types have names, and they come in the order of these names.
Each implementation is the object model of its type. -/
theorem implementations_of_step (known : environment.schema.type? task.namedType = some type)
    (isAbstract : type.kind = .interface ∨ type.kind = .union) {before after : Progress}
    {children : List Task}
    (stepped : environment.step policy before task = .ok (after, children)) :
    ∃ own, after.RegistersAt task.path type own ∧ own.implementations.Nodup ∧
      List.Forall₂
        (fun typeName name => ∃ object, environment.Implements type task after.catalog typeName
          name object)
        (OrderedSet.ofList ((environment.schema.possibleTypes type).map TypeDefinition.name))
        own.implementations := by
  obtain ⟨plan, own, objects, _, _, builds⟩ := exists_buildsAbstract known isAbstract stepped
  refine ⟨own, builds.position, builds.distinct, ?_⟩
  rw [← builds.parts.map_typeName_variants, builds.implementations, List.forall₂_map_left_iff,
    List.forall₂_map_right_iff]
  have found := (List.forall₂_and_left _ _).mpr ⟨builds.registered, builds.variants.flip⟩
  have each := (List.forall₂_and_left _ _).mpr ⟨fun variant isVariant => isVariant, found.flip⟩
  refine each.imp ?_
  rintro variant object ⟨isVariant, registered, names⟩
  obtain ⟨gathered, here, fields⟩ := builds.parts.exists_gathered isVariant
  refine ⟨object, registered, names.schemaType, gathered, here, ?_⟩
  rw [responseNames_of_namesFields names.fields, fields]

end Environment

/-! ## Dogs that are listed twice -/

namespace Sample

/-- Pets in a union that lists dogs again after the cats. -/
def repeatedType : TypeDefinition :=
  ⟨"Pet", none, [], .union ["Dog", "Cat", "Dog"]⟩

/-- A schema with these pets and with a second definition of dogs. -/
def repeatedEnvironment : Environment where
  schema := ⟨[.type queryType, .type repeatedType,
    .type (objectType "Dog" [declare "owner" "Person"]),
    .type (objectType "Cat" [declare "owner" "Person"]), .type (objectType "Dog" []),
    .type personType]⟩
  fragments := ⟨[catFragment]⟩

/-- The pet, for which dogs are asked about twice. -/
def petTask : Task :=
  ⟨⟨select "Pet" "pet" petItems ⟨["Q"]⟩,
    [select "Pet" "pet" [onType "Dog" [pick "__typename" []]] ⟨["Q"]⟩]⟩, ⟨["Q", "pet"]⟩⟩

end Sample

namespace Environment

open Sample

theorem implementations_of_repeated_dogs :
    ∃ after children own, repeatedEnvironment.step ⟨[], []⟩ ⟨takenCatalog, OrderedMap.empty⟩
        petTask = .ok (after, children) ∧
      after.RegistersAt ⟨["Q", "pet"]⟩ repeatedType own ∧ own.implementations.Nodup ∧
      ∃ dog cat object, own.implementations = [dog, cat] ∧
        repeatedEnvironment.Implements repeatedType petTask after.catalog "Dog" dog object := by
  have done : (repeatedEnvironment.step ⟨[], []⟩ ⟨takenCatalog, OrderedMap.empty⟩
      petTask).map (fun _ => ()) = .ok () := by decide +kernel
  obtain ⟨⟨after, children⟩, stepped, _⟩ := map_eq_ok_iff.mp done
  obtain ⟨own, registers, distinct, each⟩ := implementations_of_step rfl (.inr rfl) stepped
  refine ⟨after, children, own, stepped, registers, distinct, ?_⟩
  obtain ⟨dog, _, ⟨object, implements⟩, others, same⟩ := List.forall₂_cons_left_iff.mp each
  obtain ⟨cat, _, _, none, rest⟩ := List.forall₂_cons_left_iff.mp others
  obtain rfl := List.forall₂_nil_left_iff.mp none
  exact ⟨dog, cat, object, same.trans (congrArg _ rest), implements⟩

end Environment

end ResponseShape

import ResponseShape.Proofs.CatalogUses
import ResponseShape.Proofs.RepeatedNames

/-!
# Positions without models

A step adds the models of its position under the names of the position and of its variants. On a
catalog that pairs owners and names, it can add them whenever none of these names has a model before
(`Progress.exists_realize_of_vacant`): the names may have been given already, and they differ from
each other and from the names of all models. Then a step fails exactly when planning does, and for
the same reason (`Environment.ReadyAt.step_eq_error_iff`).
-/

set_option autoImplicit false

namespace ResponseShape

namespace Catalog

/-- The position and its variants have no models: no name that was given to them is a model's. -/
structure Vacant (catalog : Catalog) (path : Path) : Prop where
  position : ∀ name, catalog.nameOf? (.field path) = some name → name ∉ catalog.models.keys
  variant : ∀ typeName name, catalog.nameOf? (.variant path typeName) = some name →
    name ∉ catalog.models.keys

variable {catalog before after : Catalog} {owner : NameOwner} {owners : List NameOwner}
  {name : String}

theorem Paired.owns (paired : catalog.Paired) (named : catalog.nameOf? owner = some name) :
    catalog.Owns owner name :=
  ⟨named, fun _ there => paired.owner_eq there named⟩

namespace Allots

/-- Owners and names stay together one to one. -/
theorem owns_of_paired (allots : before.Allots owners after) (paired : before.Paired)
    (named : after.nameOf? owner = some name) : after.Owns owner name := by
  cases known : before.nameOf? owner with
  | none => exact (allots.fresh owner name known named).2
  | some old =>
      obtain rfl := Option.some.inj ((allots.kept owner old known).symm.trans named)
      exact allots.owns owner old (paired.owns known)

/-- An owner whose name had no model is not given that of a model. -/
theorem notMem_keys (allots : before.Allots owners after)
    (given : ∀ key ∈ before.models.keys, key ∈ before.given)
    (vacant : ∀ old, before.nameOf? owner = some old → old ∉ before.models.keys)
    (named : after.nameOf? owner = some name) : name ∉ before.models.keys := by
  cases known : before.nameOf? owner with
  | none =>
      have new := (allots.fresh owner name known named).1
      exact fun registered => new (given name registered)
  | some old =>
      obtain rfl := Option.some.inj ((allots.kept owner old known).symm.trans named)
      exact vacant old known

end Allots

end Catalog

/-- **A plan is realized when its position and its variants have no models.** -/
theorem Progress.exists_realize_of_vacant {before : Progress} {plan : Plan} {path : Path}
    (schema : Schema) (avoided : List String) (planned : plan ≠ .leaf)
    (paired : before.catalog.Paired)
    (given : ∀ key ∈ before.catalog.models.keys, key ∈ before.catalog.given)
    (vacant : before.catalog.Vacant path)
    (distinct : (plan.implemented.map Variant.typeName).Nodup) :
    ∃ after, before.realize schema avoided path plan = .ok after := by
  obtain ⟨catalog, own, objects, same, position⟩ := before.exists_named schema avoided path planned
  have owns : ∀ owner name, catalog.nameOf? owner = some name → catalog.Owns owner name :=
    fun owner name => position.allots.owns_of_paired paired
  have different := position.names.nodup_names (owns _ _ position.names.own) (fun _ => nofun)
    (fun typeName name => owns _ _) distinct
  have addable : ∀ model ∈ own :: objects.map TypeModel.object,
      model.name ∉ catalog.models.keys := by
    intro model member
    rw [position.models]
    rcases List.mem_cons.mp member with rfl | isObject
    · exact position.allots.notMem_keys given vacant.position position.names.own
    · obtain ⟨object, inObjects, rfl⟩ := List.mem_map.mp isObject
      obtain ⟨variant, _, named⟩ := exists_left_of_mem position.names.objects inObjects
      exact position.allots.notMem_keys given (vacant.variant variant.typeName) named
  obtain ⟨extended, added⟩ := Catalog.exists_addAll different addable
  rw [same]
  exact ⟨_, bind_eq_ok_iff.mpr ⟨extended, added, rfl⟩⟩

namespace Environment

variable {environment : Environment} {policy : NamePolicy} {progress : Progress} {task : Task}
  {type : TypeDefinition} {plan : Plan}

/-- The position of the task can be built: owners and names are paired, all models have names that
were given, and the position has no models. -/
structure ReadyAt (progress : Progress) (path : Path) : Prop where
  paired : progress.catalog.Paired
  given : ∀ key ∈ progress.catalog.models.keys, key ∈ progress.catalog.given
  vacant : progress.catalog.Vacant path

/-- A plan for a position without models is realized. -/
theorem ReadyAt.exists_realize (ready : ReadyAt progress task.path)
    (plans : environment.Plans task plan) (schema : Schema) (avoided : List String) :
    ∃ after, progress.realize schema avoided task.path plan = .ok after := by
  cases plans with
  | leaf => exact ⟨progress, rfl⟩
  | object found collected kind fields =>
      exact Progress.exists_realize_of_vacant schema avoided (by simp) ready.paired ready.given
        ready.vacant List.nodup_nil
  | interface found collected kind abstract =>
      have parts := (Plans.interface found collected kind abstract).parts found
        (by rw [TypeDefinition.isComposite, kind])
      exact Progress.exists_realize_of_vacant schema avoided (by simp) ready.paired ready.given
        ready.vacant parts.nodup_implemented
  | union found collected kind abstract =>
      have parts := (Plans.union found collected kind abstract).parts found
        (by rw [TypeDefinition.isComposite, kind])
      exact Progress.exists_realize_of_vacant schema avoided (by simp) ready.paired ready.given
        ready.vacant parts.nodup_implemented

/-- A step at a position without models succeeds when planning does. -/
theorem ReadyAt.exists_step (ready : ReadyAt progress task.path) (policy : NamePolicy)
    (planned : environment.plan task = .ok plan) :
    ∃ after, environment.step policy progress task = .ok (after, plan.tasks) := by
  have plans := plan_eq_ok_iff.mp planned
  obtain ⟨after, realized⟩ := ready.exists_realize plans environment.schema policy.avoided
  exact ⟨after, step_eq_ok_iff.mpr ⟨plan, plans, rfl, realized⟩⟩

/-- **A step at a position without models fails as planning fails.** -/
theorem ReadyAt.step_eq_error_iff (ready : ReadyAt progress task.path) {error : AnalysisError} :
    environment.step policy progress task = .error error ↔
      environment.plan task = .error error := by
  cases planned : environment.plan task with
  | ok plan =>
      obtain ⟨after, stepped⟩ := ready.exists_step policy planned
      simp [stepped]
  | error other => simp [step, planned, bind, Except.bind]

end Environment

end ResponseShape

import ResponseShape.Proofs.Allotting
import ResponseShape.Proofs.Chains

/-!
# Tasks in any order

A traversal may do its pending tasks in any order (`Environment.Reaches`). In every state that it
reaches, each position of the operation that has a name was built or is pending, and none is both
(`Environment.Accounts`): a pending position has a name and no model yet, and a position that was
built has its model.

The invariant is `Environment.Tracks`. It starts with the whole response as the only pending
position (`Environment.tracks_root`), and building any pending position keeps it
(`Environment.Tracks.build`): no position that the plan leaves was built or pending before, because
a position is found from its parent alone.
-/

set_option autoImplicit false

namespace ResponseShape

/-- The operation to whose response the owner belongs. Types of the schema belong to none. -/
def NameOwner.operation? (owner : NameOwner) : Option String :=
  owner.path?.bind (fun path => path.segments.head?)

/-- The owner whose name the model at a path of the operation has. -/
def NameOwner.atPath (operation : String) (path : Path) : NameOwner :=
  if path = Path.root operation then .operation operation else .field path

theorem NameOwner.atPath_root (operation : String) :
    atPath operation (Path.root operation) = .operation operation :=
  if_pos rfl

theorem NameOwner.atPath_of_ne {operation : String} {path : Path}
    (apart : path ≠ Path.root operation) : atPath operation path = .field path :=
  if_neg apart

theorem NameOwner.atPath_ne_field {operation : String} {path other : Path}
    (apart : path ≠ other) : atPath operation path ≠ .field other := by
  rw [atPath]
  split
  · exact nofun
  · exact fun same => apart (NameOwner.field.inj same)

theorem NameOwner.atPath_ne_variant (operation : String) (path other : Path)
    (typeName : String) : atPath operation path ≠ .variant other typeName := by
  rw [atPath]
  split <;> exact nofun

namespace Path

variable {operation : String} {path : Path}

/-- What lies below a path belongs to the same operation. -/
theorem head?_child (responseName : String) (isOf : path.segments.head? = some operation) :
    (path.child responseName).segments.head? = some operation := by
  rw [child, List.head?_append, isOf, Option.some_or]

/-- What lies below a path is not the root. -/
theorem child_ne_root (responseName other : String)
    (isOf : path.segments.head? = some operation) : path.child responseName ≠ root other := by
  intro same
  have depths := congrArg depth same
  rw [depth_child] at depths
  have none : path.segments = [] := List.eq_nil_of_length_eq_zero (Nat.succ.inj depths)
  rw [none] at isOf
  cases isOf

end Path

namespace Environment

variable {environment : Environment} {policy : NamePolicy} {catalog : Catalog} {name : String}
  {progress next : Progress} {task : Task} {rest pending : List Task} {plan : Plan}
  {own : TypeModel} {objects : List ObjectModel}

/-- Whoever is named is the owner of the plan, a variant of its position or the position of one of
its tasks. -/
theorem PlanParts.cases_of_mem_owners {type : TypeDefinition}
    (parts : environment.PlanParts task type plan) {owner other : NameOwner}
    (member : other ∈ plan.owners owner task.path) :
    other = owner ∨ (∃ typeName, other = .variant task.path typeName) ∨
      ∃ path ∈ plan.tasks.map Task.path, other = .field path := by
  refine (Plan.cases_of_mem_owners member).imp_right (Or.imp_right ?_)
  rintro ⟨child, isChild, rfl⟩
  refine ⟨child.path, ?_, rfl⟩
  rw [parts.tasks, Task.map_path_resolve, OrderedSet.mem_ofList]
  exact List.mem_map_of_mem isChild

/-- The position of every task of a plan is named. -/
theorem PlanParts.field_mem_owners {type : TypeDefinition}
    (parts : environment.PlanParts task type plan) {owner : NameOwner} {path : Path}
    (member : path ∈ plan.tasks.map Task.path) :
    .field path ∈ plan.owners owner task.path := by
  rw [parts.tasks, Task.map_path_resolve, OrderedSet.mem_ofList] at member
  obtain ⟨child, isChild, rfl⟩ := List.mem_map.mp member
  exact Plan.field_mem_owners isChild

/-! ## The invariant -/

/-- What holds while the operation is being built. `earlier` is the catalog before, and `pending`
are the tasks whose positions are to be built. -/
structure Tracks (environment : Environment) (earlier : Catalog) (name : String)
    (progress : Progress) (pending : List Task) : Prop where
  composite : ∀ task ∈ pending, environment.IsComposite task
  given : ∀ key ∈ progress.catalog.models.keys, key ∈ progress.catalog.given
  elsewhere : ∀ owner : NameOwner, owner.operation? ≠ some name →
    progress.catalog.nameOf? owner = earlier.nameOf? owner
  distinct : (pending.map Task.path).Nodup
  apart : ∀ path ∈ pending.map Task.path, path ∉ progress.paths.keys
  isOf : ∀ path, path ∈ progress.paths.keys ∨ path ∈ pending.map Task.path →
    path.segments.head? = some name
  /-- A position other than the root was found from a position that was built. -/
  closed : ∀ path, path ∈ progress.paths.keys ∨ path ∈ pending.map Task.path →
    path = Path.root name ∨ ∃ above ∈ progress.paths.keys, ∃ responseName,
      path = above.child responseName
  named : ∀ path : Path, path.segments.head? = some name →
    ((progress.catalog.nameOf? (.field path)).isSome = true ↔ path ≠ Path.root name ∧
      (path ∈ progress.paths.keys ∨ path ∈ pending.map Task.path))
  variants : ∀ (path : Path) typeName, path.segments.head? = some name →
    (progress.catalog.nameOf? (.variant path typeName)).isSome = true → path ∈ progress.paths.keys
  waiting : ∀ path ∈ pending.map Task.path, path ≠ Path.root name → ∃ given,
    progress.catalog.Owns (.field path) given ∧ given ∉ progress.catalog.models.keys
  /-- The name of the root is given when the root is built. -/
  root : Path.root name ∈ pending.map Task.path →
    progress.catalog.nameOf? (.operation name) = none
  built : ∀ path ∈ progress.paths.keys, ∃ given, progress.paths.get? path = some given ∧
    progress.catalog.nameOf? (.atPath name path) = some given ∧
    given ∈ progress.catalog.models.keys

/-- Nothing of the operation has a name. -/
def Unnamed (catalog : Catalog) (name : String) : Prop :=
  ∀ owner : NameOwner, owner.operation? = some name → catalog.nameOf? owner = none

/-- **At first the whole response is pending, and nothing else.** -/
theorem tracks_root {type : TypeDefinition} {items : List Selection}
    (unnamed : Unnamed catalog name) (given : ∀ key ∈ catalog.models.keys, key ∈ catalog.given)
    (composite : environment.IsComposite (Task.root type items (Path.root name))) :
    environment.Tracks catalog name ⟨catalog, OrderedMap.empty⟩
      [Task.root type items (Path.root name)] where
  composite task member := List.mem_singleton.mp member ▸ composite
  given := given
  elsewhere _ _ := rfl
  distinct := List.nodup_singleton _
  apart _ _ := nofun
  isOf path position := by
    rcases position with isKey | isPending
    · cases isKey
    · rw [List.mem_singleton.mp isPending]
      rfl
  closed path position := by
    rcases position with isKey | isPending
    · cases isKey
    · exact .inl (List.mem_singleton.mp isPending)
  named path isOf := by
    rw [unnamed (.field path) isOf]
    refine ⟨nofun, fun ⟨notRoot, position⟩ => ?_⟩
    rcases position with isKey | isPending
    · cases isKey
    · exact absurd (List.mem_singleton.mp isPending) notRoot
  variants path typeName isOf named := by
    rw [unnamed (.variant path typeName) isOf] at named
    cases named
  waiting path isPending notRoot := absurd (List.mem_singleton.mp isPending) notRoot
  root _ := unnamed (.operation name) rfl
  built _ := nofun

theorem Tracks.perm (tracks : environment.Tracks catalog name progress pending)
    {other : List Task} (same : pending.Perm other) :
    environment.Tracks catalog name progress other := by
  have paths : ∀ path, path ∈ other.map Task.path ↔ path ∈ pending.map Task.path :=
    fun path => (same.map Task.path).symm.mem_iff
  exact
    { tracks with
      composite := fun task member => tracks.composite task (same.mem_iff.mpr member)
      distinct := (same.map Task.path).nodup_iff.mp tracks.distinct
      apart := fun path member => tracks.apart path ((paths path).mp member)
      isOf := fun path position => tracks.isOf path (position.imp_right (paths path).mp)
      closed := fun path position => tracks.closed path (position.imp_right (paths path).mp)
      named := fun path isOf => by rw [paths]; exact tracks.named path isOf
      waiting := fun path member => tracks.waiting path ((paths path).mp member)
      root := fun member => tracks.root ((paths _).mp member) }

/-- A position afterwards was built or pending before, or the plan leaves it. -/
theorem known_iff {owner : NameOwner}
    (adds : progress.Adds next owner task.path plan own objects) {path : Path} :
    path ∈ next.paths.keys ∨ path ∈ (rest ++ plan.tasks).map Task.path ↔
      (path ∈ progress.paths.keys ∨ path ∈ (task :: rest).map Task.path) ∨
        path ∈ plan.tasks.map Task.path := by
  rw [adds.mem_keys_iff, List.map_append, List.mem_append, List.map_cons, List.mem_cons]
  tauto

namespace Tracks

section Building

variable (tracks : environment.Tracks catalog name progress (task :: rest))
  (planned : environment.Plans task plan)

include tracks planned

theorem parts_of_first : ∃ type, environment.PlanParts task type plan := by
  obtain ⟨type, _, parts⟩ := planned.exists_parts (tracks.composite task List.mem_cons_self)
  exact ⟨type, parts⟩

/-- **The positions that a plan leaves were not found before.** -/
theorem new_of_plan :
    ∀ path ∈ plan.tasks.map Task.path, (∃ responseName, path = task.path.child responseName) ∧
      path.segments.head? = some name ∧ path ≠ Path.root name ∧ path ∉ progress.paths.keys ∧
        path ∉ (task :: rest).map Task.path := by
  have isOf := tracks.isOf task.path (.inr List.mem_cons_self)
  intro path member
  obtain ⟨child, isChild, rfl⟩ := List.mem_map.mp member
  have below := planned.path_of_task (tracks.composite task List.mem_cons_self) child isChild
  have notRoot : child.path ≠ Path.root name := below ▸ Path.child_ne_root _ _ isOf
  have new : ¬(child.path ∈ progress.paths.keys ∨
      child.path ∈ (task :: rest).map Task.path) := by
    intro known
    rcases tracks.closed _ known with isRoot | ⟨above, isKey, responseName, same⟩
    · exact notRoot isRoot
    · -- the parent would have been built, but it is pending
      obtain ⟨rfl, _⟩ := Path.child_inj.mp (below.symm.trans same)
      exact tracks.apart _ List.mem_cons_self isKey
  exact ⟨⟨_, below⟩, below ▸ Path.head?_child _ isOf, notRoot, not_or.mp new⟩

/-- Only owners of the operation are given a name. -/
theorem operation?_of_mem_owners {owner : NameOwner}
    (member : owner ∈ plan.owners (.atPath name task.path) task.path) :
    owner.operation? = some name := by
  obtain ⟨type, parts⟩ := tracks.parts_of_first planned
  have isOf := tracks.isOf task.path (.inr List.mem_cons_self)
  rcases parts.cases_of_mem_owners member with rfl | ⟨_, rfl⟩ | ⟨path, isTask, rfl⟩
  · rw [NameOwner.atPath]
    split
    · rfl
    · exact isOf
  · exact isOf
  · exact (tracks.new_of_plan planned path isTask).2.1

/-- The name of the root is given when the root is built, and not again. -/
theorem operation_notMem_owners (pending : Path.root name ∈ rest.map Task.path) :
    .operation name ∉ plan.owners (.atPath name task.path) task.path := by
  obtain ⟨type, parts⟩ := tracks.parts_of_first planned
  intro member
  rcases parts.cases_of_mem_owners member with atPath | ⟨_, same⟩ | ⟨_, _, same⟩
  · have notRoot : task.path ≠ Path.root name := fun same =>
      (List.nodup_cons.mp tracks.distinct).1 (same ▸ pending)
    rw [NameOwner.atPath_of_ne notRoot] at atPath
    cases atPath
  · cases same
  · cases same

variable (adds : progress.Adds next (.atPath name task.path) task.path plan own objects)

include adds

/-- A position that has a name afterwards had one before, or the plan leaves it. -/
theorem isSome_nameOf?_iff {path : Path} :
    (next.catalog.nameOf? (.field path)).isSome = true ↔
      (progress.catalog.nameOf? (.field path)).isSome = true ∨
        path ∈ plan.tasks.map Task.path := by
  obtain ⟨type, parts⟩ := tracks.parts_of_first planned
  rw [adds.allots.named]
  refine ⟨fun either => either.elim .inl fun member => ?_, Or.imp_right parts.field_mem_owners⟩
  rcases parts.cases_of_mem_owners member with atPath | ⟨_, same⟩ | ⟨other, isTask, same⟩
  · -- the position itself has had its name since it was found
    by_cases isRoot : task.path = Path.root name
    · rw [isRoot, NameOwner.atPath_root] at atPath
      cases atPath
    · rw [NameOwner.atPath_of_ne isRoot] at atPath
      obtain rfl := NameOwner.field.inj atPath
      obtain ⟨given, owns, _⟩ := tracks.waiting _ List.mem_cons_self isRoot
      rw [owns.named]
      exact .inl rfl
  · cases same
  · obtain rfl := NameOwner.field.inj same
    exact .inr isTask

theorem variants_of_adds {path : Path} {typeName : String}
    (isOf : path.segments.head? = some name)
    (named : (next.catalog.nameOf? (.variant path typeName)).isSome = true) :
    path ∈ next.paths.keys := by
  obtain ⟨type, parts⟩ := tracks.parts_of_first planned
  rw [adds.mem_keys_iff]
  rcases (adds.allots.named _).mp named with before | member
  · exact .inl (tracks.variants path typeName isOf before)
  · rcases parts.cases_of_mem_owners member with atPath | ⟨_, same⟩ | ⟨_, _, same⟩
    · exact absurd atPath.symm (NameOwner.atPath_ne_variant name task.path path typeName)
    · exact .inr (NameOwner.variant.inj same).1
    · cases same

/-- **A position that waits has its name for itself, and the name has no model.** -/
theorem waiting_of_adds {path : Path} (member : path ∈ (rest ++ plan.tasks).map Task.path)
    (notRoot : path ≠ Path.root name) : ∃ given,
      next.catalog.Owns (.field path) given ∧ given ∉ next.catalog.models.keys := by
  have others := (List.nodup_cons.mp tracks.distinct).1
  rw [List.map_append, List.mem_append] at member
  rcases member with waited | left
  · obtain ⟨given, owns, absent⟩ := tracks.waiting path (List.mem_cons_of_mem _ waited) notRoot
    have later := adds.allots.owns _ _ owns
    refine ⟨given, later, adds.notMem_models later ?_ (fun _ => nofun) absent⟩
    exact NameOwner.atPath_ne_field fun same => others (same ▸ waited)
  · obtain ⟨_, isOf, _, new⟩ := tracks.new_of_plan planned path left
    have unnamed : progress.catalog.nameOf? (.field path) = none := by
      rw [← Option.not_isSome_iff_eq_none, tracks.named path isOf]
      exact fun named => not_or.mpr new named.2
    obtain ⟨given, named⟩ := Option.isSome_iff_exists.mp
      ((tracks.isSome_nameOf?_iff planned adds).mpr (.inr left))
    obtain ⟨fresh, owns⟩ := adds.allots.fresh _ _ unnamed named
    refine ⟨given, owns, adds.notMem_models owns ?_ (fun _ => nofun)
      fun registered => fresh (tracks.given given registered)⟩
    exact NameOwner.atPath_ne_field fun same => new.2 (same ▸ List.mem_cons_self)

omit planned in
/-- **A position that was built has its model.** -/
theorem built_of_adds {path : Path} (isKey : path ∈ next.paths.keys) : ∃ given,
    next.paths.get? path = some given ∧
      next.catalog.nameOf? (.atPath name path) = some given ∧
      given ∈ next.catalog.models.keys := by
  by_cases here : path = task.path
  · subst here
    refine ⟨own.name, ?_, adds.names.own, adds.own_mem⟩
    rw [adds.paths, OrderedMap.get?_insert, if_pos rfl]
  · obtain ⟨given, found, named, registered⟩ :=
      tracks.built path ((adds.mem_keys_iff.mp isKey).resolve_right here)
    refine ⟨given, ?_, adds.allots.kept _ _ named, ?_⟩
    · rw [adds.paths, OrderedMap.get?_insert, if_neg here, found]
    · rw [adds.models]
      exact List.mem_append_left _ registered

/-- **Building a pending position keeps the invariant.** The tasks that it leaves are pending
then. -/
theorem build : environment.Tracks catalog name next (rest ++ plan.tasks) := by
  obtain ⟨type, parts⟩ := tracks.parts_of_first planned
  have new := tracks.new_of_plan planned
  obtain ⟨notAgain, distinct⟩ := List.nodup_cons.mp tracks.distinct
  constructor
  case composite =>
    intro child member
    rcases List.mem_append.mp member with waited | left
    · exact tracks.composite child (List.mem_cons_of_mem _ waited)
    · exact planned.isComposite_of_task (tracks.composite task List.mem_cons_self) child left
  case given => exact adds.given tracks.given
  case elsewhere =>
    intro owner elsewhere
    rw [adds.allots.nameOf?_of_notMem fun member =>
      elsewhere (tracks.operation?_of_mem_owners planned member)]
    exact tracks.elsewhere owner elsewhere
  case distinct =>
    rw [List.map_append]
    exact distinct.append parts.nodup_tasks fun path waited left =>
      (new path left).2.2.2.2 (List.mem_cons_of_mem _ waited)
  case apart =>
    intro path member isKey
    rw [List.map_append, List.mem_append] at member
    rcases member, adds.mem_keys_iff.mp isKey with ⟨waited | left, earlier | rfl⟩
    · exact tracks.apart path (List.mem_cons_of_mem _ waited) earlier
    · exact notAgain waited
    · exact (new path left).2.2.2.1 earlier
    · exact (new _ left).2.2.2.2 List.mem_cons_self
  case isOf =>
    intro path position
    rcases (known_iff adds).mp position with before | left
    · exact tracks.isOf path before
    · exact (new path left).2.1
  case closed =>
    intro path position
    rcases (known_iff adds).mp position with before | left
    · refine (tracks.closed path before).imp_right ?_
      rintro ⟨above, isKey, responseName, same⟩
      exact ⟨above, adds.mem_keys_iff.mpr (.inl isKey), responseName, same⟩
    · obtain ⟨responseName, same⟩ := (new path left).1
      exact .inr ⟨task.path, adds.mem_keys_iff.mpr (.inr rfl), responseName, same⟩
  case named =>
    intro path isOf
    have notRoot : path ∈ plan.tasks.map Task.path → path ≠ Path.root name :=
      fun left => (new path left).2.2.1
    rw [tracks.isSome_nameOf?_iff planned adds, tracks.named path isOf,
      known_iff adds]
    tauto
  case variants => exact fun _ _ isOf named => tracks.variants_of_adds planned adds isOf named
  case waiting => exact fun _ member notRoot => tracks.waiting_of_adds planned adds member notRoot
  case root =>
    intro member
    rw [List.map_append, List.mem_append] at member
    rcases member with waited | left
    · rw [adds.allots.nameOf?_of_notMem (tracks.operation_notMem_owners planned waited)]
      exact tracks.root (List.mem_cons_of_mem _ waited)
    · exact absurd rfl (new _ left).2.2.1
  case built => exact fun _ isKey => tracks.built_of_adds adds isKey

end Building

end Tracks

/-! ## Steps -/

/-- The invariant after the root was built. -/
structure Underway (environment : Environment) (earlier : Catalog) (name : String)
    (progress : Progress) (pending : List Task) : Prop
    extends environment.Tracks earlier name progress pending where
  started : Path.root name ∈ progress.paths.keys

/-- A step adds the models of its task's position. -/
theorem adds_of_step {children : List Task} (composite : environment.IsComposite task)
    (done : environment.step policy progress task = .ok (next, children)) :
    ∃ plan own objects, environment.Plans task plan ∧ children = plan.tasks ∧
      progress.Adds next (.field task.path) task.path plan own objects := by
  obtain ⟨plan, planned, tasks, realized⟩ := step_eq_ok_iff.mp done
  obtain ⟨own, objects, adds⟩ := Progress.adds_of_realize (planned.ne_leaf composite) realized
  exact ⟨plan, own, objects, planned, tasks, adds⟩

namespace Underway

theorem perm (underway : environment.Underway catalog name progress pending) {other : List Task}
    (same : pending.Perm other) : environment.Underway catalog name progress other :=
  ⟨underway.toTracks.perm same, underway.started⟩

theorem ne_root (underway : environment.Underway catalog name progress pending) :
    ∀ task ∈ pending, task.path ≠ Path.root name := fun _ member same =>
  underway.apart _ (List.mem_map_of_mem member) (same ▸ underway.started)

/-- **A step keeps the invariant**, and its tasks lie one segment below the task that was done. -/
theorem step {children : List Task}
    (underway : environment.Underway catalog name progress (task :: rest))
    (done : environment.step policy progress task = .ok (next, children)) :
    environment.Underway catalog name next (rest ++ children) ∧
      ∀ child ∈ children, child.path = task.path.child child.occurrences.responseName := by
  have composite := underway.composite task List.mem_cons_self
  obtain ⟨plan, own, objects, planned, rfl, adds⟩ := adds_of_step composite done
  rw [← NameOwner.atPath_of_ne (underway.ne_root task List.mem_cons_self)] at adds
  exact ⟨⟨underway.build planned adds, adds.mem_keys_iff.mpr (.inl underway.started)⟩,
    planned.path_of_task composite⟩

end Underway

/-! ## The start -/

variable {operation : OperationDefinition} {root : TypeDefinition} {fields : List PlannedField}
  {traversal : Traversal}

/-- The root is named after the operation, and then the positions of its fields' values. -/
theorem exists_startWith (policy : NamePolicy) (catalog : Catalog)
    (operation : OperationDefinition) (name : String) (root : TypeDefinition)
    (fields : List PlannedField) :
    ∃ named object,
      startWith policy catalog operation name root fields =
        (Progress.addModels ⟨catalog, OrderedMap.empty⟩ (Path.root name) named
          (.object object) []).map (fun progress =>
            ⟨name, operation.kind, object.name, progress, PlannedField.tasks fields⟩) ∧
      catalog.NamesPosition named (.operation name) (Path.root name) (.object root fields)
        (.object object) [] := by
  have own := catalog.allots_allot (.operation name) (Text.className name) policy.reserved
  have ofFields := Catalog.allots_nameFields
    (catalog.allot (.operation name) (Text.className name) policy.reserved).2 policy.avoided fields
  let allotted := catalog.allot (.operation name) (Text.className name) policy.reserved
  let named := allotted.2.nameFields policy.avoided fields
  refine ⟨named.2, ⟨allotted.1, root.description, root.name, named.1⟩, ?_, own.trans ofFields,
    (Catalog.models_nameFields _ policy.avoided fields).trans
      (catalog.models_allot _ _ policy.reserved),
    ofFields.kept _ _ (catalog.nameOf?_allot_self _ _ policy.reserved), .nil⟩
  rw [startWith, Progress.addModels, List.map_nil, Catalog.addAll_singleton]
  cases named.2.add (.object ⟨allotted.1, root.description, root.name, named.1⟩) <;> rfl

/-- **Starting an operation builds its root**, and the tasks of the root are pending then. -/
theorem underway_of_start (named : operation.name = some name) (unnamed : Unnamed catalog name)
    (given : ∀ key ∈ catalog.models.keys, key ∈ catalog.given)
    (started : environment.start policy catalog operation = .ok traversal) :
    environment.Underway catalog name traversal.progress traversal.tasks := by
  obtain ⟨own, root, fields, sameName, found, planned, realized⟩ := start_eq_ok_iff.mp started
  obtain rfl := Option.some.inj (sameName.symm.trans named)
  obtain ⟨known, object⟩ := Schema.root?_eq_some found
  obtain ⟨names, model, same, position⟩ :=
    exists_startWith policy catalog operation own root fields
  rw [same] at realized
  obtain ⟨progress, added, rfl⟩ := map_eq_ok_iff.mp realized
  have adds := Progress.adds_of_addModels position added
  have tracks := tracks_root unnamed given (isComposite_root found operation.items (Path.root own))
  rw [← NameOwner.atPath_root own] at adds
  exact ⟨tracks.build ((planRoot_eq_ok_iff known object).mp planned) adds,
    adds.mem_keys_iff.mpr (.inr rfl)⟩

/-! ## Schedules -/

/-- The states that a traversal can reach: any pending task may be done next, and the tasks that
it leaves are pending then. -/
inductive Reaches (environment : Environment) (policy : NamePolicy) (traversal : Traversal) :
    Progress → List Task → Prop where
  | start : Reaches environment policy traversal traversal.progress traversal.tasks
  | step {progress next : Progress} {before after children : List Task} {task : Task} :
      Reaches environment policy traversal progress (before ++ task :: after) →
        environment.step policy progress task = .ok (next, children) →
        Reaches environment policy traversal next (before ++ after ++ children)

/-- Each position of the operation that has a name was built or is pending, and none is both. -/
structure Accounts (name : String) (progress : Progress) (pending : List Task) : Prop where
  distinct : (pending.map Task.path).Nodup
  apart : ∀ task ∈ pending, task.path ∉ progress.paths.keys
  named : ∀ path : Path, path.segments.head? = some name ∧
      (progress.catalog.nameOf? (.field path)).isSome = true ↔
    (path ∈ progress.paths.keys ∧ path ≠ Path.root name) ∨ path ∈ pending.map Task.path
  waiting : ∀ task ∈ pending, ∃ given,
    progress.catalog.nameOf? (.field task.path) = some given ∧
      progress.catalog.models.get? given = none
  built : ∀ path ∈ progress.paths.keys, ∃ given model,
    progress.paths.get? path = some given ∧
      progress.catalog.nameOf? (.atPath name path) = some given ∧
      progress.catalog.models.get? given = some model

namespace Underway

theorem accounts (underway : environment.Underway catalog name progress pending) :
    Accounts name progress pending where
  distinct := underway.distinct
  apart task member := underway.apart _ (List.mem_map_of_mem member)
  named path := by
    have pendingNotRoot : path ∈ pending.map Task.path → path ≠ Path.root name :=
      fun member same => underway.apart path member (same ▸ underway.started)
    constructor
    · rintro ⟨isOf, named⟩
      obtain ⟨notRoot, position⟩ := (underway.named path isOf).mp named
      exact position.imp_left fun isKey => ⟨isKey, notRoot⟩
    · intro position
      have isOf := underway.isOf path (position.imp_left And.left)
      refine ⟨isOf, (underway.named path isOf).mpr ⟨?_, position.imp_left And.left⟩⟩
      exact position.elim And.right pendingNotRoot
  waiting task member := by
    obtain ⟨given, owns, absent⟩ := underway.waiting _ (List.mem_map_of_mem member)
      (underway.ne_root task member)
    refine ⟨given, owns.named, ?_⟩
    rwa [← Option.not_isSome_iff_eq_none, ← OrderedMap.contains, OrderedMap.contains_iff_mem_keys]
  built path isKey := by
    obtain ⟨given, found, named, registered⟩ := underway.built path isKey
    rw [← OrderedMap.contains_iff_mem_keys] at registered
    obtain ⟨model, known⟩ := Option.isSome_iff_exists.mp registered
    exact ⟨given, model, found, named, known⟩

end Underway

/-- **The invariant holds in every state that the traversal reaches.** -/
theorem Reaches.underway (reaches : environment.Reaches policy traversal progress pending)
    (start : environment.Underway catalog name traversal.progress traversal.tasks) :
    environment.Underway catalog name progress pending := by
  induction reaches with
  | start => exact start
  | step _ done ih => exact ((ih.perm List.perm_middle).step done).1

/-- Does one pending task after the other, each time the one at the next of the places. -/
def doAt (environment : Environment) (policy : NamePolicy) :
    List Nat → Progress → List Task → Outcome (Progress × List Task)
  | [], progress, pending => .ok (progress, pending)
  | place :: places, progress, pending =>
      match pending[place]? with
      | none => doAt environment policy places progress pending
      | some task => do
          let (next, children) ← environment.step policy progress task
          doAt environment policy places next (pending.eraseIdx place ++ children)

/-- Any choice of tasks is a schedule. -/
theorem Reaches.doAt {places : List Nat} {left : List Task}
    (reaches : environment.Reaches policy traversal progress pending)
    (done : environment.doAt policy places progress pending = .ok (next, left)) :
    environment.Reaches policy traversal next left := by
  induction places generalizing progress pending with
  | nil =>
      obtain ⟨rfl, rfl⟩ := Prod.mk.inj (Except.ok.inj done)
      exact reaches
  | cons place places ih =>
      rw [Environment.doAt] at done
      cases here : pending[place]? with
      | none =>
          rw [here] at done
          exact ih reaches done
      | some task =>
          rw [here] at done
          obtain ⟨⟨after, children⟩, stepped, others⟩ := bind_eq_ok_iff.mp done
          obtain ⟨inside, isTask⟩ := List.getElem?_eq_some_iff.mp here
          have split : pending = pending.take place ++ task :: pending.drop (place + 1) := by
            rw [← isTask, ← List.drop_eq_getElem_cons inside, List.take_append_drop]
          rw [split] at reaches
          rw [List.eraseIdx_eq_take_drop_succ] at others
          exact ih (.step reaches stepped) others

/-- **Whatever the order of the tasks, the positions of an operation are accounted for**, and the
tasks that a step leaves lie one segment below the task that was done. -/
theorem accounts_of_reaches (named : operation.name = some name)
    (unnamed : ∀ owner : NameOwner, owner.operation? = some name → catalog.nameOf? owner = none)
    (given : ∀ key ∈ catalog.models.keys, (catalog.ownerOf? key).isSome = true)
    (started : environment.start policy catalog operation = .ok traversal)
    (reaches : environment.Reaches policy traversal progress pending) :
    Accounts name progress pending ∧ ∀ task ∈ pending, ∀ next children,
      environment.step policy progress task = .ok (next, children) →
        ∀ child ∈ children, child.path = task.path.child child.occurrences.responseName := by
  have start := underway_of_start named unnamed
    (fun key member => Catalog.mem_given_iff.mpr (given key member)) started
  have underway := reaches.underway start
  refine ⟨underway.accounts, fun task member next children done => ?_⟩
  obtain ⟨before, after, rfl⟩ := List.append_of_mem member
  exact ((underway.perm List.perm_middle).step done).2

end Environment

/-! ## Two pets, the later one first -/

namespace Sample

/-- Two pets, of which the second has an alias. -/
def pairQuery : OperationDefinition :=
  query "Q" [pick "pet" petItems,
    .field ⟨some "other", "pet", [], [], ⟨1, 1⟩⟩ ⟨⟨1, 1⟩, ⟨1, 1⟩⟩ petItems]

/-- A catalog in which an enum has taken the name that pets would be given. -/
def takenCatalog : Catalog :=
  ⟨[⟨.schemaType "Mood", "Pet"⟩], ⟨[("Pet", .enum ⟨"Pet", none, "Mood", none, []⟩)]⟩⟩

end Sample

namespace Environment

open Sample

theorem accounts_of_other_pet : ∃ traversal progress pending,
    petEnvironment.start ⟨[], []⟩ takenCatalog pairQuery = .ok traversal ∧
      petEnvironment.Reaches ⟨[], []⟩ traversal progress pending ∧
      pending.map Task.path = [⟨["Q", "pet"]⟩] ∧
      progress.paths.entries = [(⟨["Q"]⟩, "Q"), (⟨["Q", "other"]⟩, "Pet2"),
        (⟨["Q", "other", "owner"]⟩, "Person")] ∧
      Accounts "Q" progress pending ∧ ∀ task ∈ pending, ∀ next children,
        petEnvironment.step ⟨[], []⟩ progress task = .ok (next, children) →
          ∀ child ∈ children, child.path = task.path.child child.occurrences.responseName := by
  have computed : (petEnvironment.start ⟨[], []⟩ takenCatalog pairQuery >>= fun traversal =>
      petEnvironment.doAt ⟨[], []⟩ [1, 1] traversal.progress traversal.tasks).map
        (fun reached => (reached.2.map Task.path, reached.1.paths.entries)) =
      .ok ([⟨["Q", "pet"]⟩], [(⟨["Q"]⟩, "Q"), (⟨["Q", "other"]⟩, "Pet2"),
        (⟨["Q", "other", "owner"]⟩, "Person")]) := by decide +kernel
  obtain ⟨⟨progress, pending⟩, done, same⟩ := map_eq_ok_iff.mp computed
  obtain ⟨traversal, started, done⟩ := bind_eq_ok_iff.mp done
  obtain ⟨waiting, built⟩ := Prod.mk.inj same
  have reaches := Reaches.start.doAt done
  have unnamed : ∀ owner : NameOwner, owner.operation? = some "Q" →
      takenCatalog.nameOf? owner = none := by
    intro owner isOf
    have apart : NameOwner.schemaType "Mood" ≠ owner := by
      rintro rfl
      cases isOf
    simp [takenCatalog, Catalog.nameOf?, apart]
  exact ⟨traversal, progress, pending, started, reaches, waiting, built,
    accounts_of_reaches rfl unnamed (by decide +kernel) started reaches⟩

end Environment

end ResponseShape

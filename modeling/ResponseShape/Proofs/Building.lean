import ResponseShape.Proofs.Running

/-!
# What building operations builds

Building an operation realizes the plan of its root and then runs the tasks that the root leaves
(`Environment.Builds`). The history of an operation lists the positions of its response, the root
first. The history is closed under the tasks that plans leave
(`Environment.Builds.exists_of_mem_tasks`), every position has its model at its path
(`Environment.Builds.paths_of_mem`), and every path starts with the name of the operation
(`Environment.Builds.segments_of_mem`).
-/

set_option autoImplicit false

namespace ResponseShape

theorem Schema.root?_eq_some {schema : Schema} {kind : OperationKind} {root : TypeDefinition}
    (found : schema.root? kind = some root) :
    schema.type? root.name = some root ∧ root.kind = .object := by
  rw [root?, Option.filter_eq_some_iff] at found
  obtain ⟨known, object⟩ := found
  obtain ⟨name, _, known⟩ := Option.bind_eq_some_iff.mp known
  exact ⟨Schema.name_of_type? known ▸ known, beq_iff_eq.mp object⟩

namespace Environment

variable {environment : Environment} {policy : NamePolicy} {catalog later : Catalog}
  {operation : OperationDefinition} {model : OperationModel} {history : List Built}

/-- An operation is built from its root; the history lists the positions, the root first. -/
inductive Builds (environment : Environment) (catalog : Catalog)
    (operation : OperationDefinition) : Catalog → OperationModel → List Built → Prop where
  | intro {name : String} {root : TypeDefinition} {fields : List PlannedField}
      {object : ObjectModel} {start final : Progress} {below : List Built} :
      operation.name = some name → environment.schema.root? operation.kind = some root →
        environment.Plans (Task.root root operation.items (Path.root name))
          (.object root fields) →
        Progress.Realizes ⟨catalog, OrderedMap.empty⟩ start (.operation name) (Path.root name)
          (.object root fields) (.object object) [] →
        Runs environment start (PlannedField.tasks fields) below final →
        Builds environment catalog operation final.catalog
          ⟨name, operation.kind, object.name, final.paths⟩
          (⟨Task.root root operation.items (Path.root name), .object root fields,
            .object object, []⟩ :: below)

theorem isComposite_root {root : TypeDefinition} {kind : OperationKind}
    (found : environment.schema.root? kind = some root) (items : List Selection) (path : Path) :
    environment.IsComposite (Task.root root items path) := by
  obtain ⟨known, object⟩ := Schema.root?_eq_some found
  exact ⟨root, known, by simp [TypeDefinition.isComposite, object]⟩

/-- The root model, and the tasks that the planned fields of the root leave. -/
def startWith (policy : NamePolicy) (catalog : Catalog) (operation : OperationDefinition)
    (name : String) (root : TypeDefinition) (fields : List PlannedField) : Outcome Traversal := do
  let allotted := catalog.allot (.operation name) (Text.className name) policy.reserved
  let named := allotted.2.nameFields policy.avoided fields
  let extended ← named.2.add
    (.object
      { name := allotted.1, description := root.description, schemaType := root.name,
        fields := named.1 })
  return { name, kind := operation.kind, rootType := allotted.1,
           progress := ⟨extended, OrderedMap.empty.insert (Path.root name) allotted.1⟩,
           tasks := PlannedField.tasks fields }

/-- An operation is started when it has a name and a root type and its root can be planned. -/
theorem start_eq_ok_iff {traversal : Traversal} :
    environment.start policy catalog operation = .ok traversal ↔
      ∃ name root fields, operation.name = some name ∧
        environment.schema.root? operation.kind = some root ∧
        environment.planRoot root operation.items (Path.root name) = .ok fields ∧
        startWith policy catalog operation name root fields = .ok traversal := by
  cases named : operation.name with
  | none => simp [start, named, bind, Except.bind, throw, throwThe, MonadExceptOf.throw]
  | some name =>
      cases found : environment.schema.root? operation.kind with
      | none =>
          simp [start, named, found, bind, Except.bind, pure, Except.pure, throw, throwThe,
            MonadExceptOf.throw]
      | some root =>
          simp only [start, named, found, pure_bind, bind_eq_ok_iff]
          constructor
          · rintro ⟨fields, planned, started⟩
            exact ⟨name, root, fields, rfl, rfl, planned, bind_eq_ok_iff.mpr started⟩
          · rintro ⟨name', root', fields, sameName, sameRoot, planned, started⟩
            obtain rfl := Option.some.inj sameName
            obtain rfl := Option.some.inj sameRoot
            exact ⟨fields, planned, bind_eq_ok_iff.mp started⟩

/-- Starting an operation realizes the plan of its root, under the name of the operation. -/
theorem realizes_of_startWith {name : String} {root : TypeDefinition} {fields : List PlannedField}
    {traversal : Traversal}
    (started : startWith policy catalog operation name root fields = .ok traversal) :
    ∃ object : ObjectModel,
      Progress.Realizes ⟨catalog, OrderedMap.empty⟩ traversal.progress (.operation name)
        (Path.root name) (.object root fields) (.object object) [] ∧
      traversal = ⟨name, operation.kind, object.name, traversal.progress,
        PlannedField.tasks fields⟩ := by
  obtain ⟨extended, added, same⟩ := bind_eq_ok_iff.mp started
  obtain rfl := Except.ok.inj same
  have allotted := catalog.grows_allot (.operation name) (Text.className name)
    policy.reserved rfl
  have fieldsGrow := Catalog.grows_nameFields
    (catalog.allot (.operation name) (Text.className name) policy.reserved).2
    policy.avoided fields
  have models := (Catalog.models_nameFields _ policy.avoided fields).trans
    (catalog.models_allot (.operation name) (Text.className name) policy.reserved)
  have adding := (Catalog.addAll_singleton _ _).trans added
  exact ⟨_, Progress.realizes_of_addModels ⟨catalog, OrderedMap.empty⟩ (Path.root name)
    (allotted.trans fieldsGrow) models
    (.object ⟨rfl, Catalog.namesField_nameFields _ policy.avoided fields⟩)
    (fieldsGrow.names _ _ (catalog.nameOf?_allot_self _ _ policy.reserved))
    (bind_eq_ok_iff.mpr ⟨extended, adding, rfl⟩), rfl⟩

/-- The tasks that an operation starts with have composite values. -/
theorem isComposite_of_start {traversal : Traversal}
    (started : environment.start policy catalog operation = .ok traversal) :
    ∀ task ∈ traversal.tasks, environment.IsComposite task := by
  obtain ⟨name, root, fields, _, found, planned, realized⟩ := start_eq_ok_iff.mp started
  obtain ⟨_, _, same⟩ := realizes_of_startWith realized
  obtain ⟨known, object⟩ := Schema.root?_eq_some found
  rw [same]
  exact ((planRoot_eq_ok_iff known object).mp planned).isComposite_of_task
    (isComposite_root found _ _)

/-- **An operation that is completed with a result was built from its root.** -/
theorem Completes.exists_builds
    (completes : environment.Completes policy catalog operation (.ok (later, model))) :
    ∃ history, environment.Builds catalog operation later model history := by
  obtain ⟨traversal, passes, final, started, drains, result⟩ := completes_ok_iff.mp completes
  obtain ⟨rfl, rfl⟩ := Prod.mk.inj result
  obtain ⟨history, runs⟩ := drains.exists_run rfl (isComposite_of_start started)
  obtain ⟨name, root, fields, named, found, planned, realized⟩ := start_eq_ok_iff.mp started
  obtain ⟨object, realizes, start⟩ := realizes_of_startWith realized
  obtain ⟨known, isObject⟩ := Schema.root?_eq_some found
  rw [start] at runs ⊢
  exact ⟨_, .intro named found ((planRoot_eq_ok_iff known isObject).mp planned) realizes runs⟩

/-- **Where fragments are ranked, what building an operation gives is the end of its passes.** -/
theorem completes_buildOperation {rank : String → Nat}
    (ranked : environment.fragments.Ranked rank) (policy : NamePolicy) (catalog : Catalog)
    (operation : OperationDefinition) :
    environment.Completes policy catalog operation
      (environment.buildOperation policy catalog operation) := by
  have ends : ∃ outcome, environment.Completes policy catalog operation outcome := by
    cases started : environment.start policy catalog operation with
    | error error => exact ⟨_, .unstarted started⟩
    | ok traversal =>
        obtain ⟨_, _, drains⟩ :=
          exists_drains_of_ranked ranked policy traversal.progress traversal.tasks
        exact ⟨_, .drained started drains⟩
  obtain ⟨outcome, completes⟩ := ends
  rwa [buildOperation_of_completes completes]

/-- An operation that succeeds was built from its root. -/
theorem exists_builds {rank : String → Nat} (ranked : environment.fragments.Ranked rank)
    (built : environment.buildOperation policy catalog operation = .ok (later, model)) :
    ∃ history, environment.Builds catalog operation later model history :=
  (built ▸ completes_buildOperation ranked policy catalog operation :
    environment.Completes policy catalog operation (.ok (later, model))).exists_builds

namespace Builds

theorem exists_root (builds : environment.Builds catalog operation later model history) :
    ∃ root fields object below,
      environment.schema.root? operation.kind = some root ∧
      operation.name = some model.name ∧ model.rootType = object.name ∧
      history = ⟨Task.root root operation.items (Path.root model.name), .object root fields,
        .object object, []⟩ :: below := by
  cases builds with
  | intro named found _ _ _ => exact ⟨_, _, _, _, found, named, rfl, rfl⟩

/-- **What holds of the root and passes from task to task holds of all positions.** -/
theorem forall_tasks (holds : Task → Prop)
    (builds : environment.Builds catalog operation later model history)
    (start : ∀ root, environment.schema.root? operation.kind = some root →
      holds (Task.root root operation.items (Path.root model.name)))
    (passes : ∀ task plan, environment.Plans task plan → environment.IsComposite task →
      holds task → ∀ child ∈ plan.tasks, holds child) :
    ∀ built ∈ history, holds built.task := by
  cases builds with
  | @intro name root _ _ _ _ below _ found plans _ runs =>
      have here := start root found
      have composite := isComposite_root found operation.items (Path.root name)
      have both : ∀ built ∈ below, environment.IsComposite built.task ∧ holds built.task := by
        refine runs.forall_tasks (fun task => environment.IsComposite task ∧ holds task)
          (fun child isChild => ?_) fun task plan planned current child isChild => ?_
        · exact ⟨plans.isComposite_of_task composite child isChild,
            passes _ _ plans composite here child isChild⟩
        · exact ⟨planned.isComposite_of_task current.1 child isChild,
            passes _ _ planned current.1 current.2 child isChild⟩
      intro built member
      rcases List.mem_cons.mp member with rfl | later
      · exact here
      · exact (both built later).2

theorem isComposite (builds : environment.Builds catalog operation later model history) :
    ∀ built ∈ history, environment.IsComposite built.task :=
  builds.forall_tasks environment.IsComposite (fun _ found => isComposite_root found _ _)
    fun _ _ planned composite _ => planned.isComposite_of_task composite

theorem plans (builds : environment.Builds catalog operation later model history) :
    ∀ built ∈ history, environment.Plans built.task built.plan := by
  cases builds with
  | intro _ _ plans _ runs =>
      intro built member
      rcases List.mem_cons.mp member with rfl | later
      · exact plans
      · exact runs.plans built later

theorem exists_parts (builds : environment.Builds catalog operation later model history)
    {built : Built} (member : built ∈ history) :
    ∃ type, type.isComposite = true ∧ environment.PlanParts built.task type built.plan :=
  (builds.plans built member).exists_parts (builds.isComposite built member)

/-- **Every task that is left on the way is done.** -/
theorem exists_of_mem_tasks (builds : environment.Builds catalog operation later model history) :
    ∀ built ∈ history, ∀ child ∈ built.plan.tasks, ∃ below ∈ history, below.task = child := by
  cases builds with
  | @intro _ _ _ _ _ _ rest _ _ _ _ runs =>
      intro built member child isChild
      have done : ∃ below ∈ rest, below.task = child := by
        rcases List.mem_cons.mp member with rfl | later
        · exact runs.exists_of_mem_queue child isChild
        · exact runs.exists_of_mem_tasks built later child isChild
      obtain ⟨below, isBelow, same⟩ := done
      exact ⟨below, List.mem_cons_of_mem _ isBelow, same⟩

theorem grows (builds : environment.Builds catalog operation later model history) :
    catalog.Grows later := by
  cases builds with
  | intro _ _ _ realized runs => exact realized.grows.trans runs.grows

/-- **The models of the positions are added in the order of the history.** -/
theorem models (builds : environment.Builds catalog operation later model history) :
    later.models.entries = catalog.models.entries ++ history.flatMap Built.entries := by
  cases builds with
  | intro _ _ _ realized runs =>
      rw [runs.models, realized.models, List.flatMap_cons, List.append_assoc]
      rfl

theorem distinct (builds : environment.Builds catalog operation later model history)
    (start : catalog.models.keys.Nodup) : later.models.keys.Nodup := by
  cases builds with
  | intro _ _ _ realized runs => exact runs.distinct (realized.distinct start)

/-- **Every position has the models of its plan.** -/
theorem names (builds : environment.Builds catalog operation later model history) :
    ∀ built ∈ history, later.NamesPlan built.plan built.own built.objects := by
  cases builds with
  | intro _ _ _ realized runs =>
      intro built member
      rcases List.mem_cons.mp member with rfl | isLater
      · exact realized.names.mono runs.grows
      · exact (runs.names built isLater).1

/-- Every model of a position is found by its name. -/
theorem registered (builds : environment.Builds catalog operation later model history) :
    ∀ built ∈ history, ∀ entry ∈ built.entries, later.models.get? entry.1 = some entry.2 := by
  cases builds with
  | intro _ _ _ realized runs =>
      intro built member entry isEntry
      rcases List.mem_cons.mp member with rfl | isLater
      · exact runs.grows.model (realized.registered entry isEntry)
      · exact runs.registered built isLater entry isEntry

/-- The path of a position is the name of the operation followed by response names. -/
theorem segments_of_mem (builds : environment.Builds catalog operation later model history) :
    ∀ built ∈ history, ∃ names, built.task.path.segments = model.name :: names := by
  refine builds.forall_tasks (fun task => ∃ names, task.path.segments = model.name :: names)
    (fun root _ => ⟨[], rfl⟩) fun task plan planned composite here child isChild => ?_
  obtain ⟨names, segments⟩ := here
  refine ⟨names ++ [child.occurrences.responseName], ?_⟩
  rw [planned.path_of_task composite child isChild, Path.child, segments]
  rfl

/-- Positions that the root leaves, and those below them, are not the root. -/
theorem one_lt_depth_of_runs {root : TypeDefinition} {fields : List PlannedField}
    {items : List Selection} {name : String} {start final : Progress} {below : List Built}
    (found : environment.schema.root? operation.kind = some root)
    (plans : environment.Plans (Task.root root items (Path.root name)) (.object root fields))
    (runs : environment.Runs start (PlannedField.tasks fields) below final) :
    ∀ built ∈ below, 1 < built.task.path.depth := by
  have composite := isComposite_root found items (Path.root name)
  refine runs.one_lt_depth (plans.isComposite_of_task composite) fun child isChild => ?_
  rw [plans.path_of_task composite child isChild, Path.depth_child]
  exact Nat.lt_succ_self 1

/-- **The model of every position is found at its path.** -/
theorem paths_of_mem (builds : environment.Builds catalog operation later model history) :
    ∀ built ∈ history, model.paths.get? built.task.path = some built.own.name := by
  cases builds with
  | intro _ found plans realized runs =>
      intro built member
      rcases List.mem_cons.mp member with rfl | later
      · refine runs.paths_of_named ?_ (.inr fun below isBelow same => ?_)
        · rw [realized.paths]
          exact (OrderedMap.get?_insert _ _ _ _).trans (if_pos rfl)
        · have deep := one_lt_depth_of_runs found plans runs below isBelow
          rw [same] at deep
          exact Nat.lt_irrefl 1 deep
      · exact runs.paths_of_mem built later

/-- **Every path of the result is the path of a position.** -/
theorem origin_of_path (builds : environment.Builds catalog operation later model history)
    {path : Path} {name : String} (found : model.paths.get? path = some name) :
    ∃ built ∈ history, built.task.path = path ∧ built.own.name = name := by
  cases builds with
  | intro _ _ _ realized runs =>
      rcases runs.origin_of_path found with start | ⟨built, member, here⟩
      · rw [realized.paths, OrderedMap.get?_insert] at start
        split at start
        · rename_i same
          exact ⟨_, List.mem_cons_self, same.symm, Option.some.inj start⟩
        · cases start
      · exact ⟨built, List.mem_cons_of_mem _ member, here⟩

/-- Every path of the result has one model. -/
theorem nodup_paths (builds : environment.Builds catalog operation later model history) :
    model.paths.keys.Nodup := by
  cases builds with
  | intro _ _ _ realized runs =>
      refine runs.nodup_paths ?_
      rw [realized.paths, OrderedMap.keys_insert]
      exact OrderedSet.nodup_add List.nodup_nil

/-- The root has the root model. -/
theorem paths_root (builds : environment.Builds catalog operation later model history) :
    model.paths.get? (Path.root model.name) = some model.rootType := by
  obtain ⟨root, fields, object, below, _, _, rootType, rfl⟩ := builds.exists_root
  rw [rootType]
  exact builds.paths_of_mem _ List.mem_cons_self

/-- **An operation of a name that has its root model cannot be built again.** -/
theorem absent (builds : environment.Builds catalog operation later model history)
    (start : catalog.models.keys.Nodup) {name : String} {root : TypeModel}
    (named : catalog.nameOf? (.operation model.name) = some name) :
    catalog.models.get? name ≠ some root := by
  intro known
  cases builds with
  | @intro _ _ _ object _ _ _ _ _ _ realized runs =>
      have owner := realized.owner
      rw [realized.grows.names _ _ named] at owner
      obtain rfl := Option.some.inj owner
      have present : (TypeModel.object object).name ∈ catalog.models.keys := by
        rw [← OrderedMap.contains_iff_mem_keys, OrderedMap.contains, known]
        rfl
      have distinct := realized.distinct start
      rw [OrderedMap.keys, realized.models, List.map_append] at distinct
      exact (List.nodup_append.mp distinct).2.2 _ present _ List.mem_cons_self rfl

/-- The root model has the name that was given to the operation. -/
theorem nameOf?_operation (builds : environment.Builds catalog operation later model history) :
    later.nameOf? (.operation model.name) = some model.rootType := by
  cases builds with
  | intro _ _ _ realized runs => exact runs.grows.names _ _ realized.owner

/-- A model below the root has the name that was given to its path. -/
theorem nameOf?_of_task (builds : environment.Builds catalog operation later model history)
    {parent built : Built} (isParent : parent ∈ history) (isBuilt : built ∈ history)
    (left : built.task ∈ parent.plan.tasks) :
    later.nameOf? (.field built.task.path) = some built.own.name := by
  have above := builds.segments_of_mem parent isParent
  have path := (builds.plans parent isParent).path_of_task (builds.isComposite parent isParent)
    built.task left
  cases builds with
  | intro _ _ _ _ runs =>
      rcases List.mem_cons.mp isBuilt with rfl | isLater
      · obtain ⟨names, segments⟩ := above
        rw [Path.child, segments] at path
        simp [Task.root, Path.root] at path
      · exact (runs.names built isLater).2

end Builds

/-! ## All operations -/

/-- Operations are built one after the other. -/
inductive BuildsAll (environment : Environment) : Catalog → List OperationDefinition → Catalog →
    List OperationModel → List (List Built) → Prop where
  | nil (catalog : Catalog) : BuildsAll environment catalog [] catalog [] []
  | cons {catalog next later : Catalog} {operation : OperationDefinition}
      {rest : List OperationDefinition} {model : OperationModel} {models : List OperationModel}
      {history : List Built} {histories : List (List Built)} :
      environment.Builds catalog operation next model history →
        BuildsAll environment next rest later models histories →
        BuildsAll environment catalog (operation :: rest) later (model :: models)
          (history :: histories)

/-- **Operations that are completed with a result were built one after the other.** -/
theorem CompletesAll.exists_buildsAll {operations : List OperationDefinition}
    {models : List OperationModel}
    (completes : environment.CompletesAll policy catalog operations (.ok (later, models))) :
    ∃ histories, environment.BuildsAll catalog operations later models histories := by
  induction operations generalizing catalog models with
  | nil =>
      cases completes
      exact ⟨[], .nil _⟩
  | cons operation rest ih =>
      obtain ⟨next, model, others, first, completesRest, rfl⟩ :=
        completesAll_cons_ok_iff.mp completes
      obtain ⟨history, builds⟩ := first.exists_builds
      obtain ⟨histories, buildsRest⟩ := ih completesRest
      exact ⟨history :: histories, .cons builds buildsRest⟩

/-- **Where fragments are ranked, what building operations gives is the end of all their
passes.** -/
theorem completesAll_buildOperations {rank : String → Nat}
    (ranked : environment.fragments.Ranked rank) (policy : NamePolicy) (catalog : Catalog)
    (operations : List OperationDefinition) :
    environment.CompletesAll policy catalog operations
      (environment.buildOperations policy catalog operations) := by
  induction operations generalizing catalog with
  | nil => exact .nil catalog
  | cons operation rest ih =>
      have first := completes_buildOperation ranked policy catalog operation
      cases built : environment.buildOperation policy catalog operation with
      | error error =>
          rw [built] at first
          rw [buildOperations, built]
          exact .failed first
      | ok done =>
          obtain ⟨next, model⟩ := done
          rw [built] at first
          have all := CompletesAll.cons first (ih next)
          rwa [buildOperations_of_completesAll all]

theorem completesAll_of_buildOperations {rank : String → Nat}
    (ranked : environment.fragments.Ranked rank) {operations : List OperationDefinition}
    {outcome : Outcome (Catalog × List OperationModel)}
    (built : environment.buildOperations policy catalog operations = outcome) :
    environment.CompletesAll policy catalog operations outcome :=
  built ▸ completesAll_buildOperations ranked policy catalog operations

/-- Operations that succeed were built one after the other. -/
theorem exists_buildsAll {rank : String → Nat} (ranked : environment.fragments.Ranked rank)
    {operations : List OperationDefinition} {models : List OperationModel}
    (built : environment.buildOperations policy catalog operations = .ok (later, models)) :
    ∃ histories, environment.BuildsAll catalog operations later models histories :=
  (completesAll_of_buildOperations ranked built).exists_buildsAll

namespace BuildsAll

variable {operations : List OperationDefinition} {built : List OperationModel}
  {histories : List (List Built)}

theorem grows (builds : environment.BuildsAll catalog operations later built histories) :
    catalog.Grows later := by
  induction builds with
  | nil => exact .refl _
  | cons first _ ih => exact first.grows.trans ih

/-- **The models of all positions are added in the order of the operations.** -/
theorem models (builds : environment.BuildsAll catalog operations later built histories) :
    later.models.entries =
      catalog.models.entries ++ histories.flatten.flatMap Built.entries := by
  induction builds with
  | nil => simp
  | cons first _ ih =>
      rw [ih, first.models, List.flatten_cons, List.flatMap_append, List.append_assoc]

/-- **The models of the operations come in the order of the operations**, with their names and
kinds. -/
theorem operations_eq (builds : environment.BuildsAll catalog operations later built histories) :
    operations.map (fun operation => (operation.name, operation.kind)) =
      built.map (fun model => (some model.name, model.kind)) := by
  induction builds with
  | nil => rfl
  | cons first _ ih =>
      cases first with
      | intro named _ _ _ _ => rw [List.map_cons, List.map_cons, ih, named]

theorem distinct (builds : environment.BuildsAll catalog operations later built histories)
    (start : catalog.models.keys.Nodup) : later.models.keys.Nodup := by
  induction builds with
  | nil => exact start
  | cons first _ ih => exact ih (first.distinct start)

/-- **Operations that were built have distinct names.** -/
theorem nodup_names (builds : environment.BuildsAll catalog operations later built histories)
    (start : catalog.models.keys.Nodup) :
    (built.map OperationModel.name).Nodup ∧ ∀ model ∈ built, ∀ name root,
      catalog.nameOf? (.operation model.name) = some name →
        catalog.models.get? name ≠ some root := by
  induction builds with
  | nil => simp
  | @cons catalog next later operation rest model models history histories first _ ih =>
      obtain ⟨distinct, apart⟩ := ih (first.distinct start)
      have registered : ∃ root, next.models.get? model.rootType = some root := by
        obtain ⟨_, _, object, _, _, _, rootType, rfl⟩ := first.exists_root
        rw [rootType]
        exact ⟨_, first.registered _ List.mem_cons_self (object.name, _) List.mem_cons_self⟩
      obtain ⟨root, known⟩ := registered
      constructor
      · refine List.nodup_cons.mpr ⟨fun member => ?_, distinct⟩
        obtain ⟨other, isOther, same⟩ := List.mem_map.mp member
        refine apart other isOther model.rootType root ?_ known
        rw [same]
        exact first.nameOf?_operation
      · intro other member name otherRoot named found
        rcases List.mem_cons.mp member with rfl | isLater
        · exact first.absent start named found
        · exact apart other isLater name otherRoot (first.grows.names _ _ named)
            (first.grows.model found)

/-- Every operation was built, and what it built stays. -/
theorem exists_of_mem (builds : environment.BuildsAll catalog operations later built histories) :
    (∀ operation model, (operation, model) ∈ operations.zip built →
      ∃ before after, ∃ history ∈ histories,
        environment.Builds before operation after model history ∧ after.Grows later) ∧
    ∀ model ∈ built, ∃ operation before after, ∃ history ∈ histories,
      environment.Builds before operation after model history ∧ after.Grows later := by
  induction builds with
  | nil => simp
  | cons first rest ih =>
      constructor
      · intro operation model member
        rw [List.zip_cons_cons] at member
        rcases List.mem_cons.mp member with same | isLater
        · obtain ⟨rfl, rfl⟩ := Prod.mk.inj same
          exact ⟨_, _, _, List.mem_cons_self, first, rest.grows⟩
        · obtain ⟨before, after, history, isHistory, here⟩ := ih.1 operation model isLater
          exact ⟨before, after, history, List.mem_cons_of_mem _ isHistory, here⟩
      · intro model member
        rcases List.mem_cons.mp member with rfl | isLater
        · exact ⟨_, _, _, _, List.mem_cons_self, first, rest.grows⟩
        · obtain ⟨operation, before, after, history, isHistory, here⟩ := ih.2 model isLater
          exact ⟨operation, before, after, history, List.mem_cons_of_mem _ isHistory, here⟩

/-- Every history belongs to an operation. -/
theorem exists_of_history
    (builds : environment.BuildsAll catalog operations later built histories) :
    ∀ history ∈ histories, ∃ operation ∈ operations, ∃ model ∈ built, ∃ before after,
      environment.Builds before operation after model history ∧ after.Grows later := by
  induction builds with
  | nil => simp
  | cons first rest ih =>
      intro history member
      rcases List.mem_cons.mp member with rfl | isLater
      · exact ⟨_, List.mem_cons_self, _, List.mem_cons_self, _, _, first, rest.grows⟩
      · obtain ⟨operation, isOperation, model, isModel, here⟩ := ih history isLater
        exact ⟨operation, List.mem_cons_of_mem _ isOperation, model,
          List.mem_cons_of_mem _ isModel, here⟩

end BuildsAll

end Environment

end ResponseShape

import ResponseShape.Proofs.BreadthFirst
import ResponseShape.Proofs.EnumLinks
import ResponseShape.Proofs.Failures
import ResponseShape.Proofs.Inventory
import ResponseShape.Proofs.VariantConflicts

/-!
# Pending tasks can be built

Whether the value of a field has fields of its own is decided when the field is planned, and by
its first selection alone. The task of the value is done later; until then it may have taken up
selections that were made under other parents, and its type is looked up once more. Both times the
answer is the same: in every state that a traversal reaches, a pending task and all of its
selections have one type, and values of this type have fields (`Environment.Buildable`).

A step therefore never finds that the type of its own task is unknown or an input object, and never
passes over its task in silence. It adds one model for the position of the task, and what this one
names as its implementations. A field whose type cannot be given out is found before any task is
left for it: planning its parent fails, and unless the selections of the parent already exclude
each other, the error names such a field and the path at which it stands
(`Environment.buildable_of_reaches`).
-/

set_option autoImplicit false

namespace ResponseShape

open Outcome

namespace Environment

variable {environment : Environment} {policy : NamePolicy} {catalog : Catalog}
  {operation : OperationDefinition} {traversal : Traversal} {progress next : Progress}
  {type : TypeDefinition} {task : Task} {plan : Plan} {tasks pending more left : List Task}
  {field : SelectedField} {error : AnalysisError}

/-! ## Fields whose types cannot be given out -/

/-- Why the type of a selected field is no output type: nothing defines it, or it is an input
object. -/
inductive Faulty (environment : Environment) (field : SelectedField) : AnalysisError → Prop where
  | unknown : environment.schema.type? field.namedType = none →
      field.namedType ∉ builtinScalars →
      Faulty environment field (.unknownType field.namedType field.path field.position)
  | input {type : TypeDefinition} : environment.schema.type? field.namedType = some type →
      type.kind = .inputObject →
      Faulty environment field (.notAnOutputType field.namedType field.path)

/-- An occurrence of a task whose type is `type` selects the field, on a possible type or on the
type itself. -/
def Selects (environment : Environment) (type : TypeDefinition) (task : Task)
    (field : SelectedField) : Prop :=
  ∃ occurrence ∈ task.occurrences.toList, ∃ runtime,
    (runtime ∈ environment.schema.possibleTypes type ∨ runtime = type) ∧
      ∃ fields, environment.collectFor runtime type occurrence.node.items task.path = .ok fields ∧
        field ∈ fields

/-- The error is about the type of a field that the task selects, and its path leads to the
field. -/
def BlamesField (environment : Environment) (type : TypeDefinition) (task : Task)
    (error : AnalysisError) : Prop :=
  ∃ field, environment.Selects type task field ∧
    field.path = task.path.child field.responseName ∧ environment.Faulty field error

/-- Why a task whose type is `type` fails to be planned: its selections cannot be collected, two
of its variants exclude each other, or it selects a field without an output type. -/
inductive FailsPlanning (environment : Environment) (type : TypeDefinition) (task : Task)
    (error : AnalysisError) : Prop where
  | onPossible : environment.collectVariants type task = .error error →
      FailsPlanning environment type task error
  | onType : type.kind = .interface ∨ type.kind = .union →
      environment.collectShared type task = .error error →
      FailsPlanning environment type task error
  | conflict : type.kind = .interface ∨ type.kind = .union → error.IsMergeConflict →
      FailsPlanning environment type task error
  | field : environment.BlamesField type task error → FailsPlanning environment type task error

/-- A faulty field has no output type. -/
theorem Faulty.valueOf?_eq_none (faulty : environment.Faulty field error) :
    environment.valueOf? field.namedType = none := by
  cases faulty with
  | unknown unknown custom => simp [valueOf?, unknown, custom]
  | input known input => simp [valueOf?, known, input]

/-- **A group of selections fails to be planned for the type of the first one.** -/
theorem faulty_of_planField {occurrences : Occurrences}
    (failed : environment.planField occurrences = .error error) :
    environment.Faulty occurrences.first error := by
  have value : environment.fieldValue occurrences.namedType occurrences.path
      occurrences.position = .error error := by
    cases value : environment.fieldValue occurrences.namedType occurrences.path
        occurrences.position with
    | error other =>
        rw [planField, value] at failed
        exact congrArg _ (Except.error.inj failed)
    | ok value =>
        rw [planField, value] at failed
        cases failed
  rw [fieldValue] at value
  cases known : environment.schema.type? occurrences.namedType with
  | some type =>
      cases kind : type.kind <;> simp only [known, kind] at value
      case inputObject =>
        obtain rfl := Except.error.inj value
        exact .input known kind
      all_goals cases value
  | none =>
      by_cases builtin : occurrences.namedType ∈ builtinScalars
      · simp [known, builtin] at value
      · simp only [known, List.contains_iff_mem, builtin, if_false] at value
        obtain rfl := Except.error.inj value
        exact .unknown known builtin

/-! ## What a task selects -/

/-- A selected field lies one segment below the task. -/
theorem Selects.path (selects : environment.Selects type task field) :
    field.path = task.path.child field.responseName := by
  obtain ⟨_, _, _, _, _, collected, member⟩ := selects
  rw [SelectedField.path, setPath_of_collectFor collected field member]

theorem selects_of_collectVariants {variants : List (Variant Occurrences)}
    (collected : environment.collectVariants type task = .ok variants)
    {variant : Variant Occurrences} (isVariant : variant ∈ variants) {occurrences : Occurrences}
    (isField : occurrences ∈ variant.fields) :
    environment.Selects type task occurrences.first := by
  obtain ⟨found, each, _, rfl⟩ := collectVariants_eq_ok_iff.mp collected
  rw [Variant.fields_of_mem_joined isVariant] at isField
  have first := (Occurrences.of_mem_groups isField occurrences.first List.mem_cons_self).1
  obtain ⟨occurrence, isOccurrence, runtime, possible, _, fields, selected, member⟩ :=
    Collects.exists_of_mem each first
  exact ⟨occurrence, isOccurrence, runtime, .inl possible, fields, selected, member⟩

theorem selects_of_collectShared {groups : List Occurrences}
    (collected : environment.collectShared type task = .ok groups) {occurrences : Occurrences}
    (isField : occurrences ∈ groups) : environment.Selects type task occurrences.first := by
  obtain ⟨found, each, _, rfl⟩ := collectShared_eq_ok_iff.mp collected
  have first := (Occurrences.of_mem_groups isField occurrences.first List.mem_cons_self).1
  obtain ⟨fields, isFound, member⟩ := List.mem_flatten.mp first
  obtain ⟨occurrence, isOccurrence, selected⟩ := exists_left_of_mem each isFound
  exact ⟨occurrence, isOccurrence, type, .inr rfl, fields, selected, member⟩

/-- **What a planned task selects on a possible type has an output type.** -/
theorem PlanParts.isSome_valueOf? (parts : environment.PlanParts task type plan)
    {occurrence : SelectedField} (isOccurrence : occurrence ∈ task.occurrences.toList)
    {runtime : TypeDefinition} (possible : runtime ∈ environment.schema.possibleTypes type)
    {fields : List SelectedField}
    (collected : environment.collectFor runtime type occurrence.node.items task.path = .ok fields)
    (member : field ∈ fields) : (environment.valueOf? field.namedType).isSome = true := by
  obtain ⟨fields', collected', variant, isVariant, _, covered⟩ :=
    parts.exists_planned isOccurrence possible
  obtain rfl := Except.ok.inj (collected.symm.trans collected')
  obtain ⟨planned, isField, _, _, sameType, _⟩ := covered field member
  rw [← sameType,
    parts.value_of_field (Plan.mem_fields.mpr (.inl ⟨variant, isVariant, isField⟩))]
  rfl

/-- What an interface or a union that was planned selects on itself has an output type. -/
theorem PlansAbstract.isSome_valueOf? {variants : List (Variant Occurrences)}
    {planned : List (Variant PlannedField)} {shared : List PlannedField}
    (parts : environment.PlansAbstract type task variants planned shared tasks)
    {occurrence : SelectedField} (isOccurrence : occurrence ∈ task.occurrences.toList)
    {fields : List SelectedField}
    (collected : environment.collectOn type occurrence.node.items task.path = .ok fields)
    (member : field ∈ fields) : (environment.valueOf? field.namedType).isSome = true := by
  obtain ⟨groups, collectedShared, plans⟩ := parts.onType
  obtain ⟨found, each, compatible, rfl⟩ := collectShared_eq_ok_iff.mp collectedShared
  obtain ⟨fields', isFound, collected'⟩ := exists_right_of_mem each isOccurrence
  obtain rfl := Except.ok.inj (collected.symm.trans collected')
  have here : field ∈ found.flatten := List.mem_flatten.mpr ⟨fields, isFound, member⟩
  obtain ⟨occurrences, grouped, named, _⟩ := Occurrences.exists_group here
  have first := (Occurrences.of_mem_groups grouped occurrences.first List.mem_cons_self).1
  have sameType := (compatible _ first field here named).2
  obtain ⟨planned, _, _, value⟩ := exists_right_of_mem plans grouped
  rw [← sameType]
  exact Option.isSome_of_mem value

/-- **Every field that a planned task selects has an output type.** -/
theorem Plans.isSome_valueOf? (planned : environment.Plans task plan)
    (known : environment.schema.type? task.namedType = some type)
    (composite : type.isComposite = true) (selects : environment.Selects type task field) :
    (environment.valueOf? field.namedType).isSome = true := by
  have parts := planned.parts known composite
  obtain ⟨occurrence, isOccurrence, runtime, possible | rfl, fields, collected, member⟩ := selects
  · exact parts.isSome_valueOf? isOccurrence possible collected member
  · have sameType : ∀ {other : TypeDefinition},
        environment.schema.type? task.namedType = some other → other = runtime :=
      fun found => Option.some.inj (found.symm.trans known)
    cases planned with
    | leaf found _ kind =>
        obtain rfl := sameType found
        rcases kind with kind | kind <;> simp [TypeDefinition.isComposite, kind] at composite
    | object found _ kind _ =>
        -- an object type is its own only possible type
        obtain rfl := sameType found
        refine parts.isSome_valueOf? isOccurrence ?_ collected member
        rw [Schema.possibleTypes_of_object found kind]
        exact List.mem_singleton_self _
    | interface found _ _ abstract | union found _ _ abstract =>
        obtain rfl := sameType found
        exact abstract.isSome_valueOf? isOccurrence collected member

/-! ## Why a step fails -/

/-- **A task of a composite type fails to be planned for one of these reasons.** -/
theorem failsWith_plan_of_composite
    (known : environment.schema.type? task.namedType = some type)
    (composite : type.isComposite = true) :
    FailsWith (environment.FailsPlanning type task) (environment.plan task) := by
  have output : type.kind ≠ .inputObject := by
    rintro input
    simp [TypeDefinition.isComposite, input] at composite
  have blames : ∀ {occurrences : Occurrences},
      environment.Selects type task occurrences.first →
        FailsWith (environment.FailsPlanning type task) (environment.planField occurrences) :=
    fun selects error failed => .field ⟨_, selects, selects.path, faulty_of_planField failed⟩
  refine failsWith_plan_of_known known output (fun _ => .onPossible)
    (fun variants collected variant isVariant occurrences isField => ?_)
    fun kind => ⟨fun tasks found => ?_, fun _ => .onType kind,
      fun groups collected occurrences isField => ?_⟩
  · exact blames (selects_of_collectVariants collected isVariant isField)
  · exact (failsWith_joinAll_conflict tasks found).mono fun _ => .conflict kind
  · exact blames (selects_of_collectShared collected isField)

/-- An error about a type blames a field of the task. -/
theorem FailsPlanning.blamesField (fails : environment.FailsPlanning type task error)
    (aboutType : ¬ error.OfCollecting) : environment.BlamesField type task error := by
  cases fails with
  | onPossible failed => exact absurd (failsWith_collectVariants type task error failed) aboutType
  | onType _ failed => exact absurd (failsWith_collectShared type task error failed) aboutType
  | conflict _ excluding =>
      obtain ⟨_, _, _, _, _, rfl⟩ := excluding
      exact absurd trivial aboutType
  | field blames => exact blames

/-- The field that is blamed lies deeper than the task. -/
theorem BlamesField.path_ne (blames : environment.BlamesField type task error) :
    (∀ name position, error ≠ .unknownType name task.path position) ∧
      ∀ name, error ≠ .notAnOutputType name task.path := by
  obtain ⟨field, _, path, faulty⟩ := blames
  have deeper : field.path ≠ task.path := by
    intro same
    have depths := congrArg Path.depth (path.symm.trans same)
    rw [Path.depth_child] at depths
    exact absurd depths (Nat.succ_ne_self _)
  cases faulty with
  | unknown => exact ⟨fun _ _ same => deeper (AnalysisError.unknownType.inj same).2.1, nofun⟩
  | input => exact ⟨nofun, fun _ same => deeper (AnalysisError.notAnOutputType.inj same).2⟩

/-- A planned position fails to be realized for a name that has a model already. -/
theorem failsWith_realize (progress : Progress) (schema : Schema) (avoided : List String)
    (path : Path) (plan : Plan) :
    FailsWith (fun error => ∃ name owner, error = .duplicateTypeName name owner)
      (progress.realize schema avoided path plan) := by
  have adding : ∀ (catalog : Catalog) (models : List TypeModel),
      FailsWith (fun error => ∃ name owner, error = .duplicateTypeName name owner)
        (catalog.addAll models) := by
    intro catalog models
    refine failsWith_foldlM (fun catalog model => ?_) models catalog
    rw [Catalog.add]
    split
    · exact failsWith_error ⟨_, _, rfl⟩
    · exact failsWith_ok _
  cases plan with
  | leaf => exact failsWith_ok progress
  | object | interface | union => exact (adding _ _).bind fun _ _ => failsWith_ok _

/-- **A task that selects a field without an output type cannot be planned.** -/
theorem exists_error_of_faulty (known : environment.schema.type? task.namedType = some type)
    (composite : type.isComposite = true) (selects : environment.Selects type task field)
    (faulty : environment.Faulty field error) :
    ∃ reported, environment.plan task = .error reported ∧
      environment.FailsPlanning type task reported := by
  cases planned : environment.plan task with
  | error reported =>
      exact ⟨reported, rfl, failsWith_plan_of_composite known composite reported planned⟩
  | ok plan =>
      have output := (plan_eq_ok_iff.mp planned).isSome_valueOf? known composite selects
      rw [faulty.valueOf?_eq_none] at output
      cases output

/-- **An operation whose root selects a field without an output type cannot be planned.** -/
theorem exists_error_of_faulty_root {root : TypeDefinition} {items : List Selection} {path : Path}
    (known : environment.schema.type? root.name = some root) (object : root.kind = .object)
    (selects : environment.Selects root (Task.root root items path) field)
    (faulty : environment.Faulty field error) :
    ∃ reported, environment.planRoot root items path = .error reported ∧
      (environment.collect root items path = .error reported ∨
        environment.BlamesField root (Task.root root items path) reported) := by
  have fails : FailsWith
      (fun error => environment.collect root items path = .error error ∨
        environment.BlamesField root (Task.root root items path) error)
      (environment.planRoot root items path) := by
    refine FailsWith.bind (fun _ => .inl) fun variants collected =>
      failsWith_mapM fun occurrences isField => ?_
    obtain ⟨first, isFirst, rfl⟩ := List.mem_map.mp isField
    intro error failed
    have selected : environment.Selects root (Task.root root items path) first := by
      cases variants with
      | nil => cases isFirst
      | cons variant rest =>
          obtain ⟨runtime, possible, _, fields⟩ :=
            exists_left_of_mem (collect_eq_ok_iff.mp collected) List.mem_cons_self
          exact ⟨_, List.mem_cons_self, runtime, .inl possible, _, fields, isFirst⟩
    exact .inr ⟨first, selected, selected.path, faulty_of_planField failed⟩
  cases planned : environment.planRoot root items path with
  | error reported => exact ⟨reported, rfl, fails reported planned⟩
  | ok fields =>
      have composite : root.isComposite = true := by rw [TypeDefinition.isComposite, object]
      have output := ((planRoot_eq_ok_iff known object).mp planned).isSome_valueOf? known composite
        selects
      rw [faulty.valueOf?_eq_none] at output
      cases output

/-! ## Steps -/

/-- The position has a model now, which names as its implementations the models that were added
behind it. Nothing else was added. -/
def AddsModel (progress next : Progress) (path : Path) : Prop :=
  ∃ (own : TypeModel) (objects : List ObjectModel),
    own.implementations = objects.map ObjectModel.name ∧
      next.paths.entries = progress.paths.entries ++ [(path, own.name)] ∧
      next.catalog.models.entries = progress.catalog.models.entries ++ own.entries objects

/-- What holds of a pending task: its type and that of all its selections is known and has fields,
the step does not fail for this type, adds the model of the position when it succeeds, and fails
when a field that it selects has no output type. -/
structure Buildable (environment : Environment) (policy : NamePolicy) (progress : Progress)
    (task : Task) (type : TypeDefinition) : Prop where
  kind : type.kind = .object ∨ type.kind = .interface ∨ type.kind = .union
  known : environment.schema.type? task.namedType = some type
  occurrences : ∀ occurrence ∈ task.occurrences.toList,
    environment.schema.type? occurrence.namedType = some type
  notLeaf : environment.plan task ≠ .ok .leaf
  notUnknown : ∀ name position,
    environment.step policy progress task ≠ .error (.unknownType name task.path position)
  notInput : ∀ name,
    environment.step policy progress task ≠ .error (.notAnOutputType name task.path)
  adds : ∀ next children, environment.step policy progress task = .ok (next, children) →
    AddsModel progress next task.path
  fails : ∀ error, environment.step policy progress task = .error error →
    environment.FailsPlanning type task error ∨
      ∃ name owner, error = .duplicateTypeName name owner
  reports : ∀ field fault, environment.Selects type task field → environment.Faulty field fault →
    ∃ error, environment.step policy progress task = .error error ∧
      environment.FailsPlanning type task error

/-- **A task that is new, of a composite type and of selections that agree can be built.** -/
theorem buildable (known : environment.schema.type? task.namedType = some type)
    (composite : type.isComposite = true) (uniform : task.occurrences.Uniform)
    (new : task.path ∉ progress.paths.keys) :
    environment.Buildable policy progress task type := by
  have isComposite : environment.IsComposite task := ⟨type, known, composite⟩
  have fails : FailsWith
      (fun error => environment.FailsPlanning type task error ∨
        ∃ name owner, error = .duplicateTypeName name owner)
      (environment.step policy progress task) := by
    refine ((failsWith_plan_of_composite known composite).mono fun _ => .inl).bind fun plan _ => ?_
    refine FailsWith.bind ?_ fun next _ => failsWith_ok (next, plan.tasks)
    exact (failsWith_realize progress environment.schema policy.avoided task.path plan).mono
      fun _ => .inr
  -- an error about a type blames a field, and that lies deeper
  have deeper : ∀ error, environment.step policy progress task = .error error →
      ¬ error.OfCollecting → (∀ name owner, error ≠ .duplicateTypeName name owner) →
      environment.BlamesField type task error := by
    intro error failed aboutType notRepeated
    rcases fails error failed with planning | ⟨name, owner, same⟩
    · exact planning.blamesField aboutType
    · exact absurd same (notRepeated name owner)
  refine ⟨?_, known, fun occurrence member => ?_, fun planned => ?_, fun name position failed => ?_,
    fun name failed => ?_, fun next children done => ?_, fails,
    fun field fault selects faulty => ?_⟩
  · rw [TypeDefinition.isComposite] at composite
    cases kind : type.kind <;> simp [kind] at composite ⊢
  · rw [uniform occurrence member]
    exact known
  · exact (plan_eq_ok_iff.mp planned).ne_leaf isComposite rfl
  · exact (deeper _ failed id fun _ _ same => by cases same).path_ne.1 name position rfl
  · exact (deeper _ failed id fun _ _ same => by cases same).path_ne.2 name rfl
  · obtain ⟨plan, own, objects, _, _, realized⟩ := step_eq_ok isComposite done
    refine ⟨own, objects, realized.names.implementations_eq, ?_, realized.models⟩
    rw [realized.paths, OrderedMap.entries_insert_of_absent new]
  · obtain ⟨reported, failed, because⟩ := exists_error_of_faulty known composite selects faulty
    refine ⟨reported, ?_, because⟩
    rw [step, failed]
    rfl

/-! ## What is pending -/

/-- The invariant of a traversal: pending tasks have composite types, each task has selections of
one type, and the pending positions are new. -/
structure Queued (environment : Environment) (name : String) (progress : Progress)
    (pending : List Task) : Prop where
  composite : ∀ task ∈ pending, environment.IsComposite task
  uniform : ∀ task ∈ pending, task.occurrences.Uniform
  frontier : Path.Frontier name progress.paths.keys (pending.map Task.path)

theorem queued_of_start
    (started : environment.start policy catalog operation = .ok traversal) :
    environment.Queued traversal.name traversal.progress traversal.tasks := by
  refine ⟨isComposite_of_start started, ?_, (frontier_of_start started).1⟩
  obtain ⟨name, root, fields, _, found, planned, realized⟩ := start_eq_ok_iff.mp started
  obtain ⟨_, _, same⟩ := realizes_of_startWith realized
  obtain ⟨known, object⟩ := Schema.root?_eq_some found
  have plans := (planRoot_eq_ok_iff known object).mp planned
  obtain ⟨type, _, parts⟩ := plans.exists_parts (isComposite_root found operation.items _)
  rw [same]
  exact fun task isTask => parts.uniform_of_task isTask

/-- **Doing any pending task keeps the invariant.** -/
theorem Queued.step {name : String} {before after children : List Task}
    (queued : environment.Queued name progress (before ++ task :: after))
    (done : environment.step policy progress task = .ok (next, children)) :
    environment.Queued name next (before ++ after ++ children) := by
  have isTask : task ∈ before ++ task :: after := by simp
  have composite := queued.composite task isTask
  obtain ⟨plan, planned, rfl, _⟩ := step_eq_ok_iff.mp done
  obtain ⟨type, _, parts⟩ := planned.exists_parts composite
  have waited : ∀ other ∈ before ++ after, other ∈ before ++ task :: after := by
    intro other member
    rw [List.mem_append, List.mem_cons]
    exact (List.mem_append.mp member).imp_right .inr
  refine ⟨fun other member => ?_, fun other member => ?_,
    (frontier_of_step composite queued.frontier done).2⟩
  · rcases List.mem_append.mp member with here | isChild
    · exact queued.composite other (waited other here)
    · exact planned.isComposite_of_task composite other isChild
  · rcases List.mem_append.mp member with here | isChild
    · exact queued.uniform other (waited other here)
    · exact parts.uniform_of_task isChild

namespace Reaches

theorem queued (reaches : environment.Reaches policy traversal progress pending)
    (started : environment.start policy catalog operation = .ok traversal) :
    environment.Queued traversal.name progress pending := by
  induction reaches with
  | start => exact queued_of_start started
  | step _ done ih => exact ih.step done

/-- The first of the pending tasks may be done next. -/
theorem first {rest children : List Task}
    (reaches : environment.Reaches policy traversal progress (task :: rest))
    (done : environment.step policy progress task = .ok (next, children)) :
    environment.Reaches policy traversal next (rest ++ children) := by
  rw [← List.nil_append (task :: rest)] at reaches
  exact (Reaches.step reaches done :)

/-- A pass is a schedule. -/
theorem pass (reaches : environment.Reaches policy traversal progress (tasks ++ more))
    (passed : environment.pass policy progress tasks = .ok (next, left)) :
    environment.Reaches policy traversal next (more ++ left) := by
  induction tasks generalizing progress more left with
  | nil =>
      obtain ⟨rfl, rfl⟩ := Prod.mk.inj (Except.ok.inj passed)
      rwa [List.append_nil]
  | cons task rest ih =>
      obtain ⟨between, leftByFirst, leftByRest, first, others, rfl⟩ :=
        pass_cons_eq_ok_iff.mp passed
      have here : environment.Reaches policy traversal between (rest ++ (more ++ leftByFirst)) := by
        rw [← List.append_assoc]
        exact reaches.first first
      rw [← List.append_assoc]
      exact ih here others

theorem passTimes {passes : Nat} (reaches : environment.Reaches policy traversal progress tasks)
    (passed : environment.passTimes policy passes progress tasks = .ok (next, left)) :
    environment.Reaches policy traversal next left := by
  induction passes generalizing progress tasks with
  | zero =>
      obtain ⟨rfl, rfl⟩ := Prod.mk.inj (Except.ok.inj passed)
      exact reaches
  | succ passes ih =>
      obtain ⟨⟨between, leftByFirst⟩, first, others⟩ := bind_eq_ok_iff.mp passed
      rw [← List.append_nil tasks] at reaches
      exact ih (reaches.pass first) others

/-- A queue that cannot be worked off comes to a task that fails. -/
theorem exists_failing (reaches : environment.Reaches policy traversal progress tasks)
    {outcome : Outcome Progress} (worksOff : environment.WorksOff policy progress tasks outcome)
    (failed : outcome = .error error) :
    ∃ last pending task, environment.Reaches policy traversal last pending ∧ task ∈ pending ∧
      environment.step policy last task = .error error := by
  induction worksOff with
  | done => cases failed
  | failed stepped =>
      obtain rfl := Except.error.inj failed
      exact ⟨_, _, _, reaches, List.mem_cons_self, stepped⟩
  | step stepped _ ih => exact ih (reaches.first stepped) failed

end Reaches

/-- **Pending tasks can be built.** In every state that a traversal reaches, doing its tasks in
any order, each pending task is of a type with fields and its step says nothing else. The tasks of
every pass are pending in such a state, and so is the task at which draining fails. An operation
whose root selects a field without an output type is not even started. -/
theorem buildable_of_reaches (environment : Environment) (policy : NamePolicy) (catalog : Catalog)
    (operation : OperationDefinition) :
    (∀ name root, operation.name = some name →
      environment.schema.root? operation.kind = some root →
      ∀ field fault,
        environment.Selects root (Task.root root operation.items (Path.root name)) field →
        environment.Faulty field fault →
        ∃ error, environment.start policy catalog operation = .error error ∧
          (environment.collect root operation.items (Path.root name) = .error error ∨
            environment.BlamesField root (Task.root root operation.items (Path.root name))
              error)) ∧
    ∀ traversal, environment.start policy catalog operation = .ok traversal →
      (∀ progress pending, environment.Reaches policy traversal progress pending →
        ∀ task ∈ pending, ∃ type, environment.Buildable policy progress task type) ∧
      (∀ passes progress tasks,
        environment.passTimes policy passes traversal.progress traversal.tasks =
          .ok (progress, tasks) →
        environment.Reaches policy traversal progress tasks) ∧
      ∀ passes error,
        environment.Drains policy traversal.progress traversal.tasks passes (.error error) →
        environment.drain policy traversal.progress traversal.tasks = .error error ∧
        ∃ progress pending task, environment.Reaches policy traversal progress pending ∧
          task ∈ pending ∧ environment.step policy progress task = .error error := by
  refine ⟨fun name root named found field fault selects faulty => ?_,
    fun traversal started => ⟨fun progress pending reaches task isTask => ?_,
      fun passes progress tasks passed => ?_, fun passes error drains => ?_⟩⟩
  · obtain ⟨known, object⟩ := Schema.root?_eq_some found
    obtain ⟨reported, failed, because⟩ :=
      exists_error_of_faulty_root known object selects faulty
    refine ⟨reported, ?_, because⟩
    rw [start, named, found]
    change environment.planRoot root operation.items (Path.root name) >>= _ = _
    rw [failed]
    rfl
  · have queued := reaches.queued started
    obtain ⟨type, known, composite⟩ := queued.composite task isTask
    obtain ⟨before, after, rfl⟩ := List.append_of_mem isTask
    have frontier := queued.frontier
    rw [List.map_append, List.map_cons] at frontier
    exact ⟨type, buildable known composite (queued.uniform task isTask) frontier.notMem_built⟩
  · exact Reaches.start.passTimes passed
  · exact ⟨drain_of_drains drains, Reaches.start.exists_failing drains.worksOff rfl⟩

end Environment

/-! ## A haunted house -/

namespace Sample

def hauntedRoot : TypeDefinition :=
  objectType "Query" [declare "house" "House", declare "ghost" "Ghost"]

/-- Nothing tells what a ghost is. -/
def hauntedSchema : Schema :=
  ⟨[.type hauntedRoot,
    .type (objectType "House" [declare "size" "Int", declare "ghost" "Ghost"])]⟩

def hauntedEnvironment : Environment :=
  ⟨hauntedSchema, ⟨[]⟩⟩

/-- The attic is measured, and then the house is asked for its ghost. -/
def hauntedQuery : OperationDefinition :=
  query "Q" [.field ⟨some "attic", "house", [], [], ⟨1, 1⟩⟩ ⟨⟨1, 1⟩, ⟨1, 1⟩⟩ [pick "size" []],
    pick "house" [pick "ghost" []]]

/-- A ghost that is asked for at the root. -/
def ghostQuery : OperationDefinition :=
  query "Q" [pick "ghost" []]

end Sample

namespace Environment

open Sample

theorem buildable_of_haunted :
    (∃ error, hauntedEnvironment.start ⟨[], []⟩ Catalog.empty ghostQuery = .error error ∧
      (hauntedEnvironment.collect hauntedRoot ghostQuery.items (Path.root "Q") = .error error ∨
        hauntedEnvironment.BlamesField hauntedRoot
          (Task.root hauntedRoot ghostQuery.items (Path.root "Q")) error)) ∧
    ∃ traversal,
      hauntedEnvironment.start ⟨[], []⟩ Catalog.empty hauntedQuery = .ok traversal ∧
      (∃ task ∈ traversal.tasks, ∃ next children,
        hauntedEnvironment.step ⟨[], []⟩ traversal.progress task = .ok (next, children) ∧
        AddsModel traversal.progress next task.path) ∧
      ∃ progress pending task, hauntedEnvironment.Reaches ⟨[], []⟩ traversal progress pending ∧
        task ∈ pending ∧ ∃ type, hauntedEnvironment.Buildable ⟨[], []⟩ progress task type ∧
          ∃ field fault error, hauntedEnvironment.Selects type task field ∧
            hauntedEnvironment.Faulty field fault ∧
            hauntedEnvironment.step ⟨[], []⟩ progress task = .error error ∧
            hauntedEnvironment.FailsPlanning type task error := by
  have computed : (hauntedEnvironment.start ⟨[], []⟩ Catalog.empty hauntedQuery >>=
      fun traversal => .ok (traversal.tasks.map (fun task =>
          (hauntedEnvironment.step ⟨[], []⟩ traversal.progress task).isOk),
        (hauntedEnvironment.drainWithin ⟨[], []⟩ 2 traversal.progress traversal.tasks).map
          fun drained => drained.2.map fun _ => ())) =
      .ok ([true, false],
        some (.error (.unknownType "Ghost" ⟨["Q", "house", "ghost"]⟩ ⟨1, 1⟩))) := by
    decide +kernel
  constructor
  · have walk : Walk hauntedEnvironment hauntedRoot
        (ScopedSelection.inScope hauntedRoot ghostQuery.items) []
        [⟨⟨none, "ghost", [], [], ⟨1, 1⟩⟩, ⟨⟨1, 1⟩, ⟨1, 1⟩⟩, []⟩] [] :=
      .field rfl (.nil [])
    have selects : hauntedEnvironment.Selects hauntedRoot
        (Task.root hauntedRoot ghostQuery.items (Path.root "Q"))
        (select "Ghost" "ghost" [] (Path.root "Q")) :=
      ⟨_, List.mem_cons_self, hauntedRoot, .inr rfl, _, collectFor_of_walk walk rfl,
        List.mem_singleton_self _⟩
    obtain ⟨onRoot, _⟩ :=
      buildable_of_reaches hauntedEnvironment ⟨[], []⟩ Catalog.empty ghostQuery
    exact onRoot "Q" hauntedRoot rfl rfl _ _ selects (.unknown rfl (by decide +kernel))
  · obtain ⟨traversal, started, results⟩ := bind_eq_ok_iff.mp computed
    obtain ⟨steps, drained⟩ := Prod.mk.inj (Except.ok.inj results)
    obtain ⟨_, onTraversals⟩ :=
      buildable_of_reaches hauntedEnvironment ⟨[], []⟩ Catalog.empty hauntedQuery
    obtain ⟨canBeBuilt, passes, draining⟩ := onTraversals traversal started
    have atStart := passes 0 traversal.progress traversal.tasks rfl
    refine ⟨traversal, started, ?_, ?_⟩
    · obtain ⟨attic, others, tasks, succeeds, _⟩ := List.map_eq_cons_iff.mp steps
      have isTask : attic ∈ traversal.tasks := tasks ▸ List.mem_cons_self
      obtain ⟨type, buildable⟩ := canBeBuilt _ _ atStart attic isTask
      cases stepped : hauntedEnvironment.step ⟨[], []⟩ traversal.progress attic with
      | error error =>
          rw [stepped] at succeeds
          cases succeeds
      | ok done =>
          obtain ⟨next, children⟩ := done
          exact ⟨attic, isTask, next, children, stepped, buildable.adds next children stepped⟩
    · obtain ⟨⟨ended, outcome⟩, computed, failed⟩ := Option.map_eq_some_iff.mp drained
      have drains := drains_of_drainWithin computed
      cases outcome with
      | ok final => cases failed
      | error error =>
          obtain rfl := Except.error.inj failed
          obtain ⟨_, progress, pending, task, reaches, isTask, stepped⟩ := draining _ _ drains
          obtain ⟨type, buildable⟩ := canBeBuilt progress pending reaches task isTask
          have planning := (buildable.fails _ stepped).resolve_right nofun
          obtain ⟨field, selects, _, faulty⟩ := planning.blamesField id
          obtain ⟨error, reported, because⟩ := buildable.reports field _ selects faulty
          exact ⟨progress, pending, task, reaches, isTask, type, buildable, field, _, error,
            selects, faulty, reported, because⟩

end Environment

end ResponseShape

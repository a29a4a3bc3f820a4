import ResponseShape.Proofs.Independence
import ResponseShape.Proofs.PlainPlans

/-!
# Runs in plain form

Naming a plan looks at the first selection of every field and at nothing that its plain form leaves
out (`Progress.realize_plain`). So traversals of operations of one plain form do tasks of one plain
form in turn, and build the same models under the same names
(`Environment.buildOperations_eq_of_plain`). They end after the same number of passes
(`Environment.Drains.of_plain`).
-/

set_option autoImplicit false

namespace ResponseShape

open Outcome

/-! ## Naming -/

namespace Catalog

variable (catalog : Catalog) (avoided : List String)

theorem nameFields_plain (fields : List PlannedField) :
    catalog.nameFields avoided (fields.map PlannedField.plain) =
      catalog.nameFields avoided fields := by
  induction fields generalizing catalog with
  | nil => rfl
  | cons field rest ih =>
      have first : catalog.nameField avoided field.plain = catalog.nameField avoided field := rfl
      rw [List.map_cons, nameFields, nameFields, first, ih]

theorem nameVariants_plain (schema : Schema) (path : Path)
    (variants : List (Variant PlannedField)) :
    nameVariants schema catalog avoided path (variants.map (Variant.map PlannedField.plain)) =
      nameVariants schema catalog avoided path variants := by
  induction variants generalizing catalog with
  | nil => rfl
  | cons variant rest ih =>
      rw [List.map_cons, nameVariants, nameVariants, Variant.map, nameFields_plain, ih]

theorem nameAbstract_plain (schema : Schema) (path : Path) (type : TypeDefinition)
    (variants : List (Variant PlannedField)) (shared : List PlannedField) :
    nameAbstract schema catalog avoided path type (variants.map (Variant.map PlannedField.plain))
        (shared.map PlannedField.plain) =
      nameAbstract schema catalog avoided path type variants shared := by
  rw [nameAbstract, nameAbstract, nameVariants_plain, nameFields_plain]

end Catalog

/-- **A plan in plain form is realized as the plan is.** -/
theorem Progress.realize_plain (progress : Progress) (schema : Schema) (avoided : List String)
    (path : Path) (plan : Plan) :
    progress.realize schema avoided path plan.plain =
      progress.realize schema avoided path plan := by
  cases plan with
  | leaf => rfl
  | object type fields => rw [Plan.plain, realize, realize, Catalog.nameFields_plain]
  | interface type variants shared tasks =>
      rw [Plan.plain, realize, realize, Catalog.nameAbstract_plain]
  | union type variants shared tasks =>
      rw [Plan.plain, realize, realize, Catalog.nameAbstract_plain]

/-! ## Steps and passes -/

namespace Environment

variable {environment environment' : Environment} {policy : NamePolicy} {catalog : Catalog}
  {progress : Progress}

section SamePlain

variable (alike : environment.plain = environment'.plain)

include alike

/-- **A step on tasks of one plain form is the same step**, and leaves tasks of one plain form. -/
theorem agree_step {task task' : Task} (same : task.plain = task'.plain) :
    Agree (fun done done' => done.1 = done'.1 ∧
        done.2.map Task.plain = done'.2.map Task.plain)
      (environment.step policy progress task) (environment'.step policy progress task') := by
  have paths : task.path = task'.path := (congrArg Task.path same :)
  refine (agree_plan alike same).bind fun plan plan' plans => ?_
  rw [paths, schema_eq_of_plain alike, ← progress.realize_plain, plans, progress.realize_plain]
  refine agree_bind_same fun next _ => .ok ⟨rfl, ?_⟩
  rw [← Plan.tasks_plain, ← Plan.tasks_plain, plans]

theorem agree_pass {tasks tasks' : List Task}
    (same : tasks.map Task.plain = tasks'.map Task.plain) :
    Agree (fun done done' => done.1 = done'.1 ∧
        done.2.map Task.plain = done'.2.map Task.plain)
      (environment.pass policy progress tasks) (environment'.pass policy progress tasks') := by
  have related := forall₂_of_map_eq same
  clear same
  induction related generalizing progress with
  | nil => exact .ok ⟨rfl, rfl⟩
  | cons here _ ih =>
      refine (agree_step alike here).bind fun done done' first => ?_
      obtain ⟨next, left⟩ := done
      obtain ⟨next', left'⟩ := done'
      obtain ⟨rfl, sameLeft⟩ := first
      refine ih.bind fun last last' later => .ok ⟨later.1, ?_⟩
      rw [List.map_append, List.map_append, sameLeft, later.2]

/-- **Traversals of tasks of one plain form end in the same way**, after the same passes. -/
theorem Drains.of_plain {tasks tasks' : List Task} {passes : Nat} {outcome : Outcome Progress}
    (drains : environment.Drains policy progress tasks passes outcome)
    (same : tasks.map Task.plain = tasks'.map Task.plain) :
    environment'.Drains policy progress tasks' passes outcome := by
  induction drains generalizing tasks' with
  | done =>
      obtain rfl := List.map_eq_nil_iff.mp same.symm
      exact .done _
  | failed failed =>
      cases tasks' with
      | nil => cases same
      | cons => exact .failed ((agree_pass alike same).eq_error failed)
  | pass passed _ ih =>
      obtain ⟨⟨next', left'⟩, passed', rfl, sameLeft⟩ := (agree_pass alike same).exists_ok passed
      cases tasks' with
      | nil => cases same
      | cons => exact .pass passed' (ih sameLeft)

end SamePlain

end Environment

/-! ## Operations -/

/-- The operation with its selections in plain form. -/
def OperationDefinition.plain (operation : OperationDefinition) : OperationDefinition :=
  { operation with items := Selection.listPlain operation.items }

namespace Environment

variable {environment environment' : Environment} {policy : NamePolicy} {catalog : Catalog}

section SamePlain

variable (alike : environment.plain = environment'.plain)

include alike

/-- **Operations of one plain form start alike**, or cannot be started for one reason. -/
theorem agree_start_of_plain {operation operation' : OperationDefinition}
    (same : operation.plain = operation'.plain) :
    Agree (fun traversal traversal' => traversal.name = traversal'.name ∧
        traversal.kind = traversal'.kind ∧ traversal.rootType = traversal'.rootType ∧
        traversal.progress = traversal'.progress ∧
        traversal.tasks.map Task.plain = traversal'.tasks.map Task.plain)
      (environment.start policy catalog operation)
      (environment'.start policy catalog operation') := by
  have names : operation.name = operation'.name := (congrArg OperationDefinition.name same :)
  have kinds : operation.kind = operation'.kind := (congrArg OperationDefinition.kind same :)
  have positions : operation.position = operation'.position :=
    (congrArg OperationDefinition.position same :)
  have items : Selection.listPlain operation.items = Selection.listPlain operation'.items :=
    (congrArg OperationDefinition.items same :)
  have schemas := schema_eq_of_plain alike
  cases named : operation'.name with
  | none =>
      rw [start, start, names, named, positions]
      exact .error _
  | some name =>
      cases found : environment'.schema.root? operation'.kind with
      | none =>
          rw [start, start, names, named, kinds, schemas, found]
          exact .error _
      | some root =>
          have starts := environment.start_eq_bind policy catalog (names.trans named)
            (by rw [schemas, kinds]; exact found)
          have starts' := environment'.start_eq_bind policy catalog named found
          rw [starts, starts']
          refine (agree_planRoot alike root (Path.root name) items).bind
            fun fields fields' here => ?_
          have tasks : (PlannedField.tasks fields).map Task.plain =
              (PlannedField.tasks fields').map Task.plain := by
            rw [PlannedField.tasks_plain, here, PlannedField.tasks_plain]
          rw [startWith, startWith, ← Catalog.nameFields_plain, here, Catalog.nameFields_plain]
          refine agree_bind_same fun extended _ => .ok ⟨rfl, kinds, rfl, rfl, tasks⟩

/-- Operations of one plain form are completed alike: with the same names and models, or not at all
for one reason. -/
theorem Completes.of_plain {operation operation' : OperationDefinition}
    {outcome : Outcome (Catalog × OperationModel)}
    (completes : environment.Completes policy catalog operation outcome)
    (same : operation.plain = operation'.plain) :
    environment'.Completes policy catalog operation' outcome := by
  have starts : Agree _ (environment.start policy catalog operation)
      (environment'.start policy catalog operation') := agree_start_of_plain alike same
  cases completes with
  | unstarted failed => exact .unstarted (starts.eq_error failed)
  | @drained traversal _ _ started drains =>
      obtain ⟨traversal', started', names, kinds, rootTypes, progress, tasks⟩ :=
        starts.exists_ok started
      have drains' := drains.of_plain alike tasks
      rw [progress] at drains'
      have results : traversal.result = traversal'.result := by
        funext final
        rw [Traversal.result, Traversal.result, names, kinds, rootTypes]
      rw [results]
      exact .drained started' drains'

variable {rank : String → Nat} (ranked : environment.fragments.Ranked rank)

include ranked

/-- **Operations of one plain form are built alike**, where fragments are ranked. -/
theorem buildOperation_eq_of_plain {operation operation' : OperationDefinition}
    (same : operation.plain = operation'.plain) :
    environment.buildOperation policy catalog operation =
      environment'.buildOperation policy catalog operation' :=
  (buildOperation_of_completes
    ((completes_buildOperation ranked policy catalog operation).of_plain alike same)).symm

/-- **What is built is told by plain forms.** In environments whose fragments have one plain form,
operations of one plain form give the same models under the same names, or fail for one reason. -/
theorem buildOperations_eq_of_plain {operations operations' : List OperationDefinition}
    (same : operations.map OperationDefinition.plain =
      operations'.map OperationDefinition.plain) :
    environment.buildOperations policy catalog operations =
      environment'.buildOperations policy catalog operations' := by
  have related := forall₂_of_map_eq same
  clear same
  induction related generalizing catalog with
  | nil => rfl
  | cons here _ ih =>
      rw [buildOperations, buildOperations, buildOperation_eq_of_plain alike ranked here]
      refine congrArg (fun next => _ >>= next) (funext fun built => ?_)
      exact congrArg (fun rest => rest >>= _) ih

end SamePlain

end Environment

end ResponseShape

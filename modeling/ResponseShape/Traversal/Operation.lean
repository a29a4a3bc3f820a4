import ResponseShape.Model.DocumentModel
import ResponseShape.Traversal.NamePolicy
import ResponseShape.Traversal.Naming

/-!
# Building the models of an operation

An operation is built from its root: the root model is added, the fields of the response leave
tasks, and every task adds the models of one position and leaves the tasks of the positions
below it. Tasks are done in passes. A pass does all tasks that the pass before it left, so the
passes go down the response level by level.

Nothing bounds the passes. They end when no fragment reaches itself, because no position lies
deeper than the fields of an operation and of all fragments nested into each other. Where a
fragment does reach itself, the passes may go on without an end.
-/

set_option autoImplicit false

namespace ResponseShape

/-- An operation whose root model exists, with the tasks that it left. -/
structure Traversal where
  name : String
  kind : OperationKind
  rootType : String
  progress : Progress
  tasks : List Task

namespace Environment

/-- Adds the root model of an operation. -/
def start (environment : Environment) (policy : NamePolicy) (catalog : Catalog)
    (operation : OperationDefinition) : Outcome Traversal := do
  let name ←
    match operation.name with
    | none => throw (.anonymousOperation operation.position)
    | some name => pure name
  let root ←
    match environment.schema.root? operation.kind with
    | none => throw (.unsupportedRootOperation name operation.kind)
    | some root => pure root
  let path := Path.root name
  let fields ← environment.planRoot root operation.items path
  let allotted := catalog.allot (.operation name) (Text.className name) policy.reserved
  let named := allotted.2.nameFields policy.avoided fields
  let extended ← named.2.add
    (.object
      { name := allotted.1, description := root.description, schemaType := root.name,
        fields := named.1 })
  return { name, kind := operation.kind, rootType := allotted.1,
           progress := ⟨extended, OrderedMap.empty.insert path allotted.1⟩,
           tasks := PlannedField.tasks fields }

/-- Does a task: adds the models of its position and leaves the tasks below it. -/
def step (environment : Environment) (policy : NamePolicy) (progress : Progress) (task : Task) :
    Outcome (Progress × List Task) := do
  let plan ← environment.plan task
  let next ← progress.realize environment.schema policy.avoided task.path plan
  return (next, plan.tasks)

/-- Does tasks in turn and leaves the tasks that all of them leave. -/
def pass (environment : Environment) (policy : NamePolicy) (progress : Progress) :
    List Task → Outcome (Progress × List Task)
  | [] => .ok (progress, [])
  | task :: rest => do
      let (next, left) ← environment.step policy progress task
      let (last, leftByRest) ← pass environment policy next rest
      return (last, left ++ leftByRest)

/-- How far draining is: how many passes there were, and the tasks that wait after them. -/
structure Drained where
  progress : Progress
  passes : Nat
  left : List Task

instance : Nonempty Drained :=
  ⟨⟨⟨Catalog.empty, OrderedMap.empty⟩, 0, []⟩⟩

/-- One pass more, or the end when no task waits. -/
def passOn (environment : Environment) (policy : NamePolicy) (drained : Drained) :
    Outcome (Drained ⊕ Drained) :=
  match drained.left with
  | [] => .ok (.inr drained)
  | task :: rest => do
      let (next, left) ← environment.pass policy drained.progress (task :: rest)
      return .inl ⟨next, drained.passes + 1, left⟩

/-- Does passes until no task waits. -/
def drain (environment : Environment) (policy : NamePolicy) (progress : Progress)
    (tasks : List Task) : Outcome Drained :=
  repeatM (environment.passOn policy) ⟨progress, 0, tasks⟩

/-- Builds all models of an operation. -/
def buildOperation (environment : Environment) (policy : NamePolicy) (catalog : Catalog)
    (operation : OperationDefinition) : Outcome (Catalog × OperationModel) := do
  let traversal ← environment.start policy catalog operation
  let drained ← environment.drain policy traversal.progress traversal.tasks
  return (drained.progress.catalog,
    { name := traversal.name, kind := traversal.kind, rootType := traversal.rootType,
      paths := drained.progress.paths })

/-- Builds the models of operations in turn. -/
def buildOperations (environment : Environment) (policy : NamePolicy) (catalog : Catalog) :
    List OperationDefinition → Outcome (Catalog × List OperationModel)
  | [] => .ok (catalog, [])
  | operation :: rest => do
      let (next, model) ← environment.buildOperation policy catalog operation
      let (last, models) ← buildOperations environment policy next rest
      return (last, model :: models)

end Environment

end ResponseShape

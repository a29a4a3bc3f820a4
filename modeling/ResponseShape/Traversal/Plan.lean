import ResponseShape.Traversal.Task

/-!
# Plans of models

The model of a position is planned before anything is named: which fields it has on which object
types, what the values of the fields are, and which tasks it leaves. A plan depends on the
schema, the fragments and the task alone, and all errors of the selections are found by it.
Naming a plan adds nothing but names.

The object type, or each object type behind an interface or a union, gets the fields that any of
the selections of the task selects on it. A position whose type is an interface or a union also
has the fields that the selections select on that type itself.
-/

set_option autoImplicit false

namespace ResponseShape

/-- What the value of a field is, for the purpose of naming a model for it. -/
inductive FieldValue where
  | scalar
  | enum
  | composite
  deriving DecidableEq

/-- A field of a planned model. -/
structure PlannedField where
  occurrences : Occurrences
  value : FieldValue

/-- The task that the field leaves, if its value has fields of its own. -/
def PlannedField.task? (field : PlannedField) : Option Task :=
  match field.value with
  | .composite => some (Task.ofOccurrences field.occurrences)
  | .scalar | .enum => none

/-- The tasks that fields leave, in order. -/
def PlannedField.tasks (fields : List PlannedField) : List Task :=
  fields.filterMap PlannedField.task?

/-- A planned model. A position whose type has no fields of its own gets none. -/
inductive Plan where
  | leaf
  | object (type : TypeDefinition) (fields : List PlannedField)
  | interface (type : TypeDefinition) (variants : List (Variant PlannedField))
      (shared : List PlannedField) (tasks : List Task)
  | union (type : TypeDefinition) (variants : List (Variant PlannedField))
      (shared : List PlannedField) (tasks : List Task)

/-- The tasks that the plan leaves, in order. -/
def Plan.tasks : Plan → List Task
  | leaf => []
  | object _ fields => PlannedField.tasks fields
  | interface _ _ _ tasks | union _ _ _ tasks => tasks

namespace Environment

/-! ## Fields -/

/-- What values of the named type are, for a field at `path`. -/
def fieldValue (environment : Environment) (namedType : String) (path : Path)
    (position : Position) : Outcome FieldValue :=
  match environment.schema.type? namedType with
  | some type =>
      match type.kind with
      | .scalar => .ok .scalar
      | .enum => .ok .enum
      | .object | .interface | .union => .ok .composite
      | .inputObject => .error (.notAnOutputType namedType path)
  | none =>
      if builtinScalars.contains namedType then .ok .scalar
      else .error (.unknownType namedType path position)

/-- Plans a field. -/
def planField (environment : Environment) (occurrences : Occurrences) : Outcome PlannedField := do
  let value ←
    environment.fieldValue occurrences.namedType occurrences.path occurrences.position
  return ⟨occurrences, value⟩

/-- Plans fields in turn. -/
def planFields (environment : Environment) (fields : List Occurrences) :
    Outcome (List PlannedField) :=
  fields.mapM environment.planField

/-! ## Selections of a task -/

/-- The fields of object types, found so far. -/
abbrev VariantGroups := OrderedMap String OccurrenceGroups

/-- The groups after the fields of one variant were found. -/
def meetVariant (groups : VariantGroups) (variant : Variant SelectedField) :
    Outcome VariantGroups :=
  groups.update variant.typeName
    (fun present => (present.getD OrderedMap.empty).meetAll variant.fields)

/-- The fields that the selections of a task select on each possible type of `type`. Every
selection is collected on its own; then the results are put together by object type and response
name. -/
def collectVariants (environment : Environment) (type : TypeDefinition) (task : Task) :
    Outcome (List (Variant Occurrences)) := do
  let groups ← task.occurrences.toList.foldlM
    (fun groups occurrence => do
      let variants ← environment.collect type occurrence.node.items task.path
      variants.foldlM meetVariant groups)
    (OrderedMap.empty : VariantGroups)
  return groups.entries.map (fun entry => ⟨entry.1, entry.2.values⟩)

/-- The fields that the selections of a task select on the type itself. -/
def collectShared (environment : Environment) (type : TypeDefinition) (task : Task) :
    Outcome (List Occurrences) := do
  let groups ← task.occurrences.toList.foldlM
    (fun groups occurrence => do
      let fields ← environment.collectOn type occurrence.node.items task.path
      OccurrenceGroups.meetAll groups fields)
    (OrderedMap.empty : OccurrenceGroups)
  return groups.values

/-- The fields of the first variant, if there is one. An object type has one variant at most. -/
def firstFields {φ : Type} (variants : List (Variant φ)) : List φ :=
  variants.head?.elim [] Variant.fields

/-! ## Plans -/

/-- Plans the variants of an interface or a union in turn. Their tasks are joined to those found
before. -/
def planVariants (environment : Environment) (tasks : TaskMap) :
    List (Variant Occurrences) → Outcome (List (Variant PlannedField) × TaskMap)
  | [] => .ok ([], tasks)
  | variant :: rest => do
      let fields ← environment.planFields variant.fields
      let joined ← tasks.joinAll (PlannedField.tasks fields)
      let (planned, all) ← planVariants environment joined rest
      return (⟨variant.typeName, fields⟩ :: planned, all)

/-- Plans what an interface or a union has: its variants, its own fields, and the tasks of both.
A task of its own fields counts only at a position that no variant reaches. -/
def planAbstract (environment : Environment) (type : TypeDefinition) (task : Task)
    (variants : List (Variant Occurrences)) :
    Outcome (List (Variant PlannedField) × List PlannedField × List Task) := do
  let (planned, tasks) ← environment.planVariants OrderedMap.empty variants
  let sharedOccurrences ← environment.collectShared type task
  let shared ← environment.planFields sharedOccurrences
  return (planned, shared, ((PlannedField.tasks shared).foldl TaskMap.addMissing tasks).values)

/-- Plans the model of a task. -/
def plan (environment : Environment) (task : Task) : Outcome Plan :=
  match environment.schema.type? task.namedType with
  | none => .error (.unknownType task.namedType task.path task.occurrences.position)
  | some type => do
      let variants ← environment.collectVariants type task
      match type.kind with
      | .object =>
          let fields ← environment.planFields (firstFields variants)
          return .object type fields
      | .interface =>
          let (planned, shared, tasks) ← environment.planAbstract type task variants
          return .interface type planned shared tasks
      | .union =>
          let (planned, shared, tasks) ← environment.planAbstract type task variants
          return .union type planned shared tasks
      | .scalar | .enum => return .leaf
      | .inputObject => throw (.notAnOutputType task.namedType task.path)

/-- Plans the fields of an operation's response, given the root type. -/
def planRoot (environment : Environment) (root : TypeDefinition) (items : List Selection)
    (path : Path) : Outcome (List PlannedField) := do
  let variants ← environment.collect root items path
  environment.planFields ((firstFields variants).map Occurrences.single)

end Environment

end ResponseShape

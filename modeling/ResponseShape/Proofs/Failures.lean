import ResponseShape.Analysis
import ResponseShape.Proofs.Outcome

/-!
# Why a part of an analysis fails

A computation fails with certain causes only when each of its steps does
(`Outcome.FailsWith`). Collecting selections and putting them together fails for what the
selections say (`Environment.failsWith_collectVariants`), planning them also for the types of fields
(`Environment.failsWith_plan`), accepting fragments for repeated names and for cycles
(`FragmentTable.failsWith_ofDocuments`), and building the model of an enum or of an input object for
directives on the type (`Catalog.failsWith_buildEnum`). Only adding a model can find that its name
has one already.
-/

set_option autoImplicit false

namespace ResponseShape

/-! ## Causes -/

namespace AnalysisError

/-- The error is about how selections are collected and put together. -/
def OfCollecting : AnalysisError → Prop
  | fieldMergeConflict _ _ _ _ _ | unknownTypeCondition _ _ _ _ | unknownFragment _ _ _
  | unknownField _ _ _ _ => True
  | _ => False

/-- The error is about what is selected. -/
def OfSelections : AnalysisError → Prop
  | fieldMergeConflict _ _ _ _ _ | unknownTypeCondition _ _ _ _ | unknownFragment _ _ _
  | unknownField _ _ _ _ | unknownType _ _ _ | notAnOutputType _ _ => True
  | _ => False

/-- The error is about the fragments of the documents. -/
def OfFragments : AnalysisError → Prop
  | duplicateFragmentName _ | fragmentCycle _ _ _ => True
  | _ => False

/-- The error is about the directives that shape models. -/
def OfHints : AnalysisError → Prop
  | duplicateDirective _ _ | invalidDirectiveArgument _ _ _ => True
  | _ => False

/-- The error is not that the name of a model has one already. -/
def NotRepeated (error : AnalysisError) : Prop :=
  ∀ name path, error ≠ duplicateTypeName name path

variable {error : AnalysisError}

theorem OfCollecting.ofSelections (cause : error.OfCollecting) : error.OfSelections := by
  cases error <;> first | exact trivial | exact cause

theorem OfSelections.notRepeated (cause : error.OfSelections) : error.NotRepeated := by
  rintro name path rfl
  exact cause

theorem OfFragments.notRepeated (cause : error.OfFragments) : error.NotRepeated := by
  rintro name path rfl
  exact cause

theorem OfHints.notRepeated (cause : error.OfHints) : error.NotRepeated := by
  rintro name path rfl
  exact cause

end AnalysisError

/-- The computation succeeds, or fails with one of the causes. -/
def Outcome.FailsWith {α : Type} (causes : AnalysisError → Prop) (outcome : Outcome α) : Prop :=
  ∀ error, outcome = .error error → causes error

namespace Outcome

variable {α β σ : Type} {causes causes' : AnalysisError → Prop}

theorem failsWith_ok (value : α) : FailsWith causes (.ok value : Outcome α) :=
  fun _ failed => nomatch failed

theorem failsWith_error {error : AnalysisError} (cause : causes error) :
    FailsWith causes (.error error : Outcome α) :=
  fun _ failed => Except.error.inj failed ▸ cause

theorem FailsWith.mono {outcome : Outcome α} (fails : FailsWith causes outcome)
    (weaker : ∀ error, causes error → causes' error) : FailsWith causes' outcome :=
  fun error failed => weaker error (fails error failed)

theorem FailsWith.bind {first : Outcome α} {next : α → Outcome β}
    (fails : FailsWith causes first)
    (later : ∀ value, first = .ok value → FailsWith causes (next value)) :
    FailsWith causes (first >>= next) := by
  cases first with
  | error error => exact failsWith_error (fails error rfl)
  | ok value => exact later value rfl

theorem FailsWith.map {first : Outcome α} (fails : FailsWith causes first) (change : α → β) :
    FailsWith causes (first.map change) := by
  cases first with
  | error error => exact failsWith_error (fails error rfl)
  | ok value => exact failsWith_ok (change value)

/-- A list fails as its items do. -/
theorem failsWith_mapM {compute : α → Outcome β} {items : List α}
    (each : ∀ item ∈ items, FailsWith causes (compute item)) :
    FailsWith causes (items.mapM compute) := by
  induction items with
  | nil => exact failsWith_ok []
  | cons item rest ih =>
      rw [List.mapM_cons]
      refine (each item List.mem_cons_self).bind fun result _ => ?_
      exact (ih fun other member => each other (List.mem_cons_of_mem _ member)).bind
        fun results _ => failsWith_ok (result :: results)

theorem failsWith_foldlM {step : σ → α → Outcome σ}
    (each : ∀ state item, FailsWith causes (step state item)) (items : List α) (start : σ) :
    FailsWith causes (items.foldlM step start) := by
  induction items generalizing start with
  | nil => exact failsWith_ok start
  | cons item rest ih =>
      rw [List.foldlM_cons]
      exact (each start item).bind fun next _ => ih next

theorem failsWith_update {κ ν : Type} [DecidableEq κ] {map : OrderedMap κ ν} {key : κ}
    {change : Option ν → Outcome ν} (each : ∀ present, FailsWith causes (change present)) :
    FailsWith causes (map.update key change) := by
  rw [OrderedMap.update_eq]
  exact (each _).map _

end Outcome

open Outcome

/-! ## Fragments -/

namespace FragmentTable

theorem failsWith_searchTrail (table : FragmentTable) (entered : List String)
    (trail : List TrailEntry) :
    FailsWith AnalysisError.OfFragments (table.searchTrail entered trail) := by
  fun_induction searchTrail table entered trail with
  | case1 entered => exact failsWith_ok entered
  | case3 => exact failsWith_error trivial
  | case2 _ _ _ ih => exact ih
  | case4 _ _ _ _ _ _ _ ih => exact ih
  | case5 _ _ _ _ _ _ _ _ _ ih => exact ih
  | case6 _ _ _ _ _ _ _ _ _ ih => exact ih

/-- **Fragments are refused for a repeated name or for a cycle.** -/
theorem failsWith_ofDocuments (documents : List Document) :
    FailsWith AnalysisError.OfFragments (ofDocuments documents) := by
  rw [ofDocuments]
  split
  · exact failsWith_error trivial
  · refine FailsWith.bind ?_ fun _ _ => failsWith_ok _
    rw [checkAcyclic]
    refine (failsWith_foldlM (fun entered fragment => ?_) _ _).bind fun _ _ => failsWith_ok _
    rw [searchFrom]
    split
    · exact failsWith_ok entered
    · exact failsWith_searchTrail _ _ _

end FragmentTable

/-! ## Selections -/

namespace Environment

variable {environment : Environment}

theorem failsWith_resolveCondition (condition : String) (scope : TypeDefinition) (path : Path)
    (position : Position) :
    FailsWith AnalysisError.OfCollecting
      (environment.resolveCondition condition scope path position) := by
  rw [resolveCondition]
  split
  · exact failsWith_error trivial
  · split
    · exact failsWith_ok _
    · exact failsWith_error trivial

theorem failsWith_inlineScope (condition : Option String) (scope : TypeDefinition) (path : Path)
    (position : Position) :
    FailsWith AnalysisError.OfCollecting
      (environment.inlineScope condition scope path position) := by
  cases condition with
  | none => exact failsWith_ok scope
  | some name => exact failsWith_resolveCondition name scope path position

theorem failsWith_meet (groups : FieldGroups) (path : Path) (node : FieldNode) :
    FailsWith AnalysisError.OfCollecting (groups.meet path node) := by
  refine failsWith_update fun present => ?_
  cases present with
  | none => exact failsWith_ok node
  | some first =>
      rw [FieldNode.mergeAt]
      cases first.conflict? node with
      | none => exact failsWith_ok _
      | some conflict => exact failsWith_error trivial

theorem failsWith_gather (runtime : TypeDefinition) (path : Path) (gathering : Gathering)
    (agenda : List ScopedSelection) :
    FailsWith AnalysisError.OfCollecting (environment.gather runtime path gathering agenda) := by
  fun_induction gather environment runtime path gathering agenda with
  | case1 gathering => exact failsWith_ok gathering
  | case3 _ _ _ _ _ _ _ error failed => exact failsWith_error (failsWith_meet _ _ _ error failed)
  | case6 _ _ _ _ _ _ _ _ _ error failed =>
      exact failsWith_error (failsWith_inlineScope _ _ _ _ error failed)
  | case11 => exact failsWith_error trivial
  | case12 _ _ _ _ _ _ _ _ _ _ error failed =>
      exact failsWith_error (failsWith_resolveCondition _ _ _ _ error failed)
  | case2 | case4 | case5 | case7 | case8 | case9 | case10 | case13 | case14 => assumption

theorem failsWith_collectFor (runtime scope : TypeDefinition) (items : List Selection)
    (path : Path) :
    FailsWith AnalysisError.OfCollecting (environment.collectFor runtime scope items path) := by
  refine (failsWith_gather runtime path _ _).bind fun gathering _ => ?_
  refine failsWith_mapM fun node _ => ?_
  rw [selectField]
  split
  · exact failsWith_error trivial
  · exact failsWith_ok _

theorem failsWith_collect (type : TypeDefinition) (items : List Selection) (path : Path) :
    FailsWith AnalysisError.OfCollecting (environment.collect type items path) :=
  failsWith_mapM fun runtime _ =>
    (failsWith_collectFor runtime type items path).bind fun _ _ => failsWith_ok _

/-! ## Plans -/

theorem failsWith_absorb (occurrences other : Occurrences) :
    FailsWith AnalysisError.OfCollecting (occurrences.absorb other) := by
  rw [Occurrences.absorb]
  split
  · exact failsWith_error trivial
  · exact failsWith_ok _

theorem failsWith_meetAll (groups : OccurrenceGroups) (fields : List SelectedField) :
    FailsWith AnalysisError.OfCollecting (groups.meetAll fields) := by
  refine failsWith_foldlM (fun groups field => failsWith_update fun present => ?_) fields groups
  cases present with
  | none => exact failsWith_ok _
  | some occurrences => exact failsWith_absorb occurrences _

theorem failsWith_collectVariants (type : TypeDefinition) (task : Task) :
    FailsWith AnalysisError.OfCollecting (environment.collectVariants type task) := by
  refine FailsWith.bind (failsWith_foldlM (fun groups occurrence => ?_) _ _) fun _ _ =>
    failsWith_ok _
  refine (failsWith_collect type occurrence.node.items task.path).bind fun variants _ => ?_
  exact failsWith_foldlM (fun groups variant => failsWith_update fun present =>
    failsWith_meetAll _ variant.fields) variants groups

theorem failsWith_collectShared (type : TypeDefinition) (task : Task) :
    FailsWith AnalysisError.OfCollecting (environment.collectShared type task) := by
  refine FailsWith.bind (failsWith_foldlM (fun groups occurrence => ?_) _ _) fun _ _ =>
    failsWith_ok _
  exact (failsWith_collectFor type type occurrence.node.items task.path).bind fun fields _ =>
    failsWith_meetAll groups fields

theorem failsWith_joinAll (tasks : TaskMap) (found : List Task) :
    FailsWith AnalysisError.OfCollecting (tasks.joinAll found) := by
  refine failsWith_foldlM (fun tasks task => failsWith_update fun present => ?_) found tasks
  cases present with
  | none => exact failsWith_ok task
  | some known =>
      exact (failsWith_absorb known.occurrences task.occurrences).bind fun _ _ => failsWith_ok _

theorem failsWith_planField (occurrences : Occurrences) :
    FailsWith AnalysisError.OfSelections (environment.planField occurrences) := by
  refine FailsWith.bind ?_ fun value _ => failsWith_ok _
  rw [fieldValue]
  split
  · split
    all_goals first | exact failsWith_ok _ | exact failsWith_error trivial
  · split
    · exact failsWith_ok _
    · exact failsWith_error trivial

section Planning

variable {causes : AnalysisError → Prop} {type : TypeDefinition} {task : Task}
  {variants : List (Variant Occurrences)}

/-- Variants fail to be planned as their fields do, and as their tasks fail to be joined. -/
theorem failsWith_planVariants
    (joining : ∀ tasks found, FailsWith causes (TaskMap.joinAll tasks found))
    (each : ∀ variant ∈ variants, ∀ occurrences ∈ variant.fields,
      FailsWith causes (environment.planField occurrences)) (tasks : TaskMap) :
    FailsWith causes (environment.planVariants tasks variants) := by
  induction variants generalizing tasks with
  | nil => exact failsWith_ok _
  | cons variant rest ih =>
      obtain ⟨here, later⟩ := List.forall_mem_cons.mp each
      refine FailsWith.bind (failsWith_mapM here) fun fields _ => ?_
      refine (joining tasks (PlannedField.tasks fields)).bind fun joined _ => ?_
      exact (ih later joined).bind fun _ _ => failsWith_ok _

theorem failsWith_planAbstract
    (joining : ∀ tasks found, FailsWith causes (TaskMap.joinAll tasks found))
    (own : ∀ variant ∈ variants, ∀ occurrences ∈ variant.fields,
      FailsWith causes (environment.planField occurrences))
    (onType : FailsWith causes (environment.collectShared type task))
    (shared : ∀ groups, environment.collectShared type task = .ok groups →
      ∀ occurrences ∈ groups, FailsWith causes (environment.planField occurrences)) :
    FailsWith causes (environment.planAbstract type task variants) := by
  refine (failsWith_planVariants joining own OrderedMap.empty).bind fun _ _ => ?_
  refine onType.bind fun groups collected => ?_
  exact FailsWith.bind (failsWith_mapM (shared groups collected)) fun _ _ => failsWith_ok _

/-- **A position fails to be planned as collecting its selections, planning its fields and joining
the tasks of its variants fail.** -/
theorem failsWith_plan_of_known (known : environment.schema.type? task.namedType = some type)
    (output : type.kind ≠ .inputObject)
    (onPossible : FailsWith causes (environment.collectVariants type task))
    (own : ∀ variants, environment.collectVariants type task = .ok variants →
      ∀ variant ∈ variants, ∀ occurrences ∈ variant.fields,
        FailsWith causes (environment.planField occurrences))
    (abstract : type.kind = .interface ∨ type.kind = .union →
      (∀ tasks found, FailsWith causes (TaskMap.joinAll tasks found)) ∧
      FailsWith causes (environment.collectShared type task) ∧
      ∀ groups, environment.collectShared type task = .ok groups →
        ∀ occurrences ∈ groups, FailsWith causes (environment.planField occurrences)) :
    FailsWith causes (environment.plan task) := by
  rw [plan, known]
  refine onPossible.bind fun variants collected => ?_
  have here := own variants collected
  cases kind : type.kind with
  | object =>
      refine FailsWith.bind (failsWith_mapM fun occurrences isField => ?_) fun _ _ => failsWith_ok _
      cases variants with
      | nil => cases isField
      | cons first rest => exact here first List.mem_cons_self occurrences isField
  | interface | union =>
      obtain ⟨joining, onType, shared⟩ := abstract (by simp [kind])
      exact (failsWith_planAbstract joining here onType shared).bind fun _ _ => failsWith_ok _
  | scalar | enum => exact failsWith_ok _
  | inputObject => exact absurd kind output

end Planning

/-- **Plans fail for what is selected.** -/
theorem failsWith_plan (task : Task) :
    FailsWith AnalysisError.OfSelections (environment.plan task) := by
  have collecting : ∀ error, AnalysisError.OfCollecting error → error.OfSelections :=
    fun _ => AnalysisError.OfCollecting.ofSelections
  cases known : environment.schema.type? task.namedType with
  | none =>
      rw [plan, known]
      exact failsWith_error trivial
  | some type =>
      have onPossible : FailsWith AnalysisError.OfSelections
          (environment.collectVariants type task) :=
        (failsWith_collectVariants type task).mono collecting
      by_cases input : type.kind = .inputObject
      · rw [plan, known]
        refine onPossible.bind fun _ _ => ?_
        rw [input]
        exact failsWith_error trivial
      · exact failsWith_plan_of_known known input onPossible
          (fun _ _ _ _ occurrences _ => failsWith_planField occurrences)
          fun _ => ⟨fun tasks found => (failsWith_joinAll tasks found).mono collecting,
            (failsWith_collectShared type task).mono collecting,
            fun _ _ occurrences _ => failsWith_planField occurrences⟩

theorem failsWith_planRoot (root : TypeDefinition) (items : List Selection) (path : Path) :
    FailsWith AnalysisError.OfSelections (environment.planRoot root items path) :=
  ((failsWith_collect root items path).mono
    fun _ => AnalysisError.OfCollecting.ofSelections).bind fun _ _ =>
      failsWith_mapM fun occurrences _ => failsWith_planField occurrences

end Environment

/-! ## Types in use -/

theorem Hint.failsWith_read (hint : Hint) (directives : List Directive) (location : String) :
    FailsWith AnalysisError.OfHints (hint.read directives location) := by
  refine FailsWith.bind ?_ fun directive _ => ?_
  · rw [find?]
    split
    · exact failsWith_ok _
    · exact failsWith_ok _
    · exact failsWith_error trivial
  · cases directive with
    | none => exact failsWith_ok none
    | some directive =>
        dsimp only
        split
        · exact failsWith_ok _
        · exact failsWith_error trivial

namespace TypeDefinition

theorem failsWith_elementName (name : String) (directives : List Directive) (location : String) :
    FailsWith AnalysisError.OfHints (elementName name directives location) :=
  (Hint.rename.failsWith_read directives location).bind fun _ _ => failsWith_ok _

theorem failsWith_enumModel (type : TypeDefinition) (name : String) :
    FailsWith AnalysisError.OfHints (type.enumModel name) := by
  refine FailsWith.bind (failsWith_mapM fun value _ => ?_) fun values _ => ?_
  · exact (failsWith_elementName value.name value.directives _).bind fun _ _ =>
      (Hint.enumValue.failsWith_read value.directives _).bind fun _ _ => failsWith_ok _
  · exact (Hint.serializationType.failsWith_read type.directives _).bind fun _ _ =>
      failsWith_ok _

theorem failsWith_inputModel (type : TypeDefinition) (name : String) :
    FailsWith AnalysisError.OfHints (type.inputModel name) := by
  refine FailsWith.bind (failsWith_mapM fun field _ => ?_) fun fields _ => failsWith_ok _
  exact (failsWith_elementName field.name field.directives _).bind fun _ _ => failsWith_ok _

end TypeDefinition

namespace Catalog

theorem failsWith_buildNamed {α : Type} (catalog : Catalog) (avoided : List String)
    (type : TypeDefinition) (location : String) {build : String → Outcome α}
    (fails : ∀ name, FailsWith AnalysisError.OfHints (build name)) :
    FailsWith AnalysisError.OfHints (catalog.buildNamed avoided type location build).1 := by
  rw [buildNamed]
  split
  · rename_i error failed
    exact failsWith_error (TypeDefinition.failsWith_elementName _ _ _ error failed)
  · exact fails _

/-- **The model of an enum fails for directives.** -/
theorem failsWith_buildEnum (catalog : Catalog) (avoided : List String) (type : TypeDefinition) :
    FailsWith AnalysisError.OfHints (catalog.buildEnum avoided type).1 :=
  catalog.failsWith_buildNamed avoided type _ fun name => (type.failsWith_enumModel name).map _

/-- **The model of an input object fails for directives.** -/
theorem failsWith_buildInput (catalog : Catalog) (avoided : List String) (type : TypeDefinition) :
    FailsWith AnalysisError.OfHints (catalog.buildInput avoided type).1 :=
  catalog.failsWith_buildNamed avoided type _ fun name => (type.failsWith_inputModel name).map _

end Catalog

end ResponseShape

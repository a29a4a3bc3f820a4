import ResponseShape.Proofs.Failures
import ResponseShape.Proofs.References
import ResponseShape.Proofs.Schedules
import ResponseShape.Proofs.UsedNames

/-!
# Names that have a model already

Adding a model fails when its name has one already. For the models of positions that never happens
while an operation is being built: the name of a pending position has no model, and its variants
are given names that nobody had (`Environment.Underway.failsWith_step`). For the root model it
happens only when an operation of the same name was built before, and for the types in use not at
all, because their names are distinct (`Catalog.failsWith_ofUsage`).

So an analysis fails in this way only when two operations have one name, and if two operations have
one name, then it fails (`AnalysisRequest.distinct_names_of_analyze`).
-/

set_option autoImplicit false

namespace ResponseShape

open Outcome

namespace Environment

variable {environment : Environment} {policy : NamePolicy} {catalog later : Catalog}
  {name : String} {progress next : Progress} {task : Task} {rest tasks more left : List Task}

/-! ## Steps and passes -/

theorem PlanParts.nodup_implemented {type : TypeDefinition} {plan : Plan}
    (parts : environment.PlanParts task type plan) :
    (plan.implemented.map Variant.typeName).Nodup := by
  cases plan with
  | leaf | object => exact List.nodup_nil
  | interface | union => exact parts.nodup_typeNames

namespace Underway

/-- The plan of a pending task can be realized. -/
theorem exists_realize {plan : Plan} (schema : Schema) (avoided : List String)
    (underway : environment.Underway catalog name progress (task :: rest))
    (planned : environment.Plans task plan) :
    ∃ after, progress.realize schema avoided task.path plan = .ok after := by
  have composite := underway.composite task List.mem_cons_self
  obtain ⟨type, parts⟩ := underway.parts_of_first planned
  obtain ⟨given, owns, absent⟩ := underway.waiting _ List.mem_cons_self
    (underway.ne_root task List.mem_cons_self)
  refine Progress.exists_realize (planned.ne_leaf composite) underway.given owns absent
    (fun typeName => ?_) parts.nodup_implemented
  -- a variant of the position would have been named when the position was built
  rw [← Option.not_isSome_iff_eq_none]
  exact fun named => underway.apart _ List.mem_cons_self
    (underway.variants _ typeName (underway.isOf _ (.inr List.mem_cons_self)) named)

/-- **A step never finds a model under a name that it needs.** -/
theorem failsWith_step (underway : environment.Underway catalog name progress (task :: rest)) :
    FailsWith AnalysisError.NotRepeated (environment.step policy progress task) := by
  refine ((failsWith_plan task).mono fun _ => AnalysisError.OfSelections.notRepeated).bind
    fun plan planned => ?_
  obtain ⟨after, realized⟩ := underway.exists_realize environment.schema policy.avoided
    (plan_eq_ok_iff.mp planned)
  rw [realized]
  exact failsWith_ok _

/-- The invariant passes through the tasks of a pass. -/
theorem pass (underway : environment.Underway catalog name progress (tasks ++ more))
    (passed : environment.pass policy progress tasks = .ok (next, left)) :
    environment.Underway catalog name next (more ++ left) := by
  induction tasks generalizing progress more left with
  | nil =>
      obtain ⟨rfl, rfl⟩ := Prod.mk.inj (Except.ok.inj passed)
      rwa [List.append_nil]
  | cons task rest ih =>
      obtain ⟨between, leftByFirst, leftByRest, first, rests, rfl⟩ :=
        pass_cons_eq_ok_iff.mp passed
      rw [List.cons_append] at underway
      have here := (underway.step first).1
      rw [List.append_assoc] at here
      rw [← List.append_assoc]
      exact ih here rests

theorem failsWith_pass (underway : environment.Underway catalog name progress (tasks ++ more)) :
    FailsWith AnalysisError.NotRepeated (environment.pass policy progress tasks) := by
  induction tasks generalizing progress more with
  | nil => exact failsWith_ok _
  | cons task rest ih =>
      rw [List.cons_append] at underway
      refine underway.failsWith_step.bind fun done first => ?_
      obtain ⟨between, leftByFirst⟩ := done
      have here := (underway.step first).1
      rw [List.append_assoc] at here
      exact (ih here).bind fun _ _ => failsWith_ok _

/-- **Passes keep the invariant to their end**, and do not find a model of a name that they
need. -/
theorem drains {passes : Nat} {outcome : Outcome Progress}
    (underway : environment.Underway catalog name progress tasks)
    (drains : environment.Drains policy progress tasks passes outcome) :
    FailsWith AnalysisError.NotRepeated outcome ∧
      ∀ final, outcome = .ok final → environment.Underway catalog name final [] := by
  induction drains with
  | done progress =>
      refine ⟨failsWith_ok _, fun final same => ?_⟩
      obtain rfl := Except.ok.inj same
      exact underway
  | failed failed =>
      rw [← List.append_nil (_ :: _)] at underway
      exact ⟨failsWith_error (underway.failsWith_pass _ failed), fun _ same => by cases same⟩
  | pass passed _ ih =>
      rw [← List.append_nil (_ :: _)] at underway
      have here := underway.pass passed
      rw [List.nil_append] at here
      exact ih here

end Underway

/-! ## Operations -/

variable {operation : OperationDefinition} {model : OperationModel}

/-- The root of an operation of which nothing has a name can be added. -/
theorem exists_startWith_of_unnamed (policy : NamePolicy) (operation : OperationDefinition)
    (root : TypeDefinition) (fields : List PlannedField) (unnamed : Unnamed catalog name)
    (given : ∀ key ∈ catalog.models.keys, key ∈ catalog.given) :
    ∃ traversal, startWith policy catalog operation name root fields = .ok traversal := by
  obtain ⟨named, object, same, position⟩ :=
    exists_startWith policy catalog operation name root fields
  obtain ⟨fresh, owns⟩ := position.allots.fresh _ _ (unnamed (.operation name) rfl)
    position.names.own
  have addable : ∃ progress, Progress.addModels ⟨catalog, OrderedMap.empty⟩ (Path.root name) named
      (.object object) [] = .ok progress :=
    Progress.exists_addModels position given owns (fun registered => fresh (given _ registered))
      (fun _ => nofun) (fun typeName => unnamed (.variant (Path.root name) typeName) rfl)
      List.nodup_nil
  obtain ⟨progress, added⟩ := addable
  rw [same, added]
  exact ⟨_, rfl⟩

/-- **An operation of which nothing has a name is started without finding a model of a name that it
needs.** -/
theorem failsWith_start (named : operation.name = some name) (unnamed : Unnamed catalog name)
    (given : ∀ key ∈ catalog.models.keys, key ∈ catalog.given) :
    FailsWith AnalysisError.NotRepeated (environment.start policy catalog operation) := by
  cases found : environment.schema.root? operation.kind with
  | none =>
      rw [start, named, found]
      exact failsWith_error (by simp [AnalysisError.NotRepeated])
  | some root =>
      have plans : environment.start policy catalog operation =
          environment.planRoot root operation.items (Path.root name) >>=
            startWith policy catalog operation name root := by
        rw [start, named, found]
        rfl
      rw [plans]
      refine ((failsWith_planRoot root operation.items (Path.root name)).mono
        fun _ => AnalysisError.OfSelections.notRepeated).bind fun fields _ => ?_
      obtain ⟨traversal, started⟩ :=
        exists_startWith_of_unnamed policy operation root fields unnamed given
      exact started ▸ failsWith_ok traversal

/-- The names after an operation was built are those before, and names of the operation. -/
structure Follows (earlier later : Catalog) (name : String) : Prop where
  given : ∀ key ∈ later.models.keys, key ∈ later.given
  elsewhere : ∀ owner : NameOwner, owner.operation? ≠ some name →
    later.nameOf? owner = earlier.nameOf? owner

/-- **Completing an operation of which nothing has a name finds no model of a name that it needs**,
and gives names of the operation only. -/
theorem Completes.follows {outcome : Outcome (Catalog × OperationModel)}
    (completes : environment.Completes policy catalog operation outcome)
    (named : operation.name = some name) (unnamed : Unnamed catalog name)
    (given : ∀ key ∈ catalog.models.keys, key ∈ catalog.given) :
    FailsWith AnalysisError.NotRepeated outcome ∧
      ∀ later model, outcome = .ok (later, model) → Follows catalog later name := by
  cases completes with
  | unstarted failed =>
      exact ⟨failsWith_error (failsWith_start named unnamed given _ failed),
        fun _ _ same => by cases same⟩
  | drained started drains =>
      obtain ⟨fails, ends⟩ := (underway_of_start named unnamed given started).drains drains
      refine ⟨fails.map _, fun later model same => ?_⟩
      obtain ⟨final, succeeded, result⟩ := map_eq_ok_iff.mp same
      obtain ⟨rfl, _⟩ := Prod.mk.inj result
      exact ⟨(ends final succeeded).given, (ends final succeeded).elsewhere⟩

/-- An operation without a name is not completed. -/
theorem Completes.eq_of_anonymous {outcome : Outcome (Catalog × OperationModel)}
    (completes : environment.Completes policy catalog operation outcome)
    (anonymous : operation.name = none) :
    outcome = .error (.anonymousOperation operation.position) := by
  rw [← buildOperation_of_completes completes, buildOperation, start, anonymous]
  rfl

/-- **Operations of distinct names are built without finding a model of a name that they need.** -/
theorem CompletesAll.failsWith {operations : List OperationDefinition}
    {outcome : Outcome (Catalog × List OperationModel)}
    (completes : environment.CompletesAll policy catalog operations outcome)
    (distinct : (operations.filterMap OperationDefinition.name).Nodup)
    (unnamed : ∀ name ∈ operations.filterMap OperationDefinition.name, Unnamed catalog name)
    (given : ∀ key ∈ catalog.models.keys, key ∈ catalog.given) :
    FailsWith AnalysisError.NotRepeated outcome := by
  induction completes with
  | nil => exact failsWith_ok _
  | @failed _ operation rest _ failed =>
      cases named : operation.name with
      | none =>
          obtain rfl := Except.error.inj (failed.eq_of_anonymous named)
          exact failsWith_error (by simp [AnalysisError.NotRepeated])
      | some name =>
          rw [List.filterMap_cons_some named] at unnamed
          have here := unnamed name List.mem_cons_self
          exact failsWith_error ((failed.follows named here given).1 _ rfl)
  | @cons _ _ operation _ _ _ first _ ih =>
      cases named : operation.name with
      | none => cases first.eq_of_anonymous named
      | some name =>
          rw [List.filterMap_cons_some named] at distinct unnamed
          have here := unnamed name List.mem_cons_self
          have follows := (first.follows named here given).2 _ _ rfl
          obtain ⟨apart, distinctRest⟩ := List.nodup_cons.mp distinct
          refine (ih distinctRest (fun other member owner isOf => ?_) follows.given).map _
          rw [follows.elsewhere owner fun same => apart ?_]
          · exact unnamed other (List.mem_cons_of_mem _ member) owner isOf
          · rwa [← Option.some.inj (isOf.symm.trans same)]

end Environment

/-! ## Types in use -/

namespace Catalog

variable {schema : Schema} {catalog later : Catalog} {avoided : List String}
  {build : Catalog → TypeDefinition → Cataloged TypeModel} {kind : TypeKind}

/-- The builder fails for directives only, and names the type alone. -/
structure NamesTypes (build : Catalog → TypeDefinition → Cataloged TypeModel) : Prop where
  fails : ∀ catalog type, FailsWith AnalysisError.OfHints (build catalog type).1
  allots : ∀ catalog type model between, build catalog type = (.ok model, between) →
    catalog.Allots [.schemaType type.name] between

theorem allots_buildNamed {α : Type} {type : TypeDefinition} {location : String}
    {compute : String → Outcome α} {result : α}
    (built : catalog.buildNamed avoided type location compute = (.ok result, later)) :
    catalog.Allots [.schemaType type.name] later := by
  rw [buildNamed] at built
  split at built
  · cases built
  · obtain ⟨_, rfl⟩ := Prod.mk.inj built
    exact catalog.allots_allot _ _ avoided

theorem namesTypes_buildEnum (avoided : List String) :
    NamesTypes (fun catalog type => catalog.buildEnum avoided type) where
  fails catalog type := catalog.failsWith_buildEnum avoided type
  allots _ _ _ _ built := allots_buildNamed built

theorem namesTypes_buildInput (avoided : List String) :
    NamesTypes (fun catalog type => catalog.buildInput avoided type) where
  fails catalog type := catalog.failsWith_buildInput avoided type
  allots _ _ _ _ built := allots_buildNamed built

/-- The owners of the names of types. -/
def ownersOf (types : List TypeDefinition) : List NameOwner :=
  types.map (fun type => .schemaType type.name)

/-- The model of a type that has no name yet can be added. -/
theorem exists_add_of_unnamed (builds : BuildsTypes build kind) (names : NamesTypes build)
    {type : TypeDefinition} (isKind : type.kind = kind)
    (unnamed : catalog.nameOf? (.schemaType type.name) = none)
    (given : ∀ key ∈ catalog.models.keys, key ∈ catalog.given) {model : TypeModel}
    {between : Catalog} (built : build catalog type = (.ok model, between)) :
    ∃ next, between.add model = .ok next ∧ catalog.Allots [.schemaType type.name] next ∧
      ∀ key ∈ next.models.keys, key ∈ next.given := by
  obtain ⟨_, models, named, _⟩ := builds catalog between type model isKind built
  have allots := names.allots catalog type model between built
  -- the type was given a name that no model has
  have fresh := (allots.fresh _ _ unnamed named).1
  refine ⟨_, add_eq_ok_iff.mpr ⟨fun member => fresh (given _ (models ▸ member)), rfl⟩,
    allots.of_allotments rfl, fun key member => ?_⟩
  rw [OrderedMap.keys_insert, OrderedSet.mem_add, models] at member
  rcases member with earlier | rfl
  · exact allots.given key (given key earlier)
  · exact mem_given_of_nameOf? named

/-- Types of other names still have none when a type was given one. -/
theorem Allots.unnamed_ownersOf {type : TypeDefinition} {others : List TypeDefinition}
    (allots : catalog.Allots [.schemaType type.name] later)
    (apart : type.name ∉ others.map TypeDefinition.name)
    (unnamed : ∀ owner ∈ ownersOf others, catalog.nameOf? owner = none) :
    ∀ owner ∈ ownersOf others, later.nameOf? owner = none := by
  intro owner member
  rw [allots.nameOf?_of_notMem fun isType => apart ?_]
  · exact unnamed owner member
  · obtain ⟨other, isOther, rfl⟩ := List.mem_map.mp member
    rw [← NameOwner.schemaType.inj (List.mem_singleton.mp isType)]
    exact List.mem_map_of_mem isOther

/-- **The models of types of distinct names that have no names yet are added without finding a model
of a name that they need.** -/
theorem failsWith_addBuilt (builds : BuildsTypes build kind) (names : NamesTypes build)
    {types : List TypeDefinition} (kinds : ∀ type ∈ types, type.kind = kind)
    (distinct : (types.map TypeDefinition.name).Nodup)
    (unnamed : ∀ owner ∈ ownersOf types, catalog.nameOf? owner = none)
    (given : ∀ key ∈ catalog.models.keys, key ∈ catalog.given) :
    FailsWith AnalysisError.NotRepeated (addBuilt build catalog types).1 ∧
      ∀ later, addBuilt build catalog types = (.ok (), later) →
        (∀ key ∈ later.models.keys, key ∈ later.given) ∧
          catalog.Allots (ownersOf types) later := by
  induction types generalizing catalog with
  | nil =>
      refine ⟨failsWith_ok (), fun later done => ?_⟩
      obtain ⟨_, rfl⟩ := Prod.mk.inj done
      exact ⟨given, .refl catalog⟩
  | cons type rest ih =>
      rw [List.map_cons, List.nodup_cons] at distinct
      rw [addBuilt]
      cases built : build catalog type with
      | mk result between =>
          cases result with
          | error error =>
              have cause := names.fails catalog type error (by rw [built])
              exact ⟨failsWith_error cause.notRepeated, fun later done => by cases done⟩
          | ok model =>
              obtain ⟨next, added, allots, givenNext⟩ := exists_add_of_unnamed builds names
                (kinds type List.mem_cons_self) (unnamed _ List.mem_cons_self) given built
              have unnamedRest := allots.unnamed_ownersOf distinct.1 fun owner member =>
                unnamed owner (List.mem_cons_of_mem _ member)
              obtain ⟨fails, ends⟩ := ih
                (fun other member => kinds other (List.mem_cons_of_mem _ member)) distinct.2
                unnamedRest givenNext
              simp only [added]
              refine ⟨fails, fun later done => ?_⟩
              obtain ⟨givenLater, allotsRest⟩ := ends later done
              exact ⟨givenLater, allots.trans allotsRest⟩

/-- A type is not both an enum and an input object. -/
theorem notMem_ownersOf_enumTypes {usage : TypeUsage} :
    ∀ owner ∈ ownersOf (usage.inputTypes schema), owner ∉ ownersOf (usage.enumTypes schema) := by
  intro owner isInput isEnum
  obtain ⟨input, member, rfl⟩ := List.mem_map.mp isInput
  obtain ⟨enum, memberEnum, same⟩ := List.mem_map.mp isEnum
  obtain ⟨found, inputKind⟩ := known_of_mem_filterMap input member
  obtain ⟨foundEnum, enumKind⟩ := known_of_mem_filterMap enum memberEnum
  rw [NameOwner.schemaType.inj same, found] at foundEnum
  rw [Option.some.inj foundEnum, enumKind] at inputKind
  cases inputKind

/-- The models of the types in use fail as those of the enums do, or as those of the input objects
that come after them. -/
theorem failsWith_ofUsage_of_parts {usage : TypeUsage} {cause : AnalysisError → Prop}
    (enumsFail : FailsWith cause (empty.addEnums schema usage avoided).1)
    (inputsFail : ∀ withEnums, empty.addEnums schema usage avoided = (.ok (), withEnums) →
      FailsWith cause (withEnums.addInputs schema usage avoided).1) :
    FailsWith cause (ofUsage schema usage avoided) := by
  rw [ofUsage]
  cases enums : empty.addEnums schema usage avoided with
  | mk result withEnums =>
      cases result with
      | error error => exact failsWith_error (enumsFail error (congrArg Prod.fst enums))
      | ok done =>
          have fails := inputsFail withEnums enums
          cases inputs : withEnums.addInputs schema usage avoided with
          | mk result withInputs =>
              rw [inputs] at fails
              cases result with
              | error error =>
                  simp only [inputs]
                  exact failsWith_error (fails error rfl)
              | ok done =>
                  simp only [inputs]
                  exact failsWith_ok _

/-- **The models of the types in use are added without finding a model of a name that they need**,
and only types are given names. -/
theorem failsWith_ofUsage {usage : TypeUsage} (known : usage.Known schema) :
    FailsWith AnalysisError.NotRepeated (ofUsage schema usage avoided) ∧
      ∀ catalog, ofUsage schema usage avoided = .ok catalog →
        (∀ key ∈ catalog.models.keys, key ∈ catalog.given) ∧
          empty.Allots (ownersOf (usage.enumTypes schema) ++ ownersOf (usage.inputTypes schema))
            catalog := by
  obtain ⟨failsEnums, endsEnums⟩ := failsWith_addBuilt (buildsTypes_buildEnum avoided)
    (namesTypes_buildEnum avoided) (fun type member => (known_of_mem_filterMap type member).2)
    (known.map_name_enumTypes.symm ▸ usage.distinctEnums.nodup)
    (fun owner _ => (rfl : empty.nameOf? owner = none)) nofun
  have unnamed : ∀ withEnums, empty.addEnums schema usage avoided = (.ok (), withEnums) →
      ∀ owner ∈ ownersOf (usage.inputTypes schema), withEnums.nameOf? owner = none :=
    fun withEnums enums owner member =>
      (endsEnums withEnums enums).2.nameOf?_of_notMem (notMem_ownersOf_enumTypes owner member)
  have inputsAfter := fun withEnums enums => failsWith_addBuilt (buildsTypes_buildInput avoided)
    (namesTypes_buildInput avoided) (fun type member => (known_of_mem_filterMap type member).2)
    (known.map_name_inputTypes.symm ▸ usage.distinctInputs.nodup) (unnamed withEnums enums)
    (endsEnums withEnums enums).1
  refine ⟨failsWith_ofUsage_of_parts failsEnums fun withEnums enums =>
    (inputsAfter withEnums enums).1, fun catalog built => ?_⟩
  obtain ⟨withEnums, enums, inputs⟩ := exists_of_ofUsage built
  obtain ⟨given, allots⟩ := (inputsAfter withEnums enums).2 catalog inputs
  exact ⟨given, (endsEnums withEnums enums).2.trans allots⟩

/-- Nothing of an operation has a name when only types have. -/
theorem unnamed_of_allots {types others : List TypeDefinition}
    (allots : empty.Allots (ownersOf types ++ ownersOf others) catalog) (name : String) :
    Environment.Unnamed catalog name := by
  intro owner isOf
  refine allots.nameOf?_of_notMem fun member => ?_
  rw [ownersOf, ownersOf, ← List.map_append] at member
  obtain ⟨type, _, rfl⟩ := List.mem_map.mp member
  cases isOf

end Catalog

/-! ## Analyses -/

namespace Environment

variable {environment : Environment} {catalog later : Catalog}
  {operations : List OperationDefinition} {models : List OperationModel}
  {histories : List (List Built)}

/-- Every model of an operation has the name of its operation. -/
theorem BuildsAll.names_eq
    (builds : environment.BuildsAll catalog operations later models histories) :
    operations.map OperationDefinition.name =
      (models.map OperationModel.name).map some := by
  have names := congrArg (List.map Prod.fst) builds.operations_eq
  simpa only [List.map_map, Function.comp_def] using names

end Environment

namespace AnalysisRequest

/-- **A model under a name that has one is an operation under a name that another operation has.**
When the operations of all documents have distinct names, no analysis fails because the name of a
model has one already, and an analysis succeeds only then. -/
theorem distinct_names_of_analyze (request : AnalysisRequest) :
    (((Document.operations request.documents).filterMap OperationDefinition.name).Nodup →
      ∀ name path, request.analyze ≠ .error (.duplicateTypeName name path)) ∧
    ∀ document, request.analyze = .ok document →
      ((Document.operations request.documents).map OperationDefinition.name).Nodup := by
  obtain ⟨given, documents, reserved⟩ := request
  cases given with
  | none =>
      refine ⟨fun _ name path failed => ?_, fun document analyzed => ?_⟩
      · cases failed
      · cases analyzed
  | some schema =>
      refine ⟨fun distinct name path failed => ?_, fun document analyzed => ?_⟩
      · have fails : FailsWith AnalysisError.NotRepeated
            (analyze ⟨some schema, documents, reserved⟩) := by
          rw [analyze]
          simp only [pure_bind]
          split
          · exact failsWith_error (by simp [AnalysisError.NotRepeated])
          · refine ((FragmentTable.failsWith_ofDocuments documents).mono
              fun _ => AnalysisError.OfFragments.notRepeated).bind fun fragments accepted => ?_
            obtain ⟨_, _, rank, ranked⟩ := FragmentTable.ranked_of_ofDocuments accepted
            obtain ⟨failsUsage, ends⟩ :=
              Catalog.failsWith_ofUsage (TypeUsage.known_ofDocuments schema documents)
            refine failsUsage.bind fun catalog used => ?_
            obtain ⟨givenNames, allots⟩ := ends catalog used
            refine FailsWith.bind ?_ fun _ _ => failsWith_ok _
            have ranked : (Environment.mk schema fragments).fragments.Ranked rank := ranked
            exact (Environment.completesAll_buildOperations ranked _ catalog _).failsWith distinct
              (fun name _ => Catalog.unnamed_of_allots allots name) givenNames
        exact fails _ failed name path rfl
      · obtain ⟨_, catalog, _, _, _, used, builds, _⟩ := exists_builds rfl analyzed
        have start := (Catalog.holdsTypes_of_ofUsage used).1.distinct
        rw [builds.names_eq]
        exact (builds.nodup_names start).1.map fun _ _ => Option.some.inj

open Sample in
theorem distinct_names_of_pets :
    (((Document.operations petDocuments).filterMap OperationDefinition.name).Nodup ∧
      ∀ name path, analyze ⟨some petSchema, petDocuments, ["Pet"]⟩ ≠
        .error (.duplicateTypeName name path)) ∧
    (∃ document, analyze ⟨some petSchema, petDocuments, ["Pet"]⟩ = .ok document ∧
      ((Document.operations petDocuments).map OperationDefinition.name).Nodup) ∧
    analyze ⟨some petSchema, [.operation petQuery] :: petDocuments, ["Pet"]⟩ =
      .error (.duplicateTypeName "Q" (some ⟨["Q"]⟩)) := by
  have distinct : ((Document.operations petDocuments).filterMap OperationDefinition.name).Nodup := by
    decide +kernel
  have analyzed : (analyze ⟨some petSchema, petDocuments, ["Pet"]⟩).map (fun _ => ()) = .ok () :=
    map_analyze_of_within 4 (by decide +kernel)
  obtain ⟨document, analyzed, _⟩ := map_eq_ok_iff.mp analyzed
  have names := distinct_names_of_analyze ⟨some petSchema, petDocuments, ["Pet"]⟩
  have repeated : (analyze ⟨some petSchema, [.operation petQuery] :: petDocuments, ["Pet"]⟩).map
      DocumentModel.operations = .error (.duplicateTypeName "Q" (some ⟨["Q"]⟩)) :=
    map_analyze_of_within 4 (by decide +kernel)
  refine ⟨⟨distinct, names.1 distinct⟩, ⟨document, analyzed, names.2 document analyzed⟩, ?_⟩
  cases failed : analyze ⟨some petSchema, [.operation petQuery] :: petDocuments, ["Pet"]⟩ with
  | error error =>
      rw [failed] at repeated
      exact congrArg _ (Except.error.inj repeated)
  | ok document =>
      rw [failed] at repeated
      cases repeated

end AnalysisRequest

end ResponseShape

import ResponseShape.Proofs.Agreement
import ResponseShape.Proofs.RepeatedNames

/-!
# What else is analysed changes names only

What was built before an operation, and which names are reserved, show in the names that its models
get and in nothing else. A plan does not look at the catalog, and the models that realize it are,
without their names, those that the plan tells (`Plan.models`). Two traversals of one operation
over different catalogs therefore go side by side (`Environment.Alongside`): they do the same tasks,
add the same models up to names (`TypeModel.nameless`) at the same paths, and fail for the same
reason (`Environment.agree_buildOperation`). Neither finds a model under a name that it needs, when
nothing of the operation has a name at the start and every model has the name of somebody.
-/

set_option autoImplicit false

namespace ResponseShape

/-! ## Models without names -/

/-- The field without the name of its value's model. -/
def OutputFieldModel.nameless (model : OutputFieldModel) : OutputFieldModel :=
  { model with typeModel := none }

/-- The model without its name, and without the names that its fields refer to. -/
def ObjectModel.nameless (model : ObjectModel) : ObjectModel :=
  { model with name := "", fields := model.fields.map OutputFieldModel.nameless }

/-- The model without its name, and without the names that its fields and it refer to. It still
tells how many implementations there are. -/
def AbstractModel.nameless (model : AbstractModel) : AbstractModel :=
  { model with
    name := ""
    fields := model.fields.map OutputFieldModel.nameless
    implementations := model.implementations.map (fun _ => "") }

/-- The model without the names of models. -/
def TypeModel.nameless : TypeModel → TypeModel
  | enum model => enum { model with name := "" }
  | input model => input { model with name := "" }
  | object model => object model.nameless
  | interface model => interface model.nameless
  | union model => union model.nameless

/-! ## The models that a plan tells -/

/-- The model of a planned field, without names. -/
def PlannedField.model (field : PlannedField) : OutputFieldModel :=
  { responseName := field.occurrences.first.responseName
    fieldName := field.occurrences.first.definition.name
    description := field.occurrences.first.definition.description
    fieldType := field.occurrences.first.definition.type.render
    path := field.occurrences.first.path
    typeModel := none }

/-- The model of a planned object type, without names. -/
def Variant.model (schema : Schema) (variant : Variant PlannedField) : ObjectModel :=
  { name := ""
    description := (schema.type? variant.typeName).bind TypeDefinition.description
    schemaType := variant.typeName
    fields := variant.fields.map PlannedField.model }

/-- The model of a planned interface or union, without names. -/
def TypeDefinition.abstractModel (type : TypeDefinition) (variants : List (Variant PlannedField))
    (shared : List PlannedField) : AbstractModel :=
  { name := ""
    description := type.description
    schemaType := type.name
    fields := shared.map PlannedField.model
    implementations := variants.map (fun _ => "") }

/-- The models of a plan, without names. -/
def Plan.models (schema : Schema) : Plan → List TypeModel
  | leaf => []
  | object type fields =>
      [.object ⟨"", type.description, type.name, fields.map PlannedField.model⟩]
  | interface type variants shared _ =>
      .interface (type.abstractModel variants shared) ::
        variants.map (fun variant => .object (variant.model schema))
  | union type variants shared _ =>
      .union (type.abstractModel variants shared) ::
        variants.map (fun variant => .object (variant.model schema))

namespace Catalog

/-- Whatever the catalog is, planned fields have the same models up to names. -/
theorem nameless_nameFields (catalog : Catalog) (avoided : List String)
    (fields : List PlannedField) :
    (catalog.nameFields avoided fields).1.map OutputFieldModel.nameless =
      fields.map PlannedField.model := by
  induction fields generalizing catalog with
  | nil => rfl
  | cons field rest ih =>
      rw [nameFields, List.map_cons, List.map_cons, ih]
      rfl

theorem nameless_nameVariants (schema : Schema) (catalog : Catalog) (avoided : List String)
    (path : Path) (variants : List (Variant PlannedField)) :
    (nameVariants schema catalog avoided path variants).1.map ObjectModel.nameless =
      variants.map (Variant.model schema) := by
  induction variants generalizing catalog with
  | nil => rfl
  | cons variant rest ih =>
      rw [nameVariants, List.map_cons, List.map_cons, ih, ObjectModel.nameless,
        nameless_nameFields]
      rfl

theorem nameless_nameAbstract (schema : Schema) (catalog : Catalog) (avoided : List String)
    (path : Path) (type : TypeDefinition) (variants : List (Variant PlannedField))
    (shared : List PlannedField) :
    let named := nameAbstract schema catalog avoided path type variants shared
    named.1.nameless = type.abstractModel variants shared ∧
      named.2.1.map ObjectModel.nameless = variants.map (Variant.model schema) := by
  intro named
  have objects := nameless_nameVariants schema
    (catalog.allot (.field path) type.name avoided).2 avoided path variants
  refine ⟨?_, objects⟩
  have counted := congrArg List.length objects
  rw [List.length_map, List.length_map] at counted
  simp only [named, nameAbstract, AbstractModel.nameless, nameless_nameFields, List.map_map,
    TypeDefinition.abstractModel, AbstractModel.mk.injEq, true_and]
  simp only [Function.comp_def, List.map_const', counted]

/-- The models that are added are those that were given. -/
theorem nameless_of_addAll {catalog later : Catalog} {models : List TypeModel}
    (added : catalog.addAll models = .ok later) :
    ∃ entries, later.models.entries = catalog.models.entries ++ entries ∧
      entries.map (fun entry => entry.2.nameless) = models.map TypeModel.nameless := by
  obtain ⟨_, entries, _⟩ := addAll_eq_ok added
  exact ⟨_, entries, by simp only [List.map_map, Function.comp_def]⟩

end Catalog

namespace Progress

variable {before after : Progress} {schema : Schema} {avoided : List String} {path : Path}
  {catalog : Catalog} {own : TypeModel} {objects : List ObjectModel}

theorem nameless_of_addModels (models : catalog.models = before.catalog.models)
    (added : before.addModels path catalog own objects = .ok after) :
    ∃ entries, after.catalog.models.entries = before.catalog.models.entries ++ entries ∧
      entries.map (fun entry => entry.2.nameless) =
        own.nameless :: (objects.map ObjectModel.nameless).map TypeModel.object := by
  obtain ⟨extended, adding, same⟩ := bind_eq_ok_iff.mp added
  obtain rfl := Except.ok.inj same
  obtain ⟨entries, here, nameless⟩ := Catalog.nameless_of_addAll adding
  rw [models] at here
  refine ⟨entries, here, nameless.trans ?_⟩
  simp only [List.map_map, List.map_cons, Function.comp_def, TypeModel.nameless]

/-- An interface or a union, made of its model by `make`, is added in front of its variants. -/
theorem nameless_of_addAbstract {type : TypeDefinition} {variants : List (Variant PlannedField)}
    {shared : List PlannedField} (make : AbstractModel → TypeModel)
    (nameless : ∀ model, (make model).nameless = make model.nameless)
    (added :
      let named := Catalog.nameAbstract schema before.catalog avoided path type variants shared
      before.addModels path named.2.2 (make named.1) named.2.1 = .ok after) :
    ∃ entries, after.catalog.models.entries = before.catalog.models.entries ++ entries ∧
      entries.map (fun entry => entry.2.nameless) =
        make (type.abstractModel variants shared) ::
          variants.map (fun variant => .object (variant.model schema)) := by
  have models := Catalog.models_nameAbstract schema before.catalog avoided path type variants
    shared
  obtain ⟨own, implementing⟩ := Catalog.nameless_nameAbstract schema before.catalog avoided
    path type variants shared
  obtain ⟨entries, here, same⟩ := nameless_of_addModels models added
  refine ⟨entries, here, same.trans ?_⟩
  rw [nameless, own, implementing, List.map_map]
  rfl

/-- **The models that realize a plan are, without their names, those that the plan tells.** -/
theorem nameless_of_realize {plan : Plan}
    (realized : before.realize schema avoided path plan = .ok after) :
    ∃ entries, after.catalog.models.entries = before.catalog.models.entries ++ entries ∧
      entries.map (fun entry => entry.2.nameless) = plan.models schema := by
  cases plan with
  | leaf =>
      obtain rfl := Except.ok.inj realized
      exact ⟨[], (List.append_nil _).symm, rfl⟩
  | object type fields =>
      have models := (Catalog.models_nameFields _ avoided fields).trans
        (before.catalog.models_allot (.field path) type.name avoided)
      obtain ⟨entries, added, nameless⟩ := nameless_of_addModels models realized
      refine ⟨entries, added, nameless.trans ?_⟩
      simp only [TypeModel.nameless, ObjectModel.nameless, Catalog.nameless_nameFields,
        List.map_nil, Plan.models]
  | interface type variants shared tasks =>
      exact nameless_of_addAbstract .interface (fun _ => rfl) realized
  | union type variants shared tasks =>
      exact nameless_of_addAbstract .union (fun _ => rfl) realized

end Progress

/-! ## Side by side -/

open Outcome

namespace Environment

variable {environment : Environment} {policy policy' : NamePolicy} {catalog catalog' : Catalog}
  {name : String} {progress progress' : Progress}

/-- Since the catalogs, the same models were added up to names, at the same paths. -/
structure SameUpToNames (catalog catalog' : Catalog) (progress progress' : Progress) : Prop where
  paths : progress.paths.keys = progress'.paths.keys
  models : ∃ added added',
    progress.catalog.models.entries = catalog.models.entries ++ added ∧
    progress'.catalog.models.entries = catalog'.models.entries ++ added' ∧
    added.map (fun entry => entry.2.nameless) = added'.map (fun entry => entry.2.nameless)

theorem SameUpToNames.start (catalog catalog' : Catalog) :
    SameUpToNames catalog catalog' ⟨catalog, OrderedMap.empty⟩ ⟨catalog', OrderedMap.empty⟩ :=
  ⟨rfl, [], [], (List.append_nil _).symm, (List.append_nil _).symm, rfl⟩

/-- Models that agree up to names are added at one path. -/
theorem SameUpToNames.add (same : SameUpToNames catalog catalog' progress progress')
    {next next' : Progress} {path : Path} {given given' : String}
    (paths : next.paths = progress.paths.insert path given)
    (paths' : next'.paths = progress'.paths.insert path given')
    {models : List TypeModel}
    (added : ∃ entries, next.catalog.models.entries = progress.catalog.models.entries ++ entries ∧
      entries.map (fun entry => entry.2.nameless) = models)
    (added' : ∃ entries,
      next'.catalog.models.entries = progress'.catalog.models.entries ++ entries ∧
      entries.map (fun entry => entry.2.nameless) = models) :
    SameUpToNames catalog catalog' next next' := by
  obtain ⟨before, before', atStart, atStart', nameless⟩ := same.models
  obtain ⟨here, entries, models⟩ := added
  obtain ⟨here', entries', models'⟩ := added'
  refine ⟨?_, before ++ here, before' ++ here', ?_, ?_, ?_⟩
  · rw [paths, paths', OrderedMap.keys_insert, OrderedMap.keys_insert, same.paths]
  · rw [entries, atStart, List.append_assoc]
  · rw [entries', atStart', List.append_assoc]
  · rw [List.map_append, List.map_append, nameless, models, models']

/-- Two traversals of one operation, each over its own catalog, are as far as each other, and have
the same tasks pending. -/
structure Alongside (environment : Environment) (catalog catalog' : Catalog) (name : String)
    (progress progress' : Progress) (pending : List Task) : Prop where
  same : SameUpToNames catalog catalog' progress progress'
  first : environment.Underway catalog name progress pending
  second : environment.Underway catalog' name progress' pending

namespace Alongside

variable {task : Task} {rest tasks more : List Task}

theorem perm {other : List Task}
    (alongside : environment.Alongside catalog catalog' name progress progress' tasks)
    (reordered : tasks.Perm other) :
    environment.Alongside catalog catalog' name progress progress' other :=
  ⟨alongside.same, alongside.first.perm reordered, alongside.second.perm reordered⟩

/-- **Traversals side by side take the same step.** It leaves the same tasks, and where it fails for
one of them, it fails for the other in the same way. -/
theorem agree_step
    (alongside : environment.Alongside catalog catalog' name progress progress' (task :: rest)) :
    Agree (fun done done' => done.2 = done'.2 ∧
        environment.Alongside catalog catalog' name done.1 done'.1 (rest ++ done.2))
      (environment.step policy progress task) (environment.step policy' progress' task) := by
  refine agree_bind_same fun plan planned => ?_
  have plans := plan_eq_ok_iff.mp planned
  obtain ⟨after, realized⟩ :=
    alongside.first.exists_realize environment.schema policy.avoided plans
  obtain ⟨after', realized'⟩ :=
    alongside.second.exists_realize environment.schema policy'.avoided plans
  have notLeaf := plans.ne_leaf (alongside.first.composite task List.mem_cons_self)
  obtain ⟨own, _, realizes⟩ := Progress.realizes_of_realize notLeaf realized
  obtain ⟨own', _, realizes'⟩ := Progress.realizes_of_realize notLeaf realized'
  have same := alongside.same.add realizes.paths realizes'.paths
    (Progress.nameless_of_realize realized) (Progress.nameless_of_realize realized')
  have step := alongside.first.step (step_eq_ok_iff.mpr ⟨plan, plans, rfl, realized⟩)
  have step' := alongside.second.step (step_eq_ok_iff.mpr ⟨plan, plans, rfl, realized'⟩)
  rw [realized, realized']
  exact .ok ⟨rfl, same, step.1, step'.1⟩

theorem agree_pass
    (alongside : environment.Alongside catalog catalog' name progress progress'
      (tasks ++ more)) :
    Agree (fun done done' => done.2 = done'.2 ∧
        environment.Alongside catalog catalog' name done.1 done'.1 (more ++ done.2))
      (environment.pass policy progress tasks) (environment.pass policy' progress' tasks) := by
  induction tasks generalizing progress progress' more with
  | nil => exact .ok ⟨rfl, (List.append_nil more).symm ▸ alongside⟩
  | cons task rest ih =>
      rw [List.cons_append] at alongside
      refine Agree.bind alongside.agree_step fun done done' here => ?_
      obtain ⟨sameLeft, between⟩ := here
      rw [List.append_assoc] at between
      refine Agree.bind (ih between) fun last last' later => ?_
      obtain ⟨sameRest, after⟩ := later
      rw [List.append_assoc] at after
      exact .ok ⟨by rw [sameLeft, sameRest], after⟩

/-- **Traversals side by side end together**, after the same number of passes. -/
theorem exists_drains {passes : Nat} {outcome : Outcome Progress}
    (alongside : environment.Alongside catalog catalog' name progress progress' tasks)
    (drains : environment.Drains policy progress tasks passes outcome) :
    ∃ outcome', environment.Drains policy' progress' tasks passes outcome' ∧
      Agree (SameUpToNames catalog catalog') outcome outcome' := by
  induction drains generalizing progress' with
  | done => exact ⟨_, .done progress', .ok alongside.same⟩
  | failed failed =>
      rw [← List.append_nil (_ :: _)] at alongside
      exact ⟨_, .failed (alongside.agree_pass.eq_error failed), .error _⟩
  | pass passed _ ih =>
      rw [← List.append_nil (_ :: _)] at alongside
      obtain ⟨⟨next', left'⟩, passed', rfl, after⟩ := alongside.agree_pass.exists_ok passed
      obtain ⟨outcome', later, alike⟩ := ih after
      exact ⟨outcome', .pass passed' later, alike⟩

/-- **Traversals side by side keep step in every schedule.** -/
theorem agree_doAt
    (alongside : environment.Alongside catalog catalog' name progress progress' tasks)
    (places : List Nat) :
    Agree (fun reached reached' => reached.2 = reached'.2)
      (environment.doAt policy places progress tasks)
      (environment.doAt policy' places progress' tasks) := by
  induction places generalizing progress progress' tasks with
  | nil => exact .ok rfl
  | cons place places ih =>
      rw [doAt, doAt]
      cases found : tasks[place]? with
      | none => exact ih alongside
      | some task =>
          obtain ⟨inBounds, rfl⟩ := List.getElem?_eq_some_iff.mp found
          have here := alongside.perm (List.getElem_cons_eraseIdx_perm inBounds).symm
          refine here.agree_step.bind fun done done' after => ?_
          obtain ⟨next, children⟩ := done
          obtain ⟨next', children'⟩ := done'
          obtain ⟨rfl, after⟩ := after
          exact ih after

end Alongside

/-! ## Operations -/

/-- Nothing of the operation has a name yet, and every model has the name of somebody. -/
structure ReadyFor (catalog : Catalog) (operation : OperationDefinition) : Prop where
  unnamed : ∀ name, operation.name = some name → Unnamed catalog name
  given : ∀ key ∈ catalog.models.keys, (catalog.ownerOf? key).isSome = true

/-- The operation was built alike over both catalogs, up to the names of models. -/
structure BuiltAlike (catalog catalog' : Catalog) (result result' : Catalog × OperationModel) :
    Prop extends
    SameUpToNames catalog catalog' ⟨result.1, result.2.paths⟩ ⟨result'.1, result'.2.paths⟩ where
  name : result.2.name = result'.2.name
  kind : result.2.kind = result'.2.kind

variable {operation : OperationDefinition}

/-- The root model is, without names, the one that its plan tells. -/
theorem nameless_of_startWith {root : TypeDefinition} {fields : List PlannedField}
    {traversal : Traversal} (schema : Schema)
    (started : startWith policy catalog operation name root fields = .ok traversal) :
    ∃ entries,
      traversal.progress.catalog.models.entries = catalog.models.entries ++ entries ∧
      entries.map (fun entry => entry.2.nameless) = (Plan.object root fields).models schema := by
  obtain ⟨extended, adding, same⟩ := bind_eq_ok_iff.mp started
  obtain rfl := Except.ok.inj same
  rw [← Catalog.addAll_singleton] at adding
  have models := (Catalog.models_nameFields _ policy.avoided fields).trans
    (catalog.models_allot (.operation name) (Text.className name) policy.reserved)
  obtain ⟨entries, added, nameless⟩ := Catalog.nameless_of_addAll adding
  rw [models] at added
  refine ⟨entries, added, nameless.trans ?_⟩
  simp only [List.map_cons, List.map_nil, TypeModel.nameless, ObjectModel.nameless,
    Catalog.nameless_nameFields, Plan.models]

/-- The root is added to both catalogs, and the same tasks are pending then. -/
theorem agree_startWith (policy policy' : NamePolicy) (operation : OperationDefinition)
    (root : TypeDefinition) (fields : List PlannedField) (unnamed : Unnamed catalog name)
    (unnamed' : Unnamed catalog' name) (given : ∀ key ∈ catalog.models.keys, key ∈ catalog.given)
    (given' : ∀ key ∈ catalog'.models.keys, key ∈ catalog'.given) :
    Agree (fun traversal traversal' =>
        traversal.name = name ∧ traversal'.name = name ∧ traversal.kind = traversal'.kind ∧
        traversal.tasks = traversal'.tasks ∧
        SameUpToNames catalog catalog' traversal.progress traversal'.progress)
      (startWith policy catalog operation name root fields)
      (startWith policy' catalog' operation name root fields) := by
  obtain ⟨traversal, started⟩ :=
    exists_startWith_of_unnamed policy operation root fields unnamed given
  obtain ⟨traversal', started'⟩ :=
    exists_startWith_of_unnamed policy' operation root fields unnamed' given'
  obtain ⟨object, realizes, same⟩ := realizes_of_startWith started
  obtain ⟨object', realizes', same'⟩ := realizes_of_startWith started'
  have alike := (SameUpToNames.start catalog catalog').add realizes.paths realizes'.paths
    (nameless_of_startWith ⟨[]⟩ started) (nameless_of_startWith ⟨[]⟩ started')
  rw [started, started']
  exact .ok ⟨by rw [same], by rw [same'], by rw [same, same'], by rw [same, same'], alike⟩

/-- An operation of a known root type is started when its root can be planned. -/
theorem start_eq_bind (environment : Environment) (policy : NamePolicy) (catalog : Catalog)
    {root : TypeDefinition}
    (named : operation.name = some name)
    (found : environment.schema.root? operation.kind = some root) :
    environment.start policy catalog operation =
      environment.planRoot root operation.items (Path.root name) >>=
        startWith policy catalog operation name root := by
  rw [start, named, found]
  rfl

/-- **Traversals of one operation start side by side**, or neither starts. -/
theorem agree_start (ready : ReadyFor catalog operation) (ready' : ReadyFor catalog' operation) :
    Agree (fun traversal traversal' =>
        traversal.name = traversal'.name ∧ traversal.kind = traversal'.kind ∧
        traversal.tasks = traversal'.tasks ∧
        environment.Alongside catalog catalog' traversal.name traversal.progress
          traversal'.progress traversal.tasks)
      (environment.start policy catalog operation)
      (environment.start policy' catalog' operation) := by
  cases named : operation.name with
  | none =>
      rw [start, start, named]
      exact .error _
  | some name =>
      cases found : environment.schema.root? operation.kind with
      | none =>
          rw [start, start, named, found]
          exact .error _
      | some root =>
          have given := fun key member => Catalog.mem_given_iff.mpr (ready.given key member)
          have given' := fun key member => Catalog.mem_given_iff.mpr (ready'.given key member)
          have unnamed := ready.unnamed name named
          have unnamed' := ready'.unnamed name named
          have starts := environment.start_eq_bind policy catalog named found
          have starts' := environment.start_eq_bind policy' catalog' named found
          rw [starts, starts']
          refine agree_bind_same fun fields planned => ?_
          have agree := agree_startWith policy policy' operation root fields unnamed unnamed'
            given given'
          refine agree.with_results.mono fun traversal traversal' here => ?_
          obtain ⟨⟨isName, isName', kinds, tasks, same⟩, started, started'⟩ := here
          have underway := underway_of_start named unnamed given
            (starts.trans (bind_eq_ok_iff.mpr ⟨fields, planned, started⟩))
          have underway' := underway_of_start named unnamed' given'
            (starts'.trans (bind_eq_ok_iff.mpr ⟨fields, planned, started'⟩))
          rw [← tasks] at underway'
          rw [isName, isName']
          exact ⟨rfl, kinds, tasks, same, underway, underway'⟩

/-- The tasks that a step leaves depend on its task alone. -/
theorem children_eq_of_step {task : Task} {next next' : Progress} {children children' : List Task}
    (done : environment.step policy progress task = .ok (next, children))
    (done' : environment.step policy' progress' task = .ok (next', children')) :
    children = children' := by
  obtain ⟨plan, planned, rfl, _⟩ := step_eq_ok_iff.mp done
  obtain ⟨plan', planned', rfl, _⟩ := step_eq_ok_iff.mp done'
  have same := (plan_eq_ok_iff.mpr planned).symm.trans (plan_eq_ok_iff.mpr planned')
  rw [Except.ok.inj same]

/-- When an operation is completed over one catalog, it is completed alike over the other. -/
theorem Completes.exists_alike (ready : ReadyFor catalog operation)
    (ready' : ReadyFor catalog' operation) (policy' : NamePolicy)
    {outcome : Outcome (Catalog × OperationModel)}
    (completes : environment.Completes policy catalog operation outcome) :
    ∃ outcome', environment.Completes policy' catalog' operation outcome' ∧
      Agree (BuiltAlike catalog catalog') outcome outcome' := by
  cases completes with
  | unstarted failed => exact ⟨_, .unstarted ((agree_start ready ready').eq_error failed), .error _⟩
  | drained started drains =>
      obtain ⟨traversal', started', names, kinds, tasks, alongside⟩ :=
        (agree_start ready ready').exists_ok started
      obtain ⟨outcome', drains', alike⟩ := alongside.exists_drains drains
      rw [tasks] at drains'
      refine ⟨_, .drained started' drains', agree_map_iff.mpr (alike.mono ?_)⟩
      exact fun final final' same => { same with name := names, kind := kinds }

/-- **What an operation selects is built alike whatever else is analysed.** Take any two catalogs in
which nothing of the operation has a name and every model has the name of somebody, whatever names
are reserved or avoided. Where the operation is completed over one of them, it is completed over
the other: with a result in both cases or with one error. The paths of the results are the same,
and their models are the same but for their names. In every schedule both traversals have the same
tasks pending, also when they do not end, and a step leaves the same tasks. The fragments may reach
themselves. -/
theorem agree_of_completes (environment : Environment) (policy policy' : NamePolicy)
    (ready : ReadyFor catalog operation) (ready' : ReadyFor catalog' operation) :
    (∀ outcome, environment.Completes policy catalog operation outcome →
      ∃ outcome', environment.Completes policy' catalog' operation outcome' ∧
        Agree (BuiltAlike catalog catalog') outcome outcome' ∧
        environment.buildOperation policy catalog operation = outcome ∧
        environment.buildOperation policy' catalog' operation = outcome') ∧
      (∀ outcome', environment.Completes policy' catalog' operation outcome' →
        ∃ outcome, environment.Completes policy catalog operation outcome) ∧
      (∀ places, Agree (fun reached reached' => reached.2 = reached'.2)
        (environment.start policy catalog operation >>= fun traversal =>
          environment.doAt policy places traversal.progress traversal.tasks)
        (environment.start policy' catalog' operation >>= fun traversal =>
          environment.doAt policy' places traversal.progress traversal.tasks)) ∧
      ∀ task progress progress' next next' children children',
        environment.step policy progress task = .ok (next, children) →
          environment.step policy' progress' task = .ok (next', children') →
            children = children' := by
  have starts : Agree _ (environment.start policy catalog operation)
      (environment.start policy' catalog' operation) := agree_start ready ready'
  refine ⟨fun outcome completes => ?_, fun outcome' completes' => ?_,
    fun places => starts.bind fun traversal traversal' here => ?_,
    fun task progress progress' next next' children children' done done' =>
      children_eq_of_step done done'⟩
  · obtain ⟨outcome', completes', alike⟩ := completes.exists_alike ready ready' policy'
    exact ⟨outcome', completes', alike, buildOperation_of_completes completes,
      buildOperation_of_completes completes'⟩
  · obtain ⟨outcome, completes, _⟩ := completes'.exists_alike ready' ready policy
    exact ⟨outcome, completes⟩
  · obtain ⟨_, _, tasks, alongside⟩ := here
    rw [← tasks]
    exact alongside.agree_doAt places

/-! ## A fragment that spreads itself, alone and beside an enum that has the name of pets -/

end Environment

namespace Sample

/-- Pets, persons and places, each with a way to the next. -/
def relaySchema : Schema :=
  ⟨[.type (objectType "Query" [declare "first" "Pet"]),
    .type (objectType "Pet" [declare "next" "Person"]),
    .type (objectType "Person" [declare "next" "Place"]),
    .type (objectType "Place" [declare "next" "String"]),
    .type ⟨"Stop", none, [], .union ["Pet", "Person", "Place"]⟩]⟩

/-- From each stop on, as far as there are stops. -/
def onwardFragment : FragmentDefinition :=
  ⟨"Onward", "Stop", [], ⟨1, 1⟩, ⟨⟨1, 1⟩, ⟨1, 1⟩⟩,
    [pick "next" [.spread "Onward" [] ⟨1, 1⟩]]⟩

def relayQuery : OperationDefinition :=
  query "Q" [pick "first" [.spread "Onward" [] ⟨1, 1⟩]]

def relayEnvironment : Environment :=
  ⟨relaySchema, ⟨[onwardFragment]⟩⟩

end Sample

namespace Environment

open Sample

theorem readyFor_of_taken (operation : OperationDefinition) : ReadyFor takenCatalog operation where
  unnamed name _ owner isOf := by
    have apart : NameOwner.schemaType "Mood" ≠ owner := by
      rintro rfl
      cases isOf
    simp [takenCatalog, Catalog.nameOf?, apart]
  given := by decide +kernel

theorem agree_of_relay :
    (FragmentTable.ofDocuments [[.operation relayQuery, .fragment onwardFragment]]).map
        (fun _ => ()) = .error (.fragmentCycle "Onward" ["Onward"] ⟨1, 1⟩) ∧
      ∃ result result',
        relayEnvironment.Completes ⟨[], []⟩ Catalog.empty relayQuery (.ok result) ∧
        relayEnvironment.Completes ⟨[], ["Person"]⟩ takenCatalog relayQuery (.ok result') ∧
        result.2.paths.values = ["Q", "Pet", "Person", "Place"] ∧
        result'.2.paths.values = ["Q", "Pet1", "Person1", "Place"] ∧
        BuiltAlike Catalog.empty takenCatalog result result' := by
  have alone : (relayEnvironment.completeWithin ⟨[], []⟩ 3 Catalog.empty relayQuery).map
      (Except.map fun result => result.2.paths.values) =
        some (.ok ["Q", "Pet", "Person", "Place"]) := by decide +kernel
  have beside : (relayEnvironment.buildOperation ⟨[], ["Person"]⟩ takenCatalog relayQuery).map
      (fun result => result.2.paths.values) = .ok ["Q", "Pet1", "Person1", "Place"] :=
    map_buildOperation_of_within 3 (by decide +kernel)
  obtain ⟨outcome, completed, same⟩ := Option.map_eq_some_iff.mp alone
  obtain ⟨result, rfl, values⟩ := map_eq_ok_iff.mp same
  have completes := completes_of_completeWithin completed
  have ready : ReadyFor Catalog.empty relayQuery := ⟨fun _ _ _ _ => rfl, fun _ => nofun⟩
  obtain ⟨_, completes', alike, _, built'⟩ := (agree_of_completes relayEnvironment ⟨[], []⟩
    ⟨[], ["Person"]⟩ ready (readyFor_of_taken relayQuery)).1 _ completes
  cases alike with
  | @ok _ result' alike =>
      rw [built'] at beside
      exact ⟨by decide +kernel, result, result', completes, completes', values,
        Except.ok.inj beside, alike⟩

end Environment

end ResponseShape

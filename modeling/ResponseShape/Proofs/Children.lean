import Mathlib.Data.List.Nodup
import ResponseShape.Proofs.Planning

/-!
# The fields of a plan and the tasks below it

Plans of objects, interfaces and unions have the same parts: variants by object type, fields on
the type itself, and tasks (`Environment.PlanParts`). An object type is its own only variant.

Every field of a plan was selected by an occurrence of the task
(`Environment.PlanParts.exists_collected`), and every field that an occurrence selects is covered
by a planned one (`Environment.PlanParts.exists_planned`). The tasks of a plan have distinct
paths, one segment below the plan's own, and there is one for every field whose value is
composite (`Environment.PlanParts.exists_task`).
-/

set_option autoImplicit false

namespace ResponseShape

/-! ## Tasks that are resolved by position -/

namespace Task

variable {own shared : List Task} {task child : Task}

theorem path_of_joined? {tasks : List Task} (joined : joined? tasks = some task) :
    ∃ first ∈ tasks, task.path = first.path ∧
      task.occurrences.first = first.occurrences.first := by
  cases tasks with
  | nil => simp [joined?] at joined
  | cons first rest =>
      obtain rfl := Option.some.inj joined
      exact ⟨first, List.mem_cons_self, rfl, Occurrences.first_foldl_addDistinct _ _⟩

/-- **A joined task has the occurrences of its parts, thinned.** -/
theorem thins_of_joined? {tasks : List Task} (joined : joined? tasks = some task) :
    Thins SelectedField.Covers [] (tasks.flatMap (fun task => task.occurrences.toList))
      task.occurrences.toList := by
  cases tasks with
  | nil => simp [joined?] at joined
  | cons first rest =>
      obtain rfl := Option.some.inj joined
      obtain ⟨kept, same, thins⟩ := Occurrences.exists_thins_foldl_addDistinct first.occurrences
        (rest.flatMap (fun task => task.occurrences.toList))
      simp only [List.flatMap_cons, same]
      exact (Thins.refl [] _).append (by simpa using thins)

theorem atPath?_of_mem_own (member : task ∈ own) :
    ∃ child, joined? (own.filter (fun other => other.path = task.path)) = some child := by
  have here : task ∈ own.filter (fun other => other.path = task.path) :=
    List.mem_filter.mpr ⟨member, by simp⟩
  cases group : own.filter (fun other => other.path = task.path) with
  | nil => simp [group] at here
  | cons first rest => exact ⟨_, rfl⟩

theorem mem_resolve :
    child ∈ resolve own shared ↔
      ∃ path ∈ (own ++ shared).map Task.path, atPath? own shared path = some child := by
  simp [resolve, List.mem_filterMap]

theorem path_of_atPath? {path : Path} (found : atPath? own shared path = some child) :
    child.path = path := by
  rw [atPath?, Option.or_eq_some_iff] at found
  rcases found with joined | ⟨_, first⟩
  · obtain ⟨first, member, same, _⟩ := path_of_joined? joined
    rw [same]
    exact of_decide_eq_true (List.mem_filter.mp member).2
  · exact of_decide_eq_true (List.find?_some first :)

/-- The resolved tasks have the paths of all tasks, each once. -/
theorem map_path_resolve :
    (resolve own shared).map Task.path = OrderedSet.ofList ((own ++ shared).map Task.path) := by
  rw [resolve, List.map_filterMap]
  refine Eq.trans (List.filterMap_congr fun path member => ?_) List.filterMap_some
  rw [OrderedSet.mem_ofList, List.mem_map] at member
  obtain ⟨task, isTask, rfl⟩ := member
  have found : ∃ child, atPath? own shared task.path = some child := by
    rcases List.mem_append.mp isTask with isOwn | isShared
    · obtain ⟨child, joined⟩ := atPath?_of_mem_own isOwn
      exact ⟨child, by rw [atPath?, joined, Option.some_or]⟩
    · cases joined : joined? (own.filter (fun other => other.path = task.path)) with
      | some child => exact ⟨child, by rw [atPath?, joined, Option.some_or]⟩
      | none =>
          cases first : shared.find? (fun other => other.path = task.path) with
          | some child => exact ⟨child, by rw [atPath?, joined, Option.none_or, first]⟩
          | none => simpa using List.find?_eq_none.mp first task isShared
  obtain ⟨child, here⟩ := found
  rw [here, Option.map_some, path_of_atPath? here]

/-- **A task of a variant is covered by the resolved task of its position.** -/
theorem exists_resolved_of_own (shared : List Task) (member : task ∈ own) :
    ∃ child ∈ resolve own shared, child.path = task.path ∧
      (∃ first ∈ own, first.path = task.path ∧
        child.occurrences.first = first.occurrences.first) ∧
      ∀ occurrence ∈ task.occurrences.toList,
        ∃ known ∈ child.occurrences.toList, known.Covers occurrence := by
  obtain ⟨child, joined⟩ := atPath?_of_mem_own member
  have found : atPath? own shared task.path = some child := by
    rw [atPath?, joined, Option.some_or]
  obtain ⟨first, isFirst, _, sameFirst⟩ := path_of_joined? joined
  obtain ⟨firstOwn, firstPath⟩ := List.mem_filter.mp isFirst
  refine ⟨child, mem_resolve.mpr ⟨task.path, ?_, found⟩, path_of_atPath? found,
    ⟨first, firstOwn, of_decide_eq_true firstPath, sameFirst⟩, ?_⟩
  · exact List.mem_map_of_mem (List.mem_append_left _ member)
  · intro occurrence isOccurrence
    have here : occurrence ∈ (own.filter (fun other => other.path = task.path)).flatMap
        (fun task => task.occurrences.toList) :=
      List.mem_flatMap.mpr ⟨task, List.mem_filter.mpr ⟨member, by simp⟩, isOccurrence⟩
    rcases (thins_of_joined? joined).kept_or_covered occurrence here with
      kept | ⟨known, seen | kept, covers⟩
    · exact ⟨occurrence, kept, .refl _⟩
    · cases seen
    · exact ⟨known, kept, covers⟩

theorem exists_resolved (member : task ∈ own ∨ task ∈ shared) :
    ∃ child ∈ resolve own shared, child.path = task.path := by
  have present : task.path ∈ (resolve own shared).map Task.path := by
    rw [map_path_resolve, OrderedSet.mem_ofList]
    exact List.mem_map_of_mem (List.mem_append.mpr member)
  exact List.mem_map.mp present

/-- **A resolved task comes from the tasks of its position.** -/
theorem origin_of_mem_resolve (member : child ∈ resolve own shared) :
    (∃ task, (task ∈ own ∨ task ∈ shared) ∧ task.path = child.path ∧
      child.occurrences.first = task.occurrences.first) ∧
    ∀ occurrence ∈ child.occurrences.toList, ∃ task, (task ∈ own ∨ task ∈ shared) ∧
      task.path = child.path ∧ occurrence ∈ task.occurrences.toList := by
  obtain ⟨path, _, found⟩ := mem_resolve.mp member
  obtain rfl := path_of_atPath? found
  rw [atPath?, Option.or_eq_some_iff] at found
  rcases found with joined | ⟨_, first⟩
  · constructor
    · obtain ⟨first, isFirst, same, sameFirst⟩ := path_of_joined? joined
      exact ⟨first, .inl (List.mem_filter.mp isFirst).1, same.symm, sameFirst⟩
    · intro occurrence isOccurrence
      have part := (thins_of_joined? joined).subset occurrence isOccurrence
      obtain ⟨task, isTask, here⟩ := List.mem_flatMap.mp part
      obtain ⟨isOwn, same⟩ := List.mem_filter.mp isTask
      exact ⟨task, .inl isOwn, of_decide_eq_true same, here⟩
  · have isShared : child ∈ shared := List.mem_of_find?_eq_some first
    exact ⟨⟨child, .inr isShared, rfl, rfl⟩,
      fun occurrence here => ⟨child, .inr isShared, rfl, here⟩⟩

/-- Tasks of distinct positions are resolved to themselves. -/
theorem resolve_nil_of_nodup (distinct : (own.map Task.path).Nodup) : resolve own [] = own := by
  rw [resolve, List.append_nil, OrderedSet.ofList_of_nodup distinct, List.filterMap_map]
  refine Eq.trans (List.filterMap_congr fun task member => ?_) List.filterMap_some
  rw [Function.comp_apply, atPath?, OrderedSet.filter_key_eq distinct member]
  rfl

end Task

/-! ## Collected fields -/

theorem Schema.name_of_type? {schema : Schema} {name : String} {type : TypeDefinition}
    (found : schema.type? name = some type) : type.name = name :=
  beq_iff_eq.mp (List.find?_some found :)

/-- An object type that is found by its name is its own only possible type. -/
theorem Schema.possibleTypes_of_object {schema : Schema} {name : String} {type : TypeDefinition}
    (found : schema.type? name = some type) (object : type.kind = .object) :
    schema.possibleTypes type = [type] := by
  have named := Schema.name_of_type? found
  rw [TypeDefinition.kind] at object
  rw [possibleTypes]
  cases content : type.content with
  | object interfaces fields => simp only [named, found, Option.toList_some]
  | _ => simp [content, TypeContent.kind] at object

namespace Environment

variable {environment : Environment} {runtime scope type : TypeDefinition} {task : Task}
  {path : Path} {items : List Selection}

theorem setPath_of_collectFor {fields : List SelectedField}
    (collected : environment.collectFor runtime scope items path = .ok fields) :
    ∀ field ∈ fields, field.setPath = path := by
  intro field member
  obtain ⟨nodes, after, _, _, selected⟩ := collectFor_eq_ok_iff.mp collected
  obtain ⟨node, _, here⟩ := exists_left_of_mem selected member
  exact (selectField_eq_ok_iff.mp here).2.2

theorem collect_eq_ok_iff {variants : List (Variant SelectedField)} :
    environment.collect type items path = .ok variants ↔
      List.Forall₂
        (fun runtime variant => variant.typeName = runtime.name ∧
          environment.collectFor runtime type items path = .ok variant.fields)
        (environment.schema.possibleTypes type) variants := by
  have each : ∀ (runtime : TypeDefinition) (variant : Variant SelectedField),
      (do let fields ← environment.collectFor runtime type items path
          return (⟨runtime.name, fields⟩ : Variant SelectedField)) = .ok variant ↔
        variant.typeName = runtime.name ∧
          environment.collectFor runtime type items path = .ok variant.fields := by
    intro runtime variant
    rw [bind_eq_ok_iff]
    constructor
    · rintro ⟨fields, collected, same⟩
      obtain rfl := Except.ok.inj same
      exact ⟨rfl, collected⟩
    · rintro ⟨named, collected⟩
      exact ⟨variant.fields, collected, named ▸ rfl⟩
  rw [collect, mapM_eq_ok_iff]
  simp only [each]

/-- Selections that select related fields on each type select related fields on every possible
type. -/
theorem collect_of_collectFor {items' : List Selection} {variants : List (Variant SelectedField)}
    {related : SelectedField → SelectedField → Prop}
    (each : ∀ runtime fields, environment.collectFor runtime type items path = .ok fields →
      ∃ fields', environment.collectFor runtime type items' path = .ok fields' ∧
        List.Forall₂ related fields fields')
    (collected : environment.collect type items path = .ok variants) :
    ∃ variants', environment.collect type items' path = .ok variants' ∧
      List.Forall₂
        (fun variant variant' => variant.typeName = variant'.typeName ∧
          List.Forall₂ related variant.fields variant'.fields)
        variants variants' := by
  have onEach : ∀ (variant : Variant SelectedField) (runtime : TypeDefinition),
      (variant.typeName = runtime.name ∧
        environment.collectFor runtime type items path = .ok variant.fields) →
      ∃ variant' : Variant SelectedField, (variant'.typeName = runtime.name ∧
        environment.collectFor runtime type items' path = .ok variant'.fields) ∧
        variant.typeName = variant'.typeName ∧
          List.Forall₂ related variant.fields variant'.fields := by
    rintro variant runtime ⟨named, selected⟩
    obtain ⟨fields', selected', fieldsRelated⟩ := each runtime variant.fields selected
    exact ⟨⟨runtime.name, fields'⟩, ⟨rfl, selected'⟩, named, fieldsRelated⟩
  obtain ⟨variants', selected', variantsRelated⟩ :=
    exists_forall₂ onEach (collect_eq_ok_iff.mp collected).flip
  exact ⟨variants', collect_eq_ok_iff.mpr selected', variantsRelated⟩

/-- **Alike selections select alike fields on every possible type.** -/
theorem collect_of_alike {items' : List Selection} {variants : List (Variant SelectedField)}
    (alike : List.Forall₂ Selection.Alike items items')
    (collected : environment.collect type items path = .ok variants) :
    ∃ variants', environment.collect type items' path = .ok variants' ∧
      List.Forall₂
        (fun variant variant' => variant.typeName = variant'.typeName ∧
          List.Forall₂ SelectedField.Alike variant.fields variant'.fields)
        variants variants' :=
  collect_of_collectFor (fun _ _ => collectFor_of_alike alike) collected

/-- What the occurrences of a task select, occurrence by occurrence. -/
def Collects (environment : Environment) (type : TypeDefinition) (task : Task)
    (found : List (List (Variant SelectedField))) : Prop :=
  List.Forall₂
    (fun occurrence variants =>
      environment.collect type occurrence.node.items task.path = .ok variants)
    task.occurrences.toList found

/-- A field of a variant that a task collects was selected by an occurrence of the task. -/
theorem Collects.exists_of_mem {found : List (List (Variant SelectedField))}
    (collected : environment.Collects type task found) {typeName : String}
    {field : SelectedField} (member : field ∈ Variant.fieldsOf found.flatten typeName) :
    ∃ occurrence ∈ task.occurrences.toList, ∃ runtime ∈ environment.schema.possibleTypes type,
      runtime.name = typeName ∧ ∃ fields, environment.collectFor runtime type occurrence.node.items
        task.path = .ok fields ∧ field ∈ fields := by
  obtain ⟨variant, isVariant, named, here⟩ := Variant.mem_fieldsOf.mp member
  obtain ⟨variants, isFound, inVariants⟩ := List.mem_flatten.mp isVariant
  obtain ⟨occurrence, isOccurrence, selected⟩ := exists_left_of_mem collected isFound
  obtain ⟨runtime, possible, named', fields⟩ :=
    exists_left_of_mem (collect_eq_ok_iff.mp selected) inVariants
  exact ⟨occurrence, isOccurrence, runtime, possible, named'.symm.trans named, _, fields, here⟩

/-- What an occurrence of a task selects on a possible type is collected for the task. -/
theorem Collects.exists_fields {found : List (List (Variant SelectedField))}
    (collected : environment.Collects type task found) {occurrence : SelectedField}
    (isOccurrence : occurrence ∈ task.occurrences.toList) {runtime : TypeDefinition}
    (possible : runtime ∈ environment.schema.possibleTypes type) :
    ∃ variant ∈ found.flatten, variant.typeName = runtime.name ∧
      environment.collectFor runtime type occurrence.node.items task.path = .ok variant.fields := by
  obtain ⟨variants, isFound, selected⟩ := exists_right_of_mem collected isOccurrence
  obtain ⟨variant, isVariant, named, fields⟩ :=
    exists_right_of_mem (collect_eq_ok_iff.mp selected) possible
  exact ⟨variant, List.mem_flatten.mpr ⟨variants, isFound, isVariant⟩, named, fields⟩

/-- The variants that a task collects on an object type make one, named after the type. -/
theorem Collects.joined_of_object {found : List (List (Variant SelectedField))}
    (collected : environment.Collects type task found)
    (known : environment.schema.type? task.namedType = some type) (object : type.kind = .object) :
    Variant.joined found.flatten =
      [⟨type.name, Occurrences.groups (Variant.fieldsOf found.flatten type.name)⟩] := by
  have only := Schema.possibleTypes_of_object known object
  have possible : type ∈ environment.schema.possibleTypes type :=
    only ▸ List.mem_singleton_self type
  obtain ⟨first, isFirst, named, _⟩ := collected.exists_fields List.mem_cons_self possible
  have all : ∀ name ∈ found.flatten.map Variant.typeName, name = type.name := by
    intro name member
    obtain ⟨variant, isVariant, rfl⟩ := List.mem_map.mp member
    obtain ⟨variants, isFound, inVariants⟩ := List.mem_flatten.mp isVariant
    obtain ⟨occurrence, _, selected⟩ := exists_left_of_mem collected isFound
    obtain ⟨runtime, possible, named', _⟩ :=
      exists_left_of_mem (collect_eq_ok_iff.mp selected) inVariants
    rw [only, List.mem_singleton] at possible
    rw [named', possible]
  have keys : OrderedSet.ofList (found.flatten.map Variant.typeName) = [type.name] := by
    cases names : found.flatten.map Variant.typeName with
    | nil =>
        have isName := List.mem_map_of_mem (f := Variant.typeName) isFirst
        rw [names] at isName
        cases isName
    | cons name rest =>
        rw [names] at all
        obtain rfl := all name List.mem_cons_self
        exact OrderedSet.ofList_eq_singleton fun other later =>
          all other (List.mem_cons_of_mem _ later)
  rw [Variant.joined, keys]
  rfl

end Environment

/-! ## The parts of a plan -/

theorem PlannedField.mem_tasks {fields : List PlannedField} {task : Task} :
    task ∈ tasks fields ↔ ∃ field ∈ fields, field.value = .composite ∧
      Task.ofOccurrences field.occurrences = task := by
  rw [tasks, List.mem_filterMap]
  refine exists_congr fun field => and_congr_right fun _ => ?_
  rw [task?]
  cases field.value <;> simp

theorem PlannedField.map_path_tasks_sublist (fields : List PlannedField) :
    ((tasks fields).map Task.path).Sublist
      (fields.map (fun field => field.occurrences.path)) := by
  induction fields with
  | nil => exact .slnil
  | cons field rest ih =>
      cases value : field.value with
      | composite =>
          have left : task? field = some (Task.ofOccurrences field.occurrences) := by
            rw [task?, value]
          rw [tasks, List.filterMap_cons, left]
          exact ih.cons_cons _
      | scalar =>
          have left : task? field = none := by rw [task?, value]
          rw [tasks, List.filterMap_cons, left]
          exact ih.cons _
      | enum =>
          have left : task? field = none := by rw [task?, value]
          rw [tasks, List.filterMap_cons, left]
          exact ih.cons _

theorem Variant.mem_tasks {variants : List (Variant PlannedField)} {task : Task} :
    task ∈ tasks variants ↔ ∃ variant ∈ variants, ∃ field ∈ variant.fields,
      field.value = .composite ∧ Task.ofOccurrences field.occurrences = task := by
  simp only [tasks, List.mem_flatMap, PlannedField.mem_tasks]

namespace Plan

/-- The fields of a plan by object type. An object type is its own only variant. -/
def variants : Plan → List (Variant PlannedField)
  | leaf => []
  | object type fields => [⟨type.name, fields⟩]
  | interface _ variants _ _ | union _ variants _ _ => variants

/-- The fields of a plan that are selected on an interface or a union itself. -/
def shared : Plan → List PlannedField
  | leaf | object _ _ => []
  | interface _ _ shared _ | union _ _ shared _ => shared

/-- All fields of a plan. -/
def fields (plan : Plan) : List PlannedField :=
  plan.variants.flatMap Variant.fields ++ plan.shared

theorem mem_fields {plan : Plan} {field : PlannedField} :
    field ∈ plan.fields ↔
      (∃ variant ∈ plan.variants, field ∈ variant.fields) ∨ field ∈ plan.shared := by
  simp [fields]

end Plan

namespace Environment

variable {environment : Environment} {type : TypeDefinition} {task : Task} {plan : Plan}

/-- The parts of a plan of an object type, an interface or a union. -/
structure PlanParts (environment : Environment) (task : Task) (type : TypeDefinition)
    (plan : Plan) : Prop where
  known : environment.schema.type? task.namedType = some type
  own : ∃ found, environment.Collects type task found ∧ Variant.Compatible found.flatten ∧
    List.Forall₂ environment.PlansVariant (Variant.joined found.flatten) plan.variants
  onType : plan.shared = [] ∨ ∃ found,
    List.Forall₂
      (fun occurrence fields =>
        environment.collectOn type occurrence.node.items task.path = .ok fields)
      task.occurrences.toList found ∧
    SelectedField.Compatible found.flatten ∧
    List.Forall₂ environment.PlansField (Occurrences.groups found.flatten) plan.shared
  compatible : Task.Compatible (Variant.tasks plan.variants)
  tasks : plan.tasks =
    Task.resolve (Variant.tasks plan.variants) (PlannedField.tasks plan.shared)

/-- Fields of groups at one path leave tasks at distinct paths. -/
theorem nodup_paths_of_groups {fields : List SelectedField} {path : Path}
    (placed : ∀ field ∈ fields, field.setPath = path) {planned : List PlannedField}
    (plans : List.Forall₂ environment.PlansField (Occurrences.groups fields) planned) :
    ((PlannedField.tasks planned).map Task.path).Nodup := by
  have names : (planned.map (fun field => field.occurrences.responseName)).Nodup := by
    rw [← forall₂_map_eq (fun occurrences field (here : environment.PlansField occurrences field) =>
      congrArg Occurrences.responseName here.same.symm) plans, Occurrences.map_responseName_groups]
    exact OrderedSet.nodup_ofList _
  have paths : planned.map (fun field => field.occurrences.path) =
      (planned.map (fun field => field.occurrences.responseName)).map path.child := by
    rw [List.map_map]
    refine List.map_congr_left fun field member => ?_
    obtain ⟨occurrences, grouped, here⟩ := exists_left_of_mem plans member
    have first := (Occurrences.of_mem_groups grouped occurrences.first List.mem_cons_self).1
    rw [Function.comp_apply, here.same]
    change occurrences.first.setPath.child _ = _
    rw [placed _ first]
    rfl
  have distinct : (planned.map (fun field => field.occurrences.path)).Nodup := by
    rw [paths]
    exact List.Nodup.map (fun first second same => (Path.child_inj.mp same).2) names
  exact distinct.sublist (PlannedField.map_path_tasks_sublist planned)

/-- **A plan of a composite type has the parts of one.** -/
theorem Plans.parts (planned : environment.Plans task plan)
    (known : environment.schema.type? task.namedType = some type)
    (composite : type.isComposite = true) : environment.PlanParts task type plan := by
  have sameType : ∀ {other : TypeDefinition},
      environment.schema.type? task.namedType = some other → other = type :=
    fun found => Option.some.inj (found.symm.trans known)
  cases planned with
  | leaf found _ kind =>
      obtain rfl := sameType found
      rcases kind with kind | kind <;> simp [TypeDefinition.isComposite, kind] at composite
  | @object other variants fields found collected kind plans =>
      obtain rfl := sameType found
      obtain ⟨lists, each, compatible, rfl⟩ := collectVariants_eq_ok_iff.mp collected
      have only := Collects.joined_of_object each found kind
      rw [only] at plans
      have placed : ∀ field ∈ Variant.fieldsOf lists.flatten other.name,
          field.setPath = task.path := by
        intro field member
        obtain ⟨_, _, _, _, _, fields, selected, here⟩ := Collects.exists_of_mem each member
        exact setPath_of_collectFor selected field here
      have distinct := nodup_paths_of_groups placed plans
      have tasks : Variant.tasks (Plan.object other fields).variants = PlannedField.tasks fields :=
        List.append_nil _
      refine ⟨known, ⟨lists, each, compatible, ?_⟩, .inl rfl, ?_, ?_⟩
      · rw [only]
        exact .cons ⟨rfl, plans⟩ .nil
      · rw [tasks]
        intro first isFirst second isSecond same
        obtain rfl := List.inj_on_of_nodup_map distinct isFirst isSecond same
        exact ⟨rfl, rfl⟩
      · rw [tasks]
        exact (Task.resolve_nil_of_nodup distinct).symm
  | interface found collected _ parts =>
      obtain rfl := sameType found
      obtain ⟨lists, each, compatible, rfl⟩ := collectVariants_eq_ok_iff.mp collected
      obtain ⟨groups, collectedShared, plans⟩ := parts.onType
      obtain ⟨sharedLists, eachShared, compatibleShared, rfl⟩ :=
        collectShared_eq_ok_iff.mp collectedShared
      exact ⟨known, ⟨lists, each, compatible, parts.own⟩,
        .inr ⟨sharedLists, eachShared, compatibleShared, plans⟩, parts.compatible, parts.resolved⟩
  | union found collected _ parts =>
      obtain rfl := sameType found
      obtain ⟨lists, each, compatible, rfl⟩ := collectVariants_eq_ok_iff.mp collected
      obtain ⟨groups, collectedShared, plans⟩ := parts.onType
      obtain ⟨sharedLists, eachShared, compatibleShared, rfl⟩ :=
        collectShared_eq_ok_iff.mp collectedShared
      exact ⟨known, ⟨lists, each, compatible, parts.own⟩,
        .inr ⟨sharedLists, eachShared, compatibleShared, plans⟩, parts.compatible, parts.resolved⟩

namespace PlanParts

variable {field : PlannedField} {variant : Variant PlannedField} {child : Task}

/-- **A field of a variant was selected by an occurrence on a possible type of that name.** -/
theorem exists_collected (parts : environment.PlanParts task type plan)
    (isVariant : variant ∈ plan.variants) (isField : field ∈ variant.fields) :
    ∀ selected ∈ field.occurrences.toList,
      selected.responseName = field.occurrences.responseName ∧
      ∃ occurrence ∈ task.occurrences.toList,
        ∃ runtime ∈ environment.schema.possibleTypes type, runtime.name = variant.typeName ∧
          ∃ fields, environment.collectFor runtime type occurrence.node.items task.path =
            .ok fields ∧ selected ∈ fields := by
  obtain ⟨found, collected, _, plans⟩ := parts.own
  obtain ⟨whole, isWhole, typeName, fields⟩ := exists_left_of_mem plans isVariant
  obtain ⟨occurrences, grouped, same, _⟩ := exists_left_of_mem fields isField
  rw [Variant.fields_of_mem_joined isWhole] at grouped
  intro selected member
  rw [same] at member ⊢
  obtain ⟨here, named⟩ := Occurrences.of_mem_groups grouped selected member
  exact ⟨named, typeName ▸ collected.exists_of_mem here⟩

/-- **A shared field was selected by an occurrence on the type itself.** -/
theorem exists_collected_shared (parts : environment.PlanParts task type plan)
    (isField : field ∈ plan.shared) :
    ∀ selected ∈ field.occurrences.toList,
      selected.responseName = field.occurrences.responseName ∧
      ∃ occurrence ∈ task.occurrences.toList, ∃ fields,
        environment.collectFor type type occurrence.node.items task.path = .ok fields ∧
          selected ∈ fields := by
  rcases parts.onType with none | ⟨found, collected, _, plans⟩
  · rw [none] at isField
    cases isField
  · obtain ⟨occurrences, grouped, same, _⟩ := exists_left_of_mem plans isField
    intro selected member
    rw [same] at member ⊢
    obtain ⟨here, named⟩ := Occurrences.of_mem_groups grouped selected member
    obtain ⟨fields, isFound, inFields⟩ := List.mem_flatten.mp here
    obtain ⟨occurrence, isOccurrence, collectedHere⟩ := exists_left_of_mem collected isFound
    exact ⟨named, occurrence, isOccurrence, fields, collectedHere, inFields⟩

/-- A field of a plan was selected by an occurrence of the task. -/
theorem exists_selecting (parts : environment.PlanParts task type plan)
    (isField : field ∈ plan.fields) :
    ∀ selected ∈ field.occurrences.toList,
      selected.responseName = field.occurrences.responseName ∧
      ∃ occurrence ∈ task.occurrences.toList, ∃ runtime fields,
        environment.collectFor runtime type occurrence.node.items task.path = .ok fields ∧
          selected ∈ fields := by
  intro selected member
  rcases Plan.mem_fields.mp isField with ⟨variant, isVariant, inVariant⟩ | isShared
  · obtain ⟨named, occurrence, isOccurrence, runtime, _, _, fields, collected, here⟩ :=
      parts.exists_collected isVariant inVariant selected member
    exact ⟨named, occurrence, isOccurrence, runtime, fields, collected, here⟩
  · obtain ⟨named, occurrence, isOccurrence, fields, collected, here⟩ :=
      parts.exists_collected_shared isShared selected member
    exact ⟨named, occurrence, isOccurrence, type, fields, collected, here⟩

/-- All occurrences of a field lie at one path, below the path of the task. -/
theorem path_of_mem (parts : environment.PlanParts task type plan) (isField : field ∈ plan.fields)
    {selected : SelectedField} (member : selected ∈ field.occurrences.toList) :
    selected.path = task.path.child field.occurrences.responseName := by
  obtain ⟨named, _, _, _, _, collected, here⟩ := parts.exists_selecting isField selected member
  rw [SelectedField.path, setPath_of_collectFor collected selected here, named]

theorem path_of_field (parts : environment.PlanParts task type plan)
    (isField : field ∈ plan.fields) :
    field.occurrences.path = task.path.child field.occurrences.responseName :=
  parts.path_of_mem isField List.mem_cons_self

theorem value_of_field (parts : environment.PlanParts task type plan)
    (isField : field ∈ plan.fields) :
    environment.valueOf? field.occurrences.namedType = some field.value := by
  rcases Plan.mem_fields.mp isField with ⟨variant, isVariant, inVariant⟩ | isShared
  · obtain ⟨found, _, _, plans⟩ := parts.own
    obtain ⟨whole, _, _, fields⟩ := exists_left_of_mem plans isVariant
    obtain ⟨occurrences, _, same, value⟩ := exists_left_of_mem fields inVariant
    exact same ▸ value
  · rcases parts.onType with none | ⟨found, _, _, plans⟩
    · rw [none] at isShared
      cases isShared
    · obtain ⟨occurrences, _, same, value⟩ := exists_left_of_mem plans isShared
      exact same ▸ value

theorem nodup_typeNames (parts : environment.PlanParts task type plan) :
    (plan.variants.map Variant.typeName).Nodup := by
  obtain ⟨found, _, _, plans⟩ := parts.own
  rw [← forall₂_map_eq (fun whole variant (here : environment.PlansVariant whole variant) =>
    here.typeName.symm) plans, Variant.map_typeName_joined]
  exact OrderedSet.nodup_ofList _

/-- **What an occurrence selects on a possible type is covered by the plan.** -/
theorem exists_planned (parts : environment.PlanParts task type plan)
    {occurrence : SelectedField} (isOccurrence : occurrence ∈ task.occurrences.toList)
    {runtime : TypeDefinition} (possible : runtime ∈ environment.schema.possibleTypes type) :
    ∃ fields, environment.collectFor runtime type occurrence.node.items task.path = .ok fields ∧
      ∃ variant ∈ plan.variants, variant.typeName = runtime.name ∧
        ∀ selected ∈ fields, ∃ field ∈ variant.fields,
          field.occurrences.responseName = selected.responseName ∧
          field.occurrences.first.definition.name = selected.definition.name ∧
          field.occurrences.namedType = selected.namedType ∧
          ∃ known ∈ field.occurrences.toList, known.Covers selected := by
  obtain ⟨found, collected, compatible, plans⟩ := parts.own
  obtain ⟨chosen, isChosen, named, selects⟩ := collected.exists_fields isOccurrence possible
  obtain ⟨whole, isWhole, wholeName, wholeFields⟩ := Variant.exists_joined isChosen
  obtain ⟨variant, isVariant, typeName, fields⟩ := exists_right_of_mem plans isWhole
  refine ⟨chosen.fields, selects, variant, isVariant, ?_, fun selected member => ?_⟩
  · rw [typeName, wholeName, named]
  · have here : selected ∈ Variant.fieldsOf found.flatten chosen.typeName :=
      Variant.mem_fieldsOf.mpr ⟨chosen, isChosen, rfl, member⟩
    obtain ⟨occurrences, grouped, response, known, isKnown, covers⟩ :=
      Occurrences.exists_group here
    rw [wholeFields] at fields
    obtain ⟨field, isField, same, _⟩ := exists_right_of_mem fields grouped
    have first := (Occurrences.of_mem_groups grouped occurrences.first List.mem_cons_self).1
    obtain ⟨names, types⟩ := compatible chosen.typeName _ first _ here response
    exact ⟨field, isField, same ▸ response, same ▸ names, same ▸ types, known, same ▸ isKnown,
      covers⟩

/-! ### Tasks -/

/-- **Every field with a composite value leaves a task at its position.** -/
theorem exists_task (parts : environment.PlanParts task type plan) (isField : field ∈ plan.fields)
    (composite : field.value = .composite) :
    ∃ child ∈ plan.tasks, child.path = field.occurrences.path := by
  rw [parts.tasks]
  have left : Task.ofOccurrences field.occurrences ∈ Variant.tasks plan.variants ∨
      Task.ofOccurrences field.occurrences ∈ PlannedField.tasks plan.shared := by
    rcases Plan.mem_fields.mp isField with ⟨variant, isVariant, inVariant⟩ | isShared
    · exact .inl (Variant.mem_tasks.mpr ⟨variant, isVariant, field, inVariant, composite, rfl⟩)
    · exact .inr (PlannedField.mem_tasks.mpr ⟨field, isShared, composite, rfl⟩)
  exact Task.exists_resolved left

/-- **The task at the position of a variant's field covers the field, with its type.** -/
theorem exists_task_of_variant (parts : environment.PlanParts task type plan)
    (isVariant : variant ∈ plan.variants) (isField : field ∈ variant.fields)
    (composite : field.value = .composite) :
    ∃ child ∈ plan.tasks, child.path = field.occurrences.path ∧
      child.namedType = field.occurrences.namedType ∧
      ∀ selected ∈ field.occurrences.toList,
        ∃ known ∈ child.occurrences.toList, known.Covers selected := by
  have left : Task.ofOccurrences field.occurrences ∈ Variant.tasks plan.variants :=
    Variant.mem_tasks.mpr ⟨variant, isVariant, field, isField, composite, rfl⟩
  obtain ⟨child, isChild, path, ⟨first, isFirst, firstPath, sameFirst⟩, covered⟩ :=
    Task.exists_resolved_of_own (PlannedField.tasks plan.shared) left
  refine ⟨child, parts.tasks ▸ isChild, path, ?_, covered⟩
  rw [Task.namedType, Occurrences.namedType, sameFirst]
  exact (parts.compatible first isFirst _ left firstPath).2

/-- **A task comes from the fields of its position.** -/
theorem origin_of_task (parts : environment.PlanParts task type plan)
    (isChild : child ∈ plan.tasks) :
    (∃ field ∈ plan.fields, field.value = .composite ∧ field.occurrences.path = child.path ∧
      child.occurrences.first = field.occurrences.first) ∧
    ∀ selected ∈ child.occurrences.toList, ∃ field ∈ plan.fields, field.value = .composite ∧
      field.occurrences.path = child.path ∧ selected ∈ field.occurrences.toList := by
  have planned : ∀ {left : Task}, (left ∈ Variant.tasks plan.variants ∨
      left ∈ PlannedField.tasks plan.shared) → ∃ field ∈ plan.fields,
        field.value = .composite ∧ Task.ofOccurrences field.occurrences = left := by
    rintro left (own | shared)
    · obtain ⟨variant, isVariant, field, inVariant, composite, same⟩ := Variant.mem_tasks.mp own
      exact ⟨field, Plan.mem_fields.mpr (.inl ⟨variant, isVariant, inVariant⟩), composite, same⟩
    · obtain ⟨field, isShared, composite, same⟩ := PlannedField.mem_tasks.mp shared
      exact ⟨field, Plan.mem_fields.mpr (.inr isShared), composite, same⟩
  rw [parts.tasks] at isChild
  obtain ⟨⟨left, isLeft, path, first⟩, occurrences⟩ := Task.origin_of_mem_resolve isChild
  constructor
  · obtain ⟨field, isField, composite, rfl⟩ := planned isLeft
    exact ⟨field, isField, composite, path, first⟩
  · intro selected member
    obtain ⟨other, isOther, otherPath, here⟩ := occurrences selected member
    obtain ⟨field, isField, composite, rfl⟩ := planned isOther
    exact ⟨field, isField, composite, otherPath, here⟩

/-- **The tasks of a plan have distinct paths.** -/
theorem nodup_tasks (parts : environment.PlanParts task type plan) :
    (plan.tasks.map Task.path).Nodup := by
  rw [parts.tasks, Task.map_path_resolve]
  exact OrderedSet.nodup_ofList _

/-- A task lies one segment below the task that leaves it. -/
theorem path_of_task (parts : environment.PlanParts task type plan) (isChild : child ∈ plan.tasks) :
    child.path = task.path.child child.occurrences.responseName := by
  obtain ⟨⟨field, isField, _, path, first⟩, _⟩ := parts.origin_of_task isChild
  rw [← path, parts.path_of_field isField]
  exact congrArg _ (congrArg SelectedField.responseName first.symm)

/-- The value at a task's path is composite. -/
theorem composite_of_task (parts : environment.PlanParts task type plan)
    (isChild : child ∈ plan.tasks) :
    ∃ below, environment.schema.type? child.namedType = some below ∧
      below.isComposite = true := by
  obtain ⟨⟨field, isField, composite, _, first⟩, _⟩ := parts.origin_of_task isChild
  have value := parts.value_of_field isField
  rw [composite] at value
  have same : child.namedType = field.occurrences.namedType :=
    congrArg SelectedField.namedType first
  exact same ▸ valueOf?_eq_composite_iff.mp value

end PlanParts

end Environment

/-! ## The root as a task -/

/-- The whole response as a task, of which the operation's selection set is the only
occurrence. -/
def Task.root (type : TypeDefinition) (items : List Selection) (path : Path) : Task :=
  ⟨.single
    { definition :=
        { name := "", type := .named type.name, description := none, arguments := [],
          directives := [] }
      node := ⟨⟨none, "", [], [], ⟨0, 0⟩⟩, ⟨⟨0, 0⟩, ⟨0, 0⟩⟩, items⟩
      setPath := path },
    path⟩

theorem Occurrences.groups_of_nodup {fields : List SelectedField}
    (distinct : (fields.map SelectedField.responseName).Nodup) :
    groups fields = fields.map single := by
  rw [groups, OrderedMap.groupBy_of_nodup distinct, ← List.filterMap_eq_map]
  rfl

theorem SelectedField.compatible_of_nodup {fields : List SelectedField}
    (distinct : (fields.map responseName).Nodup) : Compatible fields := by
  intro first isFirst second isSecond same
  obtain rfl := List.inj_on_of_nodup_map distinct isFirst isSecond same
  exact ⟨rfl, rfl⟩

namespace Environment

variable {environment : Environment} {runtime scope root : TypeDefinition} {path : Path}
  {items : List Selection}

/-- One field is selected for a response name. -/
theorem nodup_responseNames_of_collectFor {fields : List SelectedField}
    (collected : environment.collectFor runtime scope items path = .ok fields) :
    (fields.map SelectedField.responseName).Nodup := by
  obtain ⟨nodes, after, _, _, selected⟩ := collectFor_eq_ok_iff.mp collected
  have names : (FieldNode.merged nodes).map FieldNode.responseName =
      fields.map SelectedField.responseName :=
    forall₂_map_eq (fun node field here =>
      congrArg FieldNode.responseName (selectField_eq_ok_iff.mp here).2.1.symm) selected
  rw [← names, FieldNode.map_responseName_merged]
  exact OrderedSet.nodup_ofList _

/-- **Planning the root is planning its task.** -/
theorem planRoot_eq_ok_iff (known : environment.schema.type? root.name = some root)
    (object : root.kind = .object) {fields : List PlannedField} :
    environment.planRoot root items path = .ok fields ↔
      environment.Plans (Task.root root items path) (.object root fields) := by
  have only := Schema.possibleTypes_of_object known object
  have collects : ∀ {selected : List SelectedField},
      environment.collectFor root root items path = .ok selected →
        environment.collectVariants root (Task.root root items path) =
          .ok [⟨root.name, selected.map Occurrences.single⟩] := by
    intro selected collected
    have distinct := nodup_responseNames_of_collectFor collected
    have each : environment.Collects root (Task.root root items path)
        [[⟨root.name, selected⟩]] := by
      refine .cons (collect_eq_ok_iff.mpr ?_) .nil
      rw [only]
      exact .cons ⟨rfl, collected⟩ .nil
    have fieldsOf : Variant.fieldsOf [[(⟨root.name, selected⟩ : Variant SelectedField)]].flatten
        root.name = selected := by
      simp [Variant.fieldsOf]
    refine collectVariants_eq_ok_iff.mpr ⟨_, each, fun typeName => ?_, ?_⟩
    · by_cases named : root.name = typeName
      · rw [← named, fieldsOf]
        exact SelectedField.compatible_of_nodup distinct
      · intro first isFirst
        simp [Variant.fieldsOf, named] at isFirst
    · rw [each.joined_of_object known object, fieldsOf, Occurrences.groups_of_nodup distinct]
  rw [planRoot, bind_eq_ok_iff]
  simp only [planFields_eq_ok_iff, collect_eq_ok_iff, only]
  constructor
  · rintro ⟨variants, selected, plans⟩
    obtain ⟨variant, _, ⟨typeName, collected⟩, rest, rfl⟩ := List.forall₂_cons_left_iff.mp selected
    exact .object known (collects collected) object plans
  · intro planned
    cases planned with
    | object _ collected _ plans =>
        obtain ⟨found, each, _, joined⟩ := collectVariants_eq_ok_iff.mp collected
        have possible : root ∈ environment.schema.possibleTypes root :=
          only ▸ List.mem_singleton_self root
        obtain ⟨variant, _, typeName, selects⟩ :=
          Collects.exists_fields each List.mem_cons_self possible
        obtain rfl := Except.ok.inj ((collects selects).symm.trans collected)
        exact ⟨[variant], .cons ⟨typeName, selects⟩ .nil, plans⟩

end Environment

end ResponseShape

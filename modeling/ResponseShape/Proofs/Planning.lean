import ResponseShape.Proofs.Joining

/-!
# What a plan consists of

A plan is told by its parts (`Environment.Plans`): the variants with their planned fields, the
fields on the type itself, and the tasks. The tasks are those that the variants leave, joined by
position, and those that the shared fields leave at positions that no variant reaches
(`Task.resolve`). Every field whose value is composite has a task at its position, and the
occurrences of a field of a variant are covered by those of its task.
-/

set_option autoImplicit false

namespace ResponseShape

/-! ## Tasks of one position -/

namespace Task

/-- Tasks of one position select fields of one name and of one named type. -/
def Compatible (tasks : List Task) : Prop :=
  ∀ first ∈ tasks, ∀ second ∈ tasks, first.path = second.path →
    first.occurrences.first.definition.name = second.occurrences.first.definition.name ∧
      first.namedType = second.namedType

/-- The task that tasks of one position become. -/
def joined? : List Task → Option Task
  | [] => none
  | first :: rest =>
      some
        { first with
          occurrences := (rest.flatMap (fun task => task.occurrences.toList)).foldl
            Occurrences.addDistinct first.occurrences }

/-- What stands at a position: the tasks of variants, joined, and otherwise the first task of a
shared field. -/
def atPath? (own shared : List Task) (path : Path) : Option Task :=
  (joined? (own.filter (fun task => task.path = path))).or
    (shared.find? (fun task => task.path = path))

/-- One task for each position of tasks of variants and of shared fields. -/
def resolve (own shared : List Task) : List Task :=
  (OrderedSet.ofList ((own ++ shared).map Task.path)).filterMap (atPath? own shared)

theorem changeAll_joinAt_some {known : Task} {tasks : List Task} {result : Option Task} :
    OrderedMap.changeAll joinAt tasks (some known) = .ok result ↔
      (∀ task ∈ tasks, known.occurrences.conflict? task.occurrences = none) ∧
        some
          { known with
            occurrences := (tasks.flatMap (fun task => task.occurrences.toList)).foldl
              Occurrences.addDistinct known.occurrences } = result := by
  induction tasks generalizing known with
  | nil => simp
  | cons task rest ih =>
      have unchanged : ∀ (fields : List SelectedField) (other : Occurrences),
          (fields.foldl Occurrences.addDistinct known.occurrences).conflict? other =
            known.occurrences.conflict? other := by
        intro fields other
        simp only [Occurrences.conflict?, Occurrences.namedType,
          Occurrences.first_foldl_addDistinct]
        rfl
      constructor
      · intro changed
        obtain ⟨next, joining, later⟩ := OrderedMap.changeAll_cons_eq_ok changed
        obtain ⟨occurrences, absorbed, same⟩ := bind_eq_ok_iff.mp joining
        obtain ⟨agreeing, rfl⟩ := Occurrences.absorb_eq_ok_iff.mp absorbed
        obtain rfl := Except.ok.inj same
        obtain ⟨others, same⟩ := ih.mp later
        refine ⟨fun other member => ?_, ?_⟩
        · rcases List.mem_cons.mp member with rfl | isOther
          · exact agreeing
          · exact unchanged _ _ ▸ others other isOther
        · rw [← same, List.flatMap_cons, List.foldl_append]
      · rintro ⟨agreeing, same⟩
        have joining : joinAt task (some known) =
            .ok { known with
                  occurrences := task.occurrences.toList.foldl Occurrences.addDistinct
                    known.occurrences } :=
          bind_eq_ok_iff.mpr ⟨_, Occurrences.absorb_eq_ok_iff.mpr
            ⟨agreeing task List.mem_cons_self, rfl⟩, rfl⟩
        rw [OrderedMap.changeAll_cons_of_ok joinAt joining]
        refine ih.mpr ⟨fun other member => ?_, ?_⟩
        · exact (unchanged _ _).trans (agreeing other (List.mem_cons_of_mem _ member))
        · rw [← same, List.flatMap_cons, List.foldl_append]

theorem changeAll_joinAt {tasks : List Task} {result : Option Task}
    (alike : ∀ first ∈ tasks, ∀ second ∈ tasks, first.path = second.path) :
    OrderedMap.changeAll joinAt tasks none = .ok result ↔
      Compatible tasks ∧ joined? tasks = result := by
  cases tasks with
  | nil => simp [Compatible, joined?]
  | cons first rest =>
      have taken : first.joinAt none = .ok first := rfl
      rw [OrderedMap.changeAll_cons_of_ok joinAt taken, changeAll_joinAt_some]
      refine and_congr_left fun _ => ?_
      simp only [Occurrences.conflict?_eq_none_iff]
      constructor
      · intro agreeing
        have withFirst : ∀ task ∈ first :: rest,
            first.occurrences.first.definition.name = task.occurrences.first.definition.name ∧
              first.namedType = task.namedType := by
          intro task member
          rcases List.mem_cons.mp member with rfl | later
          · exact ⟨rfl, rfl⟩
          · exact agreeing task later
        intro one isOne two isTwo _
        obtain ⟨oneName, oneType⟩ := withFirst one isOne
        obtain ⟨twoName, twoType⟩ := withFirst two isTwo
        exact ⟨oneName.symm.trans twoName, oneType.symm.trans twoType⟩
      · intro compatible task member
        exact compatible first List.mem_cons_self task (List.mem_cons_of_mem _ member)
          (alike first List.mem_cons_self task (List.mem_cons_of_mem _ member))

theorem compatible_iff_filter {tasks : List Task} :
    Compatible tasks ↔
      ∀ path, Compatible (tasks.filter (fun task => task.path = path)) := by
  constructor
  · intro compatible path first isFirst second isSecond same
    exact compatible first (List.mem_filter.mp isFirst).1 second (List.mem_filter.mp isSecond).1
      same
  · intro compatible first isFirst second isSecond same
    refine compatible second.path first (List.mem_filter.mpr ⟨isFirst, ?_⟩) second
      (List.mem_filter.mpr ⟨isSecond, ?_⟩) same
    · simpa using same
    · simp

end Task

namespace TaskMap

theorem changeAll_filter {tasks : List Task} {path : Path} {result : Option Task} :
    OrderedMap.changeAll Task.joinAt (tasks.filter (fun task => task.path = path)) none =
        .ok result ↔
      Task.Compatible (tasks.filter (fun task => task.path = path)) ∧
        Task.joined? (tasks.filter (fun task => task.path = path)) = result := by
  refine Task.changeAll_joinAt fun first isFirst second isSecond => ?_
  simp only [List.mem_filter, decide_eq_true_eq] at isFirst isSecond
  exact isFirst.2.trans isSecond.2.symm

/-- Tasks are joined when those of one position are compatible. -/
theorem joinAll_empty_eq_ok {tasks : List Task} {map : TaskMap}
    (joined : joinAll OrderedMap.empty tasks = .ok map) :
    Task.Compatible tasks ∧ map.keys = OrderedSet.ofList (tasks.map Task.path) ∧
      ∀ path, map.get? path = Task.joined? (tasks.filter (fun task => task.path = path)) := by
  have updated : OrderedMap.updateAll Task.path Task.joinAt OrderedMap.empty tasks = .ok map :=
    joined
  refine ⟨Task.compatible_iff_filter.mpr fun path => ?_, OrderedMap.keys_of_updates updated,
    fun path => ?_⟩
  · exact (changeAll_filter.mp (OrderedMap.get?_of_updates updated path)).1
  · exact (changeAll_filter.mp (OrderedMap.get?_of_updates updated path)).2.symm

theorem exists_joinAll {tasks : List Task} (compatible : Task.Compatible tasks) :
    ∃ map, joinAll OrderedMap.empty tasks = .ok map :=
  OrderedMap.exists_updates Task.path Task.joinAt OrderedMap.empty tasks fun path =>
    ⟨_, changeAll_filter.mpr ⟨Task.compatible_iff_filter.mp compatible path, rfl⟩⟩

theorem keys_addMissing (map : TaskMap) (task : Task) :
    (map.addMissing task).keys = OrderedSet.add map.keys task.path := by
  rw [addMissing]
  split
  · rename_i present
    rw [OrderedSet.add_of_mem (OrderedMap.contains_iff_mem_keys.mp present)]
  · exact OrderedMap.keys_insert map task.path task

theorem get?_addMissing (map : TaskMap) (task : Task) (path : Path) :
    (map.addMissing task).get? path =
      (map.get? path).or (if task.path = path then some task else none) := by
  rw [addMissing]
  by_cases here : task.path = path
  · subst here
    cases found : map.get? task.path with
    | none => simp [OrderedMap.contains, found, OrderedMap.get?_insert]
    | some known => simp [OrderedMap.contains, found]
  · rw [if_neg here, Option.or_none]
    split
    · rfl
    · rw [OrderedMap.get?_insert, if_neg (Ne.symm here)]

theorem keys_foldl_addMissing (map : TaskMap) (tasks : List Task) :
    (tasks.foldl addMissing map).keys = OrderedSet.addAll map.keys (tasks.map Task.path) := by
  induction tasks generalizing map with
  | nil => rfl
  | cons task rest ih =>
      rw [List.foldl_cons, ih, keys_addMissing, List.map_cons]
      rfl

theorem get?_foldl_addMissing (map : TaskMap) (tasks : List Task) (path : Path) :
    (tasks.foldl addMissing map).get? path =
      (map.get? path).or (tasks.find? (fun task => task.path = path)) := by
  induction tasks generalizing map with
  | nil => simp
  | cons task rest ih =>
      rw [List.foldl_cons, ih, get?_addMissing, Option.or_assoc]
      by_cases here : task.path = path
      · simp [here]
      · simp [here]

/-- **The tasks of variants and of shared fields are resolved by position.** -/
theorem values_foldl_addMissing {own shared : List Task} {map : TaskMap}
    (joined : joinAll OrderedMap.empty own = .ok map) :
    (shared.foldl addMissing map).values = Task.resolve own shared := by
  obtain ⟨_, keys, atPath⟩ := joinAll_empty_eq_ok joined
  have allKeys : (shared.foldl addMissing map).keys =
      OrderedSet.ofList ((own ++ shared).map Task.path) := by
    rw [keys_foldl_addMissing, keys, List.map_append]
    exact (OrderedSet.addAll_append [] _ _).symm
  have distinct : (shared.foldl addMissing map).keys.Nodup :=
    allKeys ▸ OrderedSet.nodup_ofList _
  rw [OrderedMap.values_eq_filterMap distinct, allKeys]
  refine List.filterMap_congr fun path _ => ?_
  rw [get?_foldl_addMissing, atPath]
  rfl

end TaskMap

/-! ## Fields and variants -/

/-- The tasks that the fields of variants leave, in order. -/
def Variant.tasks (variants : List (Variant PlannedField)) : List Task :=
  variants.flatMap (fun variant => PlannedField.tasks variant.fields)

namespace Environment

variable {environment : Environment} {type : TypeDefinition} {task : Task}

/-- What values of the named type are, if fields can have it. -/
def valueOf? (environment : Environment) (namedType : String) : Option FieldValue :=
  match environment.schema.type? namedType with
  | some type =>
      match type.kind with
      | .scalar => some .scalar
      | .enum => some .enum
      | .object | .interface | .union => some .composite
      | .inputObject => none
  | none => if builtinScalars.contains namedType then some .scalar else none

theorem fieldValue_eq_ok_iff {namedType : String} {path : Path} {position : Position}
    {value : FieldValue} :
    environment.fieldValue namedType path position = .ok value ↔
      environment.valueOf? namedType = some value := by
  cases found : environment.schema.type? namedType with
  | none =>
      by_cases builtin : namedType ∈ builtinScalars
      · simp [fieldValue, valueOf?, found, builtin]
      · simp [fieldValue, valueOf?, found, builtin]
  | some type => cases kind : type.kind <;> simp [fieldValue, valueOf?, found, kind]

theorem valueOf?_eq_composite_iff {namedType : String} :
    environment.valueOf? namedType = some .composite ↔
      ∃ type, environment.schema.type? namedType = some type ∧ type.isComposite = true := by
  cases found : environment.schema.type? namedType with
  | none => simp [valueOf?, found]
  | some type =>
      cases kind : type.kind <;> simp [valueOf?, found, TypeDefinition.isComposite, kind]

theorem valueOf?_eq_enum_iff {namedType : String} :
    environment.valueOf? namedType = some .enum ↔
      ∃ type, environment.schema.type? namedType = some type ∧ type.kind = .enum := by
  cases found : environment.schema.type? namedType with
  | none => simp [valueOf?, found]
  | some type => cases kind : type.kind <;> simp [valueOf?, found, kind]

/-- The occurrences, planned as a field. -/
structure PlansField (environment : Environment) (occurrences : Occurrences)
    (field : PlannedField) : Prop where
  same : field.occurrences = occurrences
  value : environment.valueOf? occurrences.namedType = some field.value

/-- The fields of a variant, planned. -/
structure PlansVariant (environment : Environment) (variant : Variant Occurrences)
    (planned : Variant PlannedField) : Prop where
  typeName : planned.typeName = variant.typeName
  fields : List.Forall₂ environment.PlansField variant.fields planned.fields

theorem planFields_eq_ok_iff {groups : List Occurrences} {fields : List PlannedField} :
    environment.planFields groups = .ok fields ↔
      List.Forall₂ environment.PlansField groups fields := by
  have each : ∀ occurrences field, environment.planField occurrences = .ok field ↔
      environment.PlansField occurrences field := by
    intro occurrences field
    rw [planField, bind_eq_ok_iff]
    simp only [fieldValue_eq_ok_iff]
    constructor
    · rintro ⟨value, known, same⟩
      obtain rfl := Except.ok.inj same
      exact ⟨rfl, known⟩
    · rintro ⟨rfl, known⟩
      exact ⟨field.value, known, rfl⟩
  rw [planFields, mapM_eq_ok_iff]
  simp only [each]

theorem planVariants_eq_ok_iff {variants : List (Variant Occurrences)} {tasks all : TaskMap}
    {planned : List (Variant PlannedField)} :
    environment.planVariants tasks variants = .ok (planned, all) ↔
      List.Forall₂ environment.PlansVariant variants planned ∧
        tasks.joinAll (Variant.tasks planned) = .ok all := by
  induction variants generalizing tasks planned with
  | nil =>
      rw [planVariants, List.forall₂_nil_left_iff]
      constructor
      · intro same
        obtain ⟨rfl, rfl⟩ := Prod.mk.inj (Except.ok.inj same)
        exact ⟨rfl, rfl⟩
      · rintro ⟨rfl, joined⟩
        obtain rfl := Except.ok.inj joined
        rfl
  | cons variant rest ih =>
      rw [planVariants, List.forall₂_cons_left_iff]
      simp only [bind_eq_ok_iff, planFields_eq_ok_iff]
      constructor
      · rintro ⟨fields, plannedFields, joined, joining, ⟨others, last⟩, later, same⟩
        obtain ⟨rfl, rfl⟩ := Prod.mk.inj (Except.ok.inj same)
        obtain ⟨plannedRest, joinedRest⟩ := ih.mp later
        refine ⟨⟨_, _, ⟨rfl, plannedFields⟩, plannedRest, rfl⟩, ?_⟩
        rw [Variant.tasks, List.flatMap_cons, TaskMap.joinAll, List.foldlM_append]
        exact bind_eq_ok_iff.mpr ⟨joined, joining, joinedRest⟩
      · rintro ⟨⟨first, others, ⟨typeName, plannedFields⟩, plannedRest, rfl⟩, joined⟩
        rw [Variant.tasks, List.flatMap_cons, TaskMap.joinAll, List.foldlM_append] at joined
        obtain ⟨between, joining, joinedRest⟩ := bind_eq_ok_iff.mp joined
        refine ⟨first.fields, plannedFields, between, joining, ⟨others, all⟩,
          ih.mpr ⟨plannedRest, joinedRest⟩, ?_⟩
        rw [← typeName]
        rfl

/-- The parts of the plan of an interface or a union. -/
structure PlansAbstract (environment : Environment) (type : TypeDefinition) (task : Task)
    (variants : List (Variant Occurrences)) (planned : List (Variant PlannedField))
    (shared : List PlannedField) (tasks : List Task) : Prop where
  own : List.Forall₂ environment.PlansVariant variants planned
  compatible : Task.Compatible (Variant.tasks planned)
  onType : ∃ groups, environment.collectShared type task = .ok groups ∧
    List.Forall₂ environment.PlansField groups shared
  resolved : tasks = Task.resolve (Variant.tasks planned) (PlannedField.tasks shared)

theorem planAbstract_eq_ok_iff {variants : List (Variant Occurrences)}
    {planned : List (Variant PlannedField)} {shared : List PlannedField} {tasks : List Task} :
    environment.planAbstract type task variants = .ok (planned, shared, tasks) ↔
      environment.PlansAbstract type task variants planned shared tasks := by
  rw [planAbstract, bind_eq_ok_iff]
  simp only [bind_eq_ok_iff, planFields_eq_ok_iff]
  constructor
  · rintro ⟨⟨plannedVariants, map⟩, found, groups, collected, plannedShared, sharedFound, same⟩
    obtain ⟨plannedAll, joined⟩ := planVariants_eq_ok_iff.mp found
    simp only [pure, Except.pure, Except.ok.injEq, Prod.mk.injEq] at same
    obtain ⟨rfl, rfl, rfl⟩ := same
    exact ⟨plannedAll, (TaskMap.joinAll_empty_eq_ok joined).1, ⟨groups, collected, sharedFound⟩,
      TaskMap.values_foldl_addMissing joined⟩
  · rintro ⟨plannedAll, compatible, ⟨groups, collected, sharedFound⟩, rfl⟩
    obtain ⟨map, joined⟩ := TaskMap.exists_joinAll compatible
    refine ⟨⟨planned, map⟩, planVariants_eq_ok_iff.mpr ⟨plannedAll, joined⟩, groups, collected,
      shared, sharedFound, ?_⟩
    rw [← TaskMap.values_foldl_addMissing joined]
    rfl

/-! ## Plans -/

/-- What a plan of a task consists of, by the kind of the task's type. -/
inductive Plans (environment : Environment) (task : Task) : Plan → Prop where
  | leaf {type : TypeDefinition} {variants : List (Variant Occurrences)} :
      environment.schema.type? task.namedType = some type →
        environment.collectVariants type task = .ok variants →
        type.kind = .scalar ∨ type.kind = .enum → Plans environment task .leaf
  | object {type : TypeDefinition} {variants : List (Variant Occurrences)}
      {fields : List PlannedField} :
      environment.schema.type? task.namedType = some type →
        environment.collectVariants type task = .ok variants → type.kind = .object →
        List.Forall₂ environment.PlansField (firstFields variants) fields →
        Plans environment task (.object type fields)
  | interface {type : TypeDefinition} {variants : List (Variant Occurrences)}
      {planned : List (Variant PlannedField)} {shared : List PlannedField} {tasks : List Task} :
      environment.schema.type? task.namedType = some type →
        environment.collectVariants type task = .ok variants → type.kind = .interface →
        environment.PlansAbstract type task variants planned shared tasks →
        Plans environment task (.interface type planned shared tasks)
  | union {type : TypeDefinition} {variants : List (Variant Occurrences)}
      {planned : List (Variant PlannedField)} {shared : List PlannedField} {tasks : List Task} :
      environment.schema.type? task.namedType = some type →
        environment.collectVariants type task = .ok variants → type.kind = .union →
        environment.PlansAbstract type task variants planned shared tasks →
        Plans environment task (.union type planned shared tasks)

/-- **Planning gives what a plan consists of.** -/
theorem plan_eq_ok_iff {plan : Plan} :
    environment.plan task = .ok plan ↔ environment.Plans task plan := by
  constructor
  · intro planned
    rw [Environment.plan] at planned
    cases found : environment.schema.type? task.namedType with
    | none => simp [found] at planned
    | some type =>
        simp only [found, bind_eq_ok_iff] at planned
        obtain ⟨variants, collected, built⟩ := planned
        cases kind : type.kind <;> simp only [kind, bind_eq_ok_iff] at built
        case object =>
          obtain ⟨fields, plannedFields, same⟩ := built
          obtain rfl := Except.ok.inj same
          exact .object found collected kind (planFields_eq_ok_iff.mp plannedFields)
        case interface =>
          obtain ⟨⟨planned, shared, tasks⟩, parts, same⟩ := built
          obtain rfl := Except.ok.inj same
          exact .interface found collected kind (planAbstract_eq_ok_iff.mp parts)
        case union =>
          obtain ⟨⟨planned, shared, tasks⟩, parts, same⟩ := built
          obtain rfl := Except.ok.inj same
          exact .union found collected kind (planAbstract_eq_ok_iff.mp parts)
        case scalar =>
          obtain rfl := Except.ok.inj built
          exact .leaf found collected (.inl kind)
        case enum =>
          obtain rfl := Except.ok.inj built
          exact .leaf found collected (.inr kind)
        case inputObject => cases built
  · intro parts
    rw [Environment.plan]
    cases parts with
    | leaf found collected kind =>
        simp only [found, bind_eq_ok_iff]
        refine ⟨_, collected, ?_⟩
        rcases kind with kind | kind <;>
        · rw [kind]
          rfl
    | object found collected kind fields =>
        simp only [found, bind_eq_ok_iff]
        refine ⟨_, collected, ?_⟩
        rw [kind]
        exact bind_eq_ok_iff.mpr ⟨_, planFields_eq_ok_iff.mpr fields, rfl⟩
    | interface found collected kind parts =>
        simp only [found, bind_eq_ok_iff]
        refine ⟨_, collected, ?_⟩
        rw [kind]
        exact bind_eq_ok_iff.mpr ⟨_, planAbstract_eq_ok_iff.mpr parts, rfl⟩
    | union found collected kind parts =>
        simp only [found, bind_eq_ok_iff]
        refine ⟨_, collected, ?_⟩
        rw [kind]
        exact bind_eq_ok_iff.mpr ⟨_, planAbstract_eq_ok_iff.mpr parts, rfl⟩

end Environment

end ResponseShape

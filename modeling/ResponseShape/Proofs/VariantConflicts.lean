import ResponseShape.Proofs.PlainPlans
import ResponseShape.Proofs.VacantNames

/-!
# Fields of several variants at one position

A value of an interface or a union is of one of its possible types, so what is selected on one
variant never meets what is selected on another. Only the positions below are shared: composite
fields of one response name leave one task, whichever variant they belong to. The task takes the
fields up one after the other and compares each with the first.

That finds all conflicts. A step at a position without models fails exactly when two variants have
composite fields of one response name that are different fields of the schema or that have different
named types (`Environment.ConflictingVariants`). Otherwise it leaves one task for each response name
that is composite in a variant, in the order in which the names come first, and the task has all
occurrences of these fields, those of equal nodes once (`Environment.Unites`). The tasks that follow
are those of shared fields, at positions that no variant reaches.
-/

set_option autoImplicit false

namespace ResponseShape

open Outcome

/-- The error is that selections of one response name exclude each other. -/
def AnalysisError.IsMergeConflict (error : AnalysisError) : Prop :=
  ∃ responseName path first second conflict,
    error = .fieldMergeConflict responseName path first second conflict

/-! ## Lists without repetition -/

namespace OrderedSet

variable {α β : Type} [DecidableEq α] [DecidableEq β]

/-- An injection carries the members of a list over. -/
theorem ofList_map {change : α → β} (injective : Function.Injective change) (items : List α) :
    ofList (items.map change) = (ofList items).map change := by
  induction items using List.reverseRecOn with
  | nil => rfl
  | append_singleton items last ih =>
      have added : ∀ {γ : Type} [DecidableEq γ] (members : List γ) (item : γ),
          ofList (members ++ [item]) = add (ofList members) item :=
        fun members item => addAll_concat [] members item
      rw [List.map_append, List.map_singleton, added, added, ih]
      by_cases known : last ∈ ofList items
      · rw [add_of_mem known, add_of_mem (List.mem_map_of_mem known)]
      · have absent : change last ∉ (ofList items).map change := by
          intro member
          obtain ⟨other, isOther, same⟩ := List.mem_map.mp member
          exact known (injective same ▸ isOther)
        rw [add_of_notMem known, add_of_notMem absent, List.map_append, List.map_singleton]

end OrderedSet

namespace Occurrences

/-- No selection has a node that equals one before it. -/
def Distinct (occurrences : Occurrences) : Prop :=
  occurrences.toList.Pairwise (fun earlier later => earlier.node.equals later.node = false)

theorem distinct_foldl_addDistinct {occurrences : Occurrences} (distinct : occurrences.Distinct)
    (fields : List SelectedField) : (fields.foldl addDistinct occurrences).Distinct := by
  rw [Distinct, toList_foldl_addDistinct]
  exact pairwise_distinctOnto distinct fields

/-- The selections of a group have different nodes. -/
theorem distinct_of_mem_groups {fields : List SelectedField} {occurrences : Occurrences}
    (grouped : occurrences ∈ groups fields) : occurrences.Distinct := by
  obtain ⟨item, _, combined⟩ := OrderedMap.mem_groupBy.mp grouped
  cases alike : fields.filter (fun other => other.responseName = item.responseName) with
  | nil => simp [alike, ofList?] at combined
  | cons first rest =>
      rw [alike] at combined
      obtain rfl := Option.some.inj combined
      have alone : (single first).Distinct := List.pairwise_singleton _ first
      exact distinct_foldl_addDistinct alone rest

end Occurrences

/-! ## Tasks that several fields leave -/

namespace Task

variable {own shared tasks : List Task} {child : Task}

/-- Tasks of shared fields come behind those of variants, at other positions. -/
theorem exists_resolve_append (own shared : List Task) :
    ∃ missing, resolve own shared = resolve own [] ++ missing ∧
      ∀ child ∈ missing, child ∈ shared ∧ child.path ∉ own.map path := by
  obtain ⟨new, added⟩ :=
    OrderedSet.exists_addAll_eq_append (OrderedSet.ofList (own.map path)) (shared.map path)
  have paths : OrderedSet.ofList ((own ++ shared).map path) =
      OrderedSet.ofList (own.map path) ++ new := by
    rw [List.map_append, ← added]
    exact OrderedSet.addAll_append [] _ _
  have distinct := OrderedSet.nodup_ofList ((own ++ shared).map path)
  rw [paths] at distinct
  have apart := (List.nodup_append.mp distinct).2.2
  refine ⟨new.filterMap (atPath? own shared), ?_, ?_⟩
  · rw [resolve, resolve, paths, List.filterMap_append, List.append_nil]
    refine congrArg (· ++ _) (List.filterMap_congr fun place isPlace => ?_)
    obtain ⟨first, isFirst, rfl⟩ := List.mem_map.mp (OrderedSet.mem_ofList.mp isPlace)
    obtain ⟨joined, here⟩ := atPath?_of_mem_own isFirst
    rw [atPath?, atPath?, here, Option.some_or, Option.some_or]
  · intro child member
    obtain ⟨place, isNew, found⟩ := List.mem_filterMap.mp member
    have here := path_of_atPath? found
    have elsewhere : place ∉ own.map path := fun isOwn =>
      apart place (OrderedSet.mem_ofList.mpr isOwn) place isNew rfl
    have none : own.filter (fun task => task.path = place) = [] := by
      rw [List.filter_eq_nil_iff]
      intro task isTask same
      exact elsewhere (List.mem_map.mpr ⟨task, isTask, of_decide_eq_true same⟩)
    rw [atPath?, none, joined?, Option.none_or] at found
    exact ⟨List.mem_of_find?_eq_some found, here ▸ elsewhere⟩

/-- Joined tasks make one task, in which each of their selections has an equal, and none a second
one. -/
theorem unites_of_joined? (joined : joined? tasks = some child)
    (distinct : ∀ task ∈ tasks, task.occurrences.Distinct) :
    (∀ occurrence ∈ child.occurrences.toList, ∃ task ∈ tasks,
      occurrence ∈ task.occurrences.toList) ∧
    (∀ task ∈ tasks, ∀ occurrence ∈ task.occurrences.toList,
      ∃ known ∈ child.occurrences.toList, known = occurrence ∨
        known.node.equals occurrence.node = true) ∧
    child.occurrences.Distinct := by
  cases tasks with
  | nil => simp [joined?] at joined
  | cons first rest =>
      obtain rfl := Option.some.inj joined
      have same := Occurrences.toList_foldl_addDistinct first.occurrences
        (rest.flatMap (fun task => task.occurrences.toList))
      obtain ⟨kept, added, thins⟩ := exists_thins_distinctOnto
        (fun known field : SelectedField => known.node.equals field.node)
        first.occurrences.toList (rest.flatMap (fun task => task.occurrences.toList))
      rw [added] at same
      refine ⟨?_, ?_, ?_⟩
      · intro occurrence member
        rw [same] at member
        rcases List.mem_append.mp member with here | later
        · exact ⟨first, List.mem_cons_self, here⟩
        · obtain ⟨task, isTask, there⟩ := List.mem_flatMap.mp (thins.subset occurrence later)
          exact ⟨task, List.mem_cons_of_mem _ isTask, there⟩
      · intro task isTask occurrence member
        rw [same]
        rcases List.mem_cons.mp isTask with rfl | isLater
        · exact ⟨occurrence, List.mem_append_left _ member, .inl rfl⟩
        · have isItem : occurrence ∈ rest.flatMap (fun task => task.occurrences.toList) :=
            List.mem_flatMap.mpr ⟨task, isLater, member⟩
          rcases thins.kept_or_covered occurrence isItem with here | ⟨known, isKnown, covers⟩
          · exact ⟨occurrence, List.mem_append_right _ here, .inl rfl⟩
          · exact ⟨known, List.mem_append.mpr isKnown, .inr covers⟩
      · exact Occurrences.distinct_foldl_addDistinct (distinct first List.mem_cons_self) _

end Task

namespace Environment

variable {environment : Environment} {policy : NamePolicy} {task : Task} {type : TypeDefinition}
  {variants : List (Variant Occurrences)} {shared : List Occurrences} {path : Path}

/-! ## Composite fields of variants -/

/-- The fields of variants whose values are composite, variant by variant. -/
def composites (environment : Environment) (variants : List (Variant Occurrences)) :
    List Occurrences :=
  variants.flatMap (fun variant => variant.fields.filter
    (fun field => environment.valueOf? field.namedType = some .composite))

/-- Two variants have composite fields of one response name that are different fields of the schema
or that have different named types. -/
def ConflictingVariants (environment : Environment) (variants : List (Variant Occurrences)) :
    Prop :=
  ∃ left ∈ variants, ∃ right ∈ variants, left.typeName ≠ right.typeName ∧
    ∃ first ∈ left.fields, ∃ second ∈ right.fields,
      environment.valueOf? first.namedType = some .composite ∧
      environment.valueOf? second.namedType = some .composite ∧
      first.responseName = second.responseName ∧
      (first.first.definition.name ≠ second.first.definition.name ∨
        first.namedType ≠ second.namedType)

instance (environment : Environment) (variants : List (Variant Occurrences)) :
    Decidable (environment.ConflictingVariants variants) :=
  inferInstanceAs (Decidable (∃ _ ∈ _, _))

/-- Every field of the variants and every shared field has a type that fields can have. -/
structure SelectsOutputs (environment : Environment) (variants : List (Variant Occurrences))
    (shared : List Occurrences) : Prop where
  own : ∀ variant ∈ variants, ∀ field ∈ variant.fields,
    (environment.valueOf? field.namedType).isSome = true
  onType : ∀ field ∈ shared, (environment.valueOf? field.namedType).isSome = true

/-- The task stands for the fields at the response name below the path: it has their occurrences, up
to equality of nodes, and none of them twice. -/
structure Unites (child : Task) (path : Path) (responseName : String)
    (fields : List Occurrences) : Prop where
  path : child.path = path.child responseName
  named : child.occurrences.responseName = responseName
  origin : ∀ occurrence ∈ child.occurrences.toList, ∃ field ∈ fields, occurrence ∈ field.toList
  kept : ∀ field ∈ fields, ∀ occurrence ∈ field.toList,
    ∃ known ∈ child.occurrences.toList, known = occurrence ∨
      known.node.equals occurrence.node = true
  distinct : child.occurrences.Distinct

theorem mem_composites {field : Occurrences} :
    field ∈ environment.composites variants ↔
      ∃ variant ∈ variants, field ∈ variant.fields ∧
        environment.valueOf? field.namedType = some .composite := by
  simp [composites]

/-- Planned fields leave the tasks of the composite ones. -/
theorem tasks_of_plansFields {fields : List PlannedField} {groups : List Occurrences}
    (plans : List.Forall₂ environment.PlansField groups fields) :
    PlannedField.tasks fields =
      (groups.filter (fun field =>
        environment.valueOf? field.namedType = some .composite)).map Task.ofOccurrences := by
  induction plans with
  | nil => rfl
  | @cons occurrences field _ _ here _ ih =>
      rw [PlannedField.tasks] at ih ⊢
      rw [List.filterMap_cons, List.filter_cons, here.value]
      cases value : field.value with
      | composite => simp [PlannedField.task?, value, here.same, ih]
      | scalar | enum => simp [PlannedField.task?, value, ih]

/-- Planned variants leave the tasks of the composite fields. -/
theorem tasks_of_plansVariants {planned : List (Variant PlannedField)}
    (plans : List.Forall₂ environment.PlansVariant variants planned) :
    Variant.tasks planned = (environment.composites variants).map Task.ofOccurrences := by
  induction plans with
  | nil => rfl
  | cons here _ ih =>
      rw [Variant.tasks, composites] at ih ⊢
      rw [List.flatMap_cons, ih, List.flatMap_cons, List.map_append,
        tasks_of_plansFields here.fields]

/-! ## Variants that were collected -/

/-- What is known of variants that were collected at a path. -/
structure CollectedAt (path : Path) (variants : List (Variant Occurrences)) : Prop where
  typeNames : (variants.map Variant.typeName).Nodup
  names : ∀ variant ∈ variants, (variant.fields.map Occurrences.responseName).Nodup
  placed : ∀ variant ∈ variants, ∀ field ∈ variant.fields,
    field.path = path.child field.responseName
  distinct : ∀ variant ∈ variants, ∀ field ∈ variant.fields, field.Distinct

theorem collectedAt_of_collectVariants
    (collected : environment.collectVariants type task = .ok variants) :
    CollectedAt task.path variants := by
  obtain ⟨found, collects, _, rfl⟩ := collectVariants_eq_ok_iff.mp collected
  have groups : ∀ variant ∈ Variant.joined found.flatten,
      variant.fields = Occurrences.groups (Variant.fieldsOf found.flatten variant.typeName) :=
    fun variant => Variant.fields_of_mem_joined
  constructor
  case typeNames =>
    rw [Variant.map_typeName_joined]
    exact OrderedSet.nodup_ofList _
  case names =>
    intro variant isVariant
    rw [groups variant isVariant, Occurrences.map_responseName_groups]
    exact OrderedSet.nodup_ofList _
  case placed =>
    intro variant isVariant field isField
    rw [groups variant isVariant] at isField
    have first := (Occurrences.of_mem_groups isField field.first List.mem_cons_self).1
    obtain ⟨_, _, _, _, _, fields, selected, here⟩ := Collects.exists_of_mem collects first
    rw [Occurrences.path, SelectedField.path, setPath_of_collectFor selected _ here]
    rfl
  case distinct =>
    intro variant isVariant field isField
    rw [groups variant isVariant] at isField
    exact Occurrences.distinct_of_mem_groups isField

namespace CollectedAt

/-- A composite field of a variant lies below the path of the variants. -/
theorem path_of_mem (collected : CollectedAt path variants) {field : Occurrences}
    (member : field ∈ environment.composites variants) :
    (Task.ofOccurrences field).path = path.child field.responseName := by
  obtain ⟨variant, isVariant, isField, _⟩ := mem_composites.mp member
  exact collected.placed variant isVariant field isField

/-- **The tasks of the variants can be joined unless two variants are in conflict.** -/
theorem compatible_iff (collected : CollectedAt path variants) :
    Task.Compatible ((environment.composites variants).map Task.ofOccurrences) ↔
      ¬ environment.ConflictingVariants variants := by
  constructor
  · rintro compatible ⟨left, isLeft, right, isRight, _, first, isFirst, second, isSecond,
      firstComposite, secondComposite, same, differ⟩
    have inFirst : first ∈ environment.composites variants :=
      mem_composites.mpr ⟨left, isLeft, isFirst, firstComposite⟩
    have inSecond : second ∈ environment.composites variants :=
      mem_composites.mpr ⟨right, isRight, isSecond, secondComposite⟩
    have samePath : (Task.ofOccurrences first).path = (Task.ofOccurrences second).path := by
      rw [collected.path_of_mem inFirst, collected.path_of_mem inSecond, same]
    obtain ⟨sameName, sameType⟩ := compatible _ (List.mem_map_of_mem inFirst) _
      (List.mem_map_of_mem inSecond) samePath
    rcases differ with otherName | otherType
    · exact otherName sameName
    · exact otherType sameType
  · intro none left isLeft right isRight samePath
    obtain ⟨first, inFirst, rfl⟩ := List.mem_map.mp isLeft
    obtain ⟨second, inSecond, rfl⟩ := List.mem_map.mp isRight
    rw [collected.path_of_mem inFirst, collected.path_of_mem inSecond] at samePath
    have same := (Path.child_inj.mp samePath).2
    by_contra differ
    rw [not_and_or] at differ
    obtain ⟨one, isOne, firstField, firstComposite⟩ := mem_composites.mp inFirst
    obtain ⟨two, isTwo, secondField, secondComposite⟩ := mem_composites.mp inSecond
    -- Fields of one variant have different response names.
    have apart : one.typeName ≠ two.typeName := by
      intro sameVariant
      obtain rfl := List.inj_on_of_nodup_map collected.typeNames isOne isTwo sameVariant
      obtain rfl :=
        List.inj_on_of_nodup_map (collected.names one isOne) firstField secondField same
      rcases differ with otherName | otherType
      · exact otherName rfl
      · exact otherType rfl
    exact none ⟨one, isOne, two, isTwo, apart, first, firstField, second, secondField,
      firstComposite, secondComposite, same, differ⟩

theorem distinct_of_mem (collected : CollectedAt path variants) {field : Occurrences}
    (member : field ∈ environment.composites variants) : field.Distinct := by
  obtain ⟨variant, isVariant, isField, _⟩ := mem_composites.mp member
  exact collected.distinct variant isVariant field isField

/-- The tasks at a position are those of the fields of its response name. -/
theorem filter_path_composites (collected : CollectedAt path variants) (responseName : String) :
    ((environment.composites variants).map Task.ofOccurrences).filter
        (fun task => task.path = path.child responseName) =
      ((environment.composites variants).filter (fun field =>
        field.responseName = responseName)).map Task.ofOccurrences := by
  rw [List.filter_map]
  refine congrArg _ (List.filter_congr fun field isField => ?_)
  rw [Function.comp_apply, collected.path_of_mem isField]
  simp [Path.child_inj]

/-- **Each task of the variants unites the composite fields of one response name.** -/
theorem unites_of_mem_resolve (collected : CollectedAt path variants) {child : Task}
    (isChild : child ∈
      Task.resolve ((environment.composites variants).map Task.ofOccurrences) []) :
    Unites child path child.occurrences.responseName
      ((environment.composites variants).filter (fun field =>
        field.responseName = child.occurrences.responseName)) := by
  obtain ⟨place, isPlace, found⟩ := Task.mem_resolve.mp isChild
  rw [Task.atPath?, List.find?_nil, Option.or_none] at found
  obtain ⟨first, isFirst, samePath, sameFirst⟩ := Task.path_of_joined? found
  obtain ⟨inOwn, atPlace⟩ := List.mem_filter.mp isFirst
  obtain ⟨field, isField, rfl⟩ := List.mem_map.mp inOwn
  have named : field.responseName = child.occurrences.responseName :=
    (congrArg SelectedField.responseName sameFirst).symm
  have located : (Task.ofOccurrences field).path = path.child child.occurrences.responseName := by
    rw [collected.path_of_mem isField, named]
  rw [← of_decide_eq_true atPlace, located, collected.filter_path_composites] at found
  have distinct : ∀ task ∈ ((environment.composites variants).filter (fun field =>
      field.responseName = child.occurrences.responseName)).map Task.ofOccurrences,
      task.occurrences.Distinct := by
    intro task isTask
    obtain ⟨other, isOther, rfl⟩ := List.mem_map.mp isTask
    exact collected.distinct_of_mem (List.mem_filter.mp isOther).1
  obtain ⟨origin, kept, different⟩ := Task.unites_of_joined? found distinct
  refine ⟨samePath.trans located, rfl, ?_, ?_, different⟩
  · intro occurrence member
    obtain ⟨task, isTask, here⟩ := origin occurrence member
    obtain ⟨other, isOther, rfl⟩ := List.mem_map.mp isTask
    exact ⟨other, isOther, here⟩
  · intro other isOther occurrence member
    exact kept _ (List.mem_map_of_mem isOther) occurrence member

/-- **The tasks of variants come in the order in which the response names come first.** -/
theorem map_responseName_resolve (collected : CollectedAt path variants) :
    (Task.resolve ((environment.composites variants).map Task.ofOccurrences) []).map
        (fun child => child.occurrences.responseName) =
      OrderedSet.ofList ((environment.composites variants).map Occurrences.responseName) := by
  have injective : Function.Injective path.child := fun _ _ same => (Path.child_inj.mp same).2
  apply List.map_injective_iff.mpr injective
  calc ((Task.resolve ((environment.composites variants).map Task.ofOccurrences) []).map
        (fun child => child.occurrences.responseName)).map path.child
      = (Task.resolve ((environment.composites variants).map Task.ofOccurrences) []).map
          Task.path := by
        rw [List.map_map]
        apply List.map_congr_left
        intro child isChild
        exact (collected.unites_of_mem_resolve isChild).path.symm
    _ = OrderedSet.ofList
          (((environment.composites variants).map Task.ofOccurrences).map Task.path) := by
        rw [Task.map_path_resolve, List.append_nil]
    _ = OrderedSet.ofList
          (((environment.composites variants).map Occurrences.responseName).map path.child) := by
        rw [List.map_map, List.map_map]
        refine congrArg _ (List.map_congr_left fun field isField => ?_)
        exact collected.path_of_mem isField
    _ = (OrderedSet.ofList
          ((environment.composites variants).map Occurrences.responseName)).map path.child :=
        OrderedSet.ofList_map injective _

end CollectedAt

/-! ## Planning the position -/

/-- Fields of output types can be planned. -/
theorem exists_planFields {fields : List Occurrences}
    (outputs : ∀ field ∈ fields, (environment.valueOf? field.namedType).isSome = true) :
    ∃ planned, environment.planFields fields = .ok planned := by
  simp only [planFields_eq_ok_iff]
  apply exists_forall₂_iff.mpr
  intro field member
  obtain ⟨value, known⟩ := Option.isSome_iff_exists.mp (outputs field member)
  exact ⟨⟨field, value⟩, rfl, known⟩

theorem failsWith_planField_of_output {causes : AnalysisError → Prop} {field : Occurrences}
    (output : (environment.valueOf? field.namedType).isSome = true) :
    FailsWith causes (environment.planField field) := by
  obtain ⟨value, known⟩ := Option.isSome_iff_exists.mp output
  rw [planField, fieldValue_eq_ok_iff.mpr known]
  exact failsWith_ok (⟨field, value⟩ : PlannedField)

/-- Tasks fail to be joined for a conflict only. -/
theorem failsWith_joinAll_conflict (tasks : TaskMap) (found : List Task) :
    FailsWith AnalysisError.IsMergeConflict (tasks.joinAll found) := by
  refine failsWith_foldlM (fun tasks task => failsWith_update fun present => ?_) found tasks
  cases present with
  | none => exact failsWith_ok task
  | some known =>
      refine FailsWith.bind ?_ fun _ _ => failsWith_ok _
      rw [Occurrences.absorb]
      split
      · exact failsWith_error ⟨_, _, _, _, _, rfl⟩
      · exact failsWith_ok _

section Position

variable (known : environment.schema.type? task.namedType = some type)
  (isAbstract : type.kind = .interface ∨ type.kind = .union)
  (collected : environment.collectVariants type task = .ok variants)

include known isAbstract collected

/-- A position that is planned has no conflicts. -/
theorem compatible_of_plan {plan : Plan} (planned : environment.plan task = .ok plan) :
    Task.Compatible ((environment.composites variants).map Task.ofOccurrences) := by
  have sameType : ∀ {other : TypeDefinition},
      environment.schema.type? task.namedType = some other → other = type :=
    fun found => Option.some.inj (found.symm.trans known)
  cases plan_eq_ok_iff.mp planned with
  | leaf found _ kind =>
      obtain rfl := sameType found
      rcases isAbstract with abstract | abstract <;> simp [abstract] at kind
  | object found _ kind _ =>
      obtain rfl := sameType found
      rcases isAbstract with abstract | abstract <;> simp [abstract] at kind
  | interface found there _ parts | union found there _ parts =>
      obtain rfl := sameType found
      obtain rfl := Except.ok.inj (there.symm.trans collected)
      exact tasks_of_plansVariants parts.own ▸ parts.compatible

variable (collectedShared : environment.collectShared type task = .ok shared)
  (outputs : environment.SelectsOutputs variants shared)

include collectedShared outputs

/-- **A position of output types fails to be planned for a conflict only.** -/
theorem failsWith_plan_conflict :
    FailsWith AnalysisError.IsMergeConflict (environment.plan task) := by
  have output : type.kind ≠ .inputObject := by
    rintro input
    simp [input] at isAbstract
  refine failsWith_plan_of_known known output (collected ▸ failsWith_ok _) ?_ fun _ =>
    ⟨failsWith_joinAll_conflict, collectedShared ▸ failsWith_ok _, ?_⟩
  · intro found same variant isVariant field isField
    obtain rfl := Except.ok.inj (collected.symm.trans same)
    exact failsWith_planField_of_output (outputs.own variant isVariant field isField)
  · intro groups same field isField
    obtain rfl := Except.ok.inj (collectedShared.symm.trans same)
    exact failsWith_planField_of_output (outputs.onType field isField)

/-- Without conflicts the position is planned, with the tasks of composite fields. -/
theorem exists_plan_of_compatible
    (compatible : Task.Compatible ((environment.composites variants).map Task.ofOccurrences)) :
    ∃ plan, environment.plan task = .ok plan ∧
      plan.tasks = Task.resolve ((environment.composites variants).map Task.ofOccurrences)
        ((shared.filter (fun field =>
          environment.valueOf? field.namedType = some .composite)).map Task.ofOccurrences) := by
  have each : ∀ variant ∈ variants, ∃ planned, environment.PlansVariant variant planned := by
    intro variant isVariant
    obtain ⟨fields, planned⟩ := exists_planFields (outputs.own variant isVariant)
    exact ⟨⟨variant.typeName, fields⟩, rfl, planFields_eq_ok_iff.mp planned⟩
  obtain ⟨planned, plans⟩ := exists_forall₂_iff.mpr each
  obtain ⟨fields, plannedShared⟩ := exists_planFields outputs.onType
  have plansShared := planFields_eq_ok_iff.mp plannedShared
  have abstract : environment.PlansAbstract type task variants planned fields
      (Task.resolve (Variant.tasks planned) (PlannedField.tasks fields)) :=
    ⟨plans, tasks_of_plansVariants plans ▸ compatible, ⟨shared, collectedShared, plansShared⟩, rfl⟩
  rw [tasks_of_plansVariants plans, tasks_of_plansFields plansShared] at abstract
  rcases isAbstract with kind | kind
  · exact ⟨_, plan_eq_ok_iff.mpr (.interface known collected kind abstract), rfl⟩
  · exact ⟨_, plan_eq_ok_iff.mpr (.union known collected kind abstract), rfl⟩

end Position

/-! ## The step -/

/-- The tasks that a step leaves come from the variants, or else from shared fields. Those of the
variants unite the composite fields of one response name each, in the order in which the names come
first; those of shared fields are at other positions. -/
structure LeavesUnited (environment : Environment) (path : Path)
    (variants : List (Variant Occurrences)) (shared : List Occurrences) (own missing : List Task) :
    Prop where
  names : own.map (fun child => child.occurrences.responseName) =
    OrderedSet.ofList ((environment.composites variants).map Occurrences.responseName)
  unites : ∀ child ∈ own, Unites child path child.occurrences.responseName
    ((environment.composites variants).filter (fun field =>
      field.responseName = child.occurrences.responseName))
  missing : ∀ child ∈ missing, child.path ∉ own.map Task.path ∧
    ∃ field ∈ shared, environment.valueOf? field.namedType = some .composite ∧
      child = Task.ofOccurrences field

/-- **Tasks of a position are those that its variants unite, and those that are missing then.** -/
theorem CollectedAt.exists_leavesUnited (collected : CollectedAt path variants)
    (shared : List Occurrences) :
    ∃ own missing, environment.LeavesUnited path variants shared own missing ∧
      Task.resolve ((environment.composites variants).map Task.ofOccurrences)
        ((shared.filter (fun field =>
          environment.valueOf? field.namedType = some .composite)).map Task.ofOccurrences) =
            own ++ missing := by
  obtain ⟨missing, split, later⟩ := Task.exists_resolve_append
    ((environment.composites variants).map Task.ofOccurrences)
    ((shared.filter (fun field =>
      environment.valueOf? field.namedType = some .composite)).map Task.ofOccurrences)
  refine ⟨_, missing, ?_, split⟩
  constructor
  case names => exact collected.map_responseName_resolve
  case unites =>
    intro child isChild
    exact collected.unites_of_mem_resolve isChild
  case missing =>
    intro child isChild
    obtain ⟨isShared, elsewhere⟩ := later child isChild
    obtain ⟨field, isField, rfl⟩ := List.mem_map.mp isShared
    obtain ⟨inShared, composite⟩ := List.mem_filter.mp isField
    refine ⟨?_, field, inShared, of_decide_eq_true composite, rfl⟩
    rw [Task.map_path_resolve, List.append_nil, OrderedSet.mem_ofList]
    exact elsewhere

variable (policy) in
/-- **Conflicts between exclusive variants are detected exactly.** On a catalog that came of any
uses, at a position without models, a step at an interface or a union fails for a conflict exactly
when two variants are in conflict. Otherwise it succeeds, and the tasks that come from variants
have all occurrences of the composite fields of their response names, those of equal nodes once. -/
theorem conflict_iff_of_step (progress : Progress)
    (reachable : ∃ uses, progress.catalog = Catalog.empty.useAll uses)
    (given : ∀ key ∈ progress.catalog.models.keys, (progress.catalog.ownerOf? key).isSome = true)
    (vacant : progress.catalog.Vacant task.path)
    (known : environment.schema.type? task.namedType = some type)
    (isAbstract : type.kind = .interface ∨ type.kind = .union)
    (collected : environment.collectVariants type task = .ok variants)
    (collectedShared : environment.collectShared type task = .ok shared)
    (outputs : environment.SelectsOutputs variants shared) :
    ((∃ error, error.IsMergeConflict ∧ environment.step policy progress task = .error error) ↔
      environment.ConflictingVariants variants) ∧
    (¬ environment.ConflictingVariants variants → ∃ after own missing,
      environment.step policy progress task = .ok (after, own ++ missing) ∧
        environment.LeavesUnited task.path variants shared own missing) := by
  obtain ⟨uses, same⟩ := reachable
  have ready : ReadyAt progress task.path :=
    ⟨same ▸ Catalog.paired_empty.useAll uses,
      fun key member => Catalog.mem_given_iff.mpr (given key member), vacant⟩
  have located := collectedAt_of_collectVariants collected
  have succeeds : ¬ environment.ConflictingVariants variants → ∃ after own missing,
      environment.step policy progress task = .ok (after, own ++ missing) ∧
        environment.LeavesUnited task.path variants shared own missing := by
    intro none
    obtain ⟨plan, planned, tasks⟩ := exists_plan_of_compatible known isAbstract collected
      collectedShared outputs (located.compatible_iff.mpr none)
    obtain ⟨after, stepped⟩ := ready.exists_step policy planned
    obtain ⟨own, missing, leaves, split⟩ := located.exists_leavesUnited shared
    exact ⟨after, own, missing, split ▸ tasks ▸ stepped, leaves⟩
  refine ⟨⟨?_, fun conflicting => ?_⟩, succeeds⟩
  · rintro ⟨error, _, failed⟩
    by_contra none
    obtain ⟨after, own, missing, stepped, _⟩ := succeeds none
    rw [stepped] at failed
    cases failed
  · cases planned : environment.plan task with
    | ok plan =>
        have compatible := compatible_of_plan known isAbstract collected planned
        exact absurd conflicting (located.compatible_iff.mp compatible)
    | error error =>
        refine ⟨error, ?_, ready.step_eq_error_iff.mpr planned⟩
        exact failsWith_plan_conflict known isAbstract collected collectedShared outputs error
          planned

end Environment

/-! ## Owners of pets -/

namespace Sample

/-- Pets of which dogs are owned by persons and cats by dogs. -/
def rivalEnvironment : Environment where
  schema := ⟨[.type petType, .type (objectType "Dog" [declare "owner" "Person"]),
    .type (objectType "Cat" [declare "owner" "Dog"]), .type personType]⟩
  fragments := ⟨[catFragment]⟩

/-- The pet, whose owner is asked for on dogs and on cats. -/
def ownerTask : Task :=
  ⟨.single (select "Pet" "pet" petItems ⟨["Q"]⟩), ⟨["Q", "pet"]⟩⟩

/-- The moods have the name `Dog` and a model, the operation has a model too, and the pet has a name
and no model yet. -/
def ownerUses : List Catalog.Use :=
  [.name (.schemaType "Mood") "Dog" [], .model (.enum ⟨"Dog", none, "Mood", none, []⟩),
    .name (.operation "Q") "Q" [], .name (.field ⟨["Q", "pet"]⟩) "Dog" ["Dog1"],
    .model (.object ⟨"Q", none, "Query", []⟩)]

/-- What was built before the pet. -/
def ownerProgress : Progress :=
  ⟨Catalog.empty.useAll ownerUses, OrderedMap.ofList [(⟨["Q"]⟩, "Q")]⟩

theorem ownerProgress_allotments : ownerProgress.catalog.allotments =
    [⟨.schemaType "Mood", "Dog"⟩, ⟨.operation "Q", "Q"⟩, ⟨.field ⟨["Q", "pet"]⟩, "Dog2"⟩] := by
  decide +kernel

theorem vacant_ownerProgress : ownerProgress.catalog.Vacant ownerTask.path := by
  constructor
  · intro name named
    have given : ownerProgress.catalog.nameOf? (.field ownerTask.path) = some "Dog2" := by
      decide +kernel
    obtain rfl := Option.some.inj (given.symm.trans named)
    decide +kernel
  · intro typeName name named
    simp [Catalog.nameOf?, ownerProgress_allotments] at named

end Sample

namespace Environment

open Sample

/-- What the theorem asks of the selections at the pet, computed. -/
def selectsAtPet (environment : Environment) (conflicting : Bool) : Outcome Bool := do
  let variants ← environment.collectVariants petType ownerTask
  let shared ← environment.collectShared petType ownerTask
  return decide ((∀ variant ∈ variants, ∀ field ∈ variant.fields,
    (environment.valueOf? field.namedType).isSome = true) ∧
    (∀ field ∈ shared, (environment.valueOf? field.namedType).isSome = true) ∧
    decide (environment.ConflictingVariants variants) = conflicting ∧
    (environment.composites variants).map Occurrences.responseName = ["owner", "owner"])

/-- The owners conflict when dogs are owned by persons and cats by dogs, and are united when all are
owned by persons. -/
theorem conflict_of_owners :
    (∃ error, error.IsMergeConflict ∧
      rivalEnvironment.step ⟨[], []⟩ ownerProgress ownerTask = .error error) ∧
    ∃ after own missing,
      petEnvironment.step ⟨[], []⟩ ownerProgress ownerTask = .ok (after, own ++ missing) ∧
      own.map (fun child => child.occurrences.responseName) = ["owner"] := by
  have given : ∀ key ∈ ownerProgress.catalog.models.keys,
      (ownerProgress.catalog.ownerOf? key).isSome = true := by decide +kernel
  have selected : rivalEnvironment.selectsAtPet true = .ok true ∧
      petEnvironment.selectsAtPet false = .ok true := by decide +kernel
  have each : ∀ environment : Environment, ∀ conflicting,
      environment.selectsAtPet conflicting = .ok true → ∃ variants shared,
        environment.collectVariants petType ownerTask = .ok variants ∧
        environment.collectShared petType ownerTask = .ok shared ∧
        environment.SelectsOutputs variants shared ∧
        decide (environment.ConflictingVariants variants) = conflicting ∧
        (environment.composites variants).map Occurrences.responseName = ["owner", "owner"] := by
    intro environment conflicting selects
    obtain ⟨variants, collected, rest⟩ := bind_eq_ok_iff.mp selects
    obtain ⟨shared, collectedShared, same⟩ := bind_eq_ok_iff.mp rest
    obtain ⟨own, onType, last⟩ := of_decide_eq_true (Except.ok.inj same)
    exact ⟨variants, shared, collected, collectedShared, ⟨own, onType⟩, last⟩
  constructor
  · obtain ⟨variants, shared, collected, collectedShared, outputs, conflicting, _⟩ :=
      each rivalEnvironment true selected.1
    have step := conflict_iff_of_step ⟨[], []⟩ ownerProgress ⟨ownerUses, rfl⟩ given
      vacant_ownerProgress rfl (.inr rfl) collected collectedShared outputs
    exact step.1.mpr (of_decide_eq_true conflicting)
  · obtain ⟨variants, shared, collected, collectedShared, outputs, conflicting, names⟩ :=
      each petEnvironment false selected.2
    have step := conflict_iff_of_step ⟨[], []⟩ ownerProgress ⟨ownerUses, rfl⟩ given
      vacant_ownerProgress rfl (.inr rfl) collected collectedShared outputs
    obtain ⟨after, own, missing, stepped, leaves⟩ := step.2 (of_decide_eq_false conflicting)
    exact ⟨after, own, missing, stepped, leaves.names.trans (congrArg _ names)⟩

end Environment

end ResponseShape

import ResponseShape.Proofs.Children
import ResponseShape.Proofs.Inlining

/-!
# Plans of inlined selections

The occurrences of a task with inlined selections have repeated selections, so other occurrences are
dropped as equal than for the task as it is written. What the two tasks have left comes from
occurrences that correspond one to one (`FragmentTable.InlinesOccurrences`). The plans of two such
tasks have the same fields, with the same values and definitions, and leave tasks of that kind again
(`Environment.exists_plan_of_inlines`).
-/

set_option autoImplicit false

namespace ResponseShape

/-! ## Groups of occurrences -/

namespace FragmentTable

variable {table : FragmentTable}

namespace InlinesField

variable {field inlined : SelectedField}

theorem responseName_eq (inlines : table.InlinesField field inlined) :
    field.responseName = inlined.responseName :=
  congrArg FieldHead.responseName inlines.node.head

theorem namedType_eq (inlines : table.InlinesField field inlined) :
    field.namedType = inlined.namedType :=
  congrArg (fun definition => definition.type.namedType) inlines.definition

theorem path_eq (inlines : table.InlinesField field inlined) : field.path = inlined.path := by
  rw [SelectedField.path, SelectedField.path, inlines.setPath, inlines.responseName_eq]

end InlinesField

/-- The second occurrences have inlined nodes. Both are what is left of occurrences that correspond
one to one. -/
def InlinesOccurrences (table : FragmentTable) (occurrences inlined : Occurrences) : Prop :=
  RelatedUpTo table.InlinesField SelectedField.Covers occurrences.toList inlined.toList

theorem InlinesOccurrences.first {occurrences inlined : Occurrences}
    (inlines : table.InlinesOccurrences occurrences inlined) :
    table.InlinesField occurrences.first inlined.first := by
  rcases inlines.nil_or_cons with ⟨none, _⟩ | ⟨_, _, _, _, same, same', here⟩
  · cases none
  · obtain ⟨rfl, _⟩ := List.cons.inj same
    obtain ⟨rfl, _⟩ := List.cons.inj same'
    exact here

theorem inlinesOccurrences_single {field inlined : SelectedField}
    (inlines : table.InlinesField field inlined) :
    table.InlinesOccurrences (.single field) (.single inlined) :=
  .of_forall₂ (.cons inlines .nil)

variable {fields inlined : List SelectedField}

/-- Fields of one response name that correspond make occurrences that correspond. -/
theorem ofList?_of_inlines
    (inlines : RelatedUpTo table.InlinesField SelectedField.Covers fields inlined) :
    Option.Rel table.InlinesOccurrences (Occurrences.ofList? fields)
      (Occurrences.ofList? inlined) := by
  rcases inlines.nil_or_cons with ⟨rfl, rfl⟩ | ⟨first, rest, first', rest', rfl, rfl, here⟩
  · exact .none
  · exact .some (RelatedUpTo.thin (fun _ _ _ earlier later => earlier.trans later) inlines
      (Occurrences.thins_of_ofList? rfl) (Occurrences.thins_of_ofList? rfl))

/-- **Fields that correspond make groups that correspond.** -/
theorem groups_of_inlines
    (inlines : RelatedUpTo table.InlinesField SelectedField.Alike fields inlined) :
    List.Forall₂ table.InlinesOccurrences (Occurrences.groups fields)
      (Occurrences.groups inlined) := by
  have names : OrderedSet.ofList (fields.map SelectedField.responseName) =
      OrderedSet.ofList (inlined.map SelectedField.responseName) :=
    inlines.ofList_keys (fun _ _ here => here.responseName_eq) fun _ _ here => here.responseName_eq
  rw [Occurrences.groups, Occurrences.groups, OrderedMap.groupBy, OrderedMap.groupBy, names]
  refine List.rel_filterMap (R := Eq) ?_ (List.forall₂_same.mpr fun _ _ => rfl)
  rintro name _ rfl
  refine ofList?_of_inlines (RelatedUpTo.imp (fun _ _ alike => alike.node) (inlines.filter ?_ ?_))
  · exact fun field inlined here => by rw [here.responseName_eq]
  · exact fun first second alike => by rw [alike.responseName_eq]

theorem compatible_of_inlines
    (inlines : RelatedUpTo table.InlinesField SelectedField.Alike fields inlined)
    (compatible : SelectedField.Compatible inlined) : SelectedField.Compatible fields := by
  have partner : ∀ field ∈ fields, ∃ other ∈ inlined, other.responseName = field.responseName ∧
      other.definition = field.definition := by
    intro field member
    obtain ⟨other, here, isKept | ⟨known, isKept, alike⟩⟩ := inlines.exists_of_mem field member
    · exact ⟨other, isKept, here.responseName_eq.symm, here.definition.symm⟩
    · exact ⟨known, isKept, alike.responseName_eq.trans here.responseName_eq.symm,
        alike.definition.trans here.definition.symm⟩
  intro first isFirst second isSecond same
  obtain ⟨one, isOne, oneName, oneDefinition⟩ := partner first isFirst
  obtain ⟨two, isTwo, twoName, twoDefinition⟩ := partner second isSecond
  have agree := compatible one isOne two isTwo (oneName.trans (same.trans twoName.symm))
  rw [SelectedField.namedType, SelectedField.namedType, oneDefinition, twoDefinition] at agree
  exact agree

/-! ### Variants -/

variable {variants inlinedVariants : List (Variant SelectedField)}

theorem fieldsOf_of_inlines
    (inlines : RelatedUpTo (Variant.Related table.InlinesField)
      (Variant.Related SelectedField.Alike) variants inlinedVariants) (typeName : String) :
    RelatedUpTo table.InlinesField SelectedField.Alike (Variant.fieldsOf variants typeName)
      (Variant.fieldsOf inlinedVariants typeName) := by
  refine (inlines.filter ?_ ?_).flatMap (fun _ _ here => here.2) fun _ _ alike part member => ?_
  · exact fun variant inlined here => by rw [here.1]
  · exact fun first second alike => by rw [alike.1]
  · exact exists_left_of_mem alike.2 member

theorem joined_of_inlines
    (inlines : RelatedUpTo (Variant.Related table.InlinesField)
      (Variant.Related SelectedField.Alike) variants inlinedVariants) :
    List.Forall₂ (Variant.Related table.InlinesOccurrences) (Variant.joined variants)
      (Variant.joined inlinedVariants) := by
  have names : OrderedSet.ofList (variants.map Variant.typeName) =
      OrderedSet.ofList (inlinedVariants.map Variant.typeName) :=
    inlines.ofList_keys (fun _ _ here => here.1) fun _ _ alike => alike.1
  rw [Variant.joined, Variant.joined, names, List.forall₂_map_left_iff, List.forall₂_map_right_iff]
  refine List.forall₂_same.mpr fun typeName _ => ⟨rfl, ?_⟩
  exact groups_of_inlines (fieldsOf_of_inlines inlines typeName)

theorem variantsCompatible_of_inlines
    (inlines : RelatedUpTo (Variant.Related table.InlinesField)
      (Variant.Related SelectedField.Alike) variants inlinedVariants)
    (compatible : Variant.Compatible inlinedVariants) : Variant.Compatible variants :=
  fun typeName => compatible_of_inlines (fieldsOf_of_inlines inlines typeName) (compatible typeName)

/-- Lists that are related but for what is left out are so when they are put together. -/
theorem flatten_of_inlines {φ : Type} {related covers : φ → φ → Prop} {lists lists' : List (List φ)}
    (inlines : RelatedUpTo (List.Forall₂ related) (List.Forall₂ covers) lists lists') :
    RelatedUpTo related covers lists.flatten lists'.flatten := by
  rw [← List.flatMap_id, ← List.flatMap_id]
  exact inlines.flatMap (fun _ _ here => here) fun _ _ covered part member =>
    exists_left_of_mem covered member

/-! ### Tasks -/

/-- The second task has inlined occurrences, at the same path. -/
structure InlinesTask (table : FragmentTable) (task inlined : Task) : Prop where
  path : task.path = inlined.path
  occurrences : table.InlinesOccurrences task.occurrences inlined.occurrences

section Resolving

variable {tasks inlinedTasks shared inlinedShared : List Task}

theorem InlinesTask.namedType_eq {task inlined : Task} (inlines : table.InlinesTask task inlined) :
    task.namedType = inlined.namedType :=
  inlines.occurrences.first.namedType_eq

theorem tasksCompatible_of_inlines (inlines : List.Forall₂ table.InlinesTask tasks inlinedTasks)
    (compatible : Task.Compatible inlinedTasks) : Task.Compatible tasks := by
  intro first isFirst second isSecond same
  obtain ⟨one, isOne, oneInlines⟩ := exists_right_of_mem inlines isFirst
  obtain ⟨two, isTwo, twoInlines⟩ := exists_right_of_mem inlines isSecond
  have agree := compatible one isOne two isTwo
    (oneInlines.path.symm.trans (same.trans twoInlines.path))
  rw [oneInlines.namedType_eq, twoInlines.namedType_eq, oneInlines.occurrences.first.definition,
    twoInlines.occurrences.first.definition]
  exact agree

theorem joined?_of_inlines (inlines : List.Forall₂ table.InlinesTask tasks inlinedTasks) :
    Option.Rel table.InlinesTask (Task.joined? tasks) (Task.joined? inlinedTasks) := by
  cases inlines with
  | nil => exact .none
  | cons here later =>
      have all := RelatedUpTo.flatMap_of_forall₂
        ((List.Forall₂.cons here later).imp fun _ _ inlines => inlines.occurrences)
      exact .some ⟨here.path, RelatedUpTo.thin (fun _ _ _ earlier later => earlier.trans later) all
        (Task.thins_of_joined? rfl) (Task.thins_of_joined? rfl)⟩

/-- **Tasks that correspond are resolved to tasks that correspond.** -/
theorem resolve_of_inlines (own : List.Forall₂ table.InlinesTask tasks inlinedTasks)
    (onType : List.Forall₂ table.InlinesTask shared inlinedShared) :
    List.Forall₂ table.InlinesTask (Task.resolve tasks shared)
      (Task.resolve inlinedTasks inlinedShared) := by
  have paths : (tasks ++ shared).map Task.path = (inlinedTasks ++ inlinedShared).map Task.path :=
    forall₂_map_eq (fun _ _ here => InlinesTask.path here) (List.rel_append own onType)
  rw [Task.resolve, Task.resolve, paths]
  refine List.rel_filterMap (R := Eq) ?_ (List.forall₂_same.mpr fun _ _ => rfl)
  rintro path _ rfl
  refine rel_or (joined?_of_inlines (List.rel_filter (fun task inlined here => ?_) own))
    (rel_find? (fun task inlined here => ?_) onType)
  · simp [here.path]
  · rw [here.path]

end Resolving

/-! ### Planned fields -/

/-- The second planned field has inlined occurrences, and values of the same sort. -/
structure InlinesPlanned (table : FragmentTable) (field inlined : PlannedField) : Prop where
  value : field.value = inlined.value
  occurrences : table.InlinesOccurrences field.occurrences inlined.occurrences

theorem tasks_of_inlines {fields inlined : List PlannedField}
    (inlines : List.Forall₂ table.InlinesPlanned fields inlined) :
    List.Forall₂ table.InlinesTask (PlannedField.tasks fields) (PlannedField.tasks inlined) := by
  refine List.rel_filterMap (fun field inlined here => ?_) inlines
  rw [PlannedField.task?, PlannedField.task?, here.value]
  cases inlined.value with
  | scalar => exact .none
  | enum => exact .none
  | composite => exact .some ⟨here.occurrences.first.path_eq, here.occurrences⟩

theorem variantTasks_of_inlines {variants inlined : List (Variant PlannedField)}
    (inlines : List.Forall₂ (Variant.Related table.InlinesPlanned) variants inlined) :
    List.Forall₂ table.InlinesTask (Variant.tasks variants) (Variant.tasks inlined) :=
  List.rel_flatMap inlines fun _ _ here => tasks_of_inlines here.2

/-- The second plan is of the same kind and of the same type, and all its fields and tasks are
inlined. -/
inductive InlinesPlan (table : FragmentTable) : Plan → Plan → Prop where
  | leaf : InlinesPlan table .leaf .leaf
  | object {type : TypeDefinition} {fields inlined : List PlannedField} :
      List.Forall₂ table.InlinesPlanned fields inlined →
        InlinesPlan table (.object type fields) (.object type inlined)
  | interface {type : TypeDefinition} {variants inlinedVariants : List (Variant PlannedField)}
      {shared inlinedShared : List PlannedField} {tasks inlinedTasks : List Task} :
      List.Forall₂ (Variant.Related table.InlinesPlanned) variants inlinedVariants →
        List.Forall₂ table.InlinesPlanned shared inlinedShared →
        List.Forall₂ table.InlinesTask tasks inlinedTasks →
        InlinesPlan table (.interface type variants shared tasks)
          (.interface type inlinedVariants inlinedShared inlinedTasks)
  | union {type : TypeDefinition} {variants inlinedVariants : List (Variant PlannedField)}
      {shared inlinedShared : List PlannedField} {tasks inlinedTasks : List Task} :
      List.Forall₂ (Variant.Related table.InlinesPlanned) variants inlinedVariants →
        List.Forall₂ table.InlinesPlanned shared inlinedShared →
        List.Forall₂ table.InlinesTask tasks inlinedTasks →
        InlinesPlan table (.union type variants shared tasks)
          (.union type inlinedVariants inlinedShared inlinedTasks)

theorem InlinesPlan.tasks {plan inlined : Plan} (inlines : table.InlinesPlan plan inlined) :
    List.Forall₂ table.InlinesTask plan.tasks inlined.tasks := by
  cases inlines with
  | leaf => exact .nil
  | object fields => exact tasks_of_inlines fields
  | interface _ _ tasks => exact tasks
  | union _ _ tasks => exact tasks

end FragmentTable

/-! ## Planning -/

namespace Environment

open FragmentTable

variable {schema : Schema} {table flat : FragmentTable} {type : TypeDefinition}
  {task inlinedTask : Task} {rank : String → Nat}

theorem exists_plansField {occurrences inlinedOccurrences : Occurrences} {inlined : PlannedField}
    (inlines : table.InlinesOccurrences occurrences inlinedOccurrences)
    (plans : (Environment.mk schema flat).PlansField inlinedOccurrences inlined) :
    ∃ field, (Environment.mk schema table).PlansField occurrences field ∧
      table.InlinesPlanned field inlined := by
  obtain ⟨rfl, value⟩ := plans
  refine ⟨⟨occurrences, inlined.value⟩, ⟨rfl, ?_⟩, rfl, inlines⟩
  rw [Occurrences.namedType, inlines.first.namedType_eq]
  exact value

/-- Groups that correspond are planned as fields that correspond. -/
theorem exists_plansFields {groups inlinedGroups : List Occurrences} {inlined : List PlannedField}
    (inlines : List.Forall₂ table.InlinesOccurrences groups inlinedGroups)
    (plans : List.Forall₂ (Environment.mk schema flat).PlansField inlinedGroups inlined) :
    ∃ fields, List.Forall₂ (Environment.mk schema table).PlansField groups fields ∧
      List.Forall₂ table.InlinesPlanned fields inlined := by
  have both : List.Forall₂ (fun inlined occurrences => ∃ inlinedOccurrences,
      table.InlinesOccurrences occurrences inlinedOccurrences ∧
        (Environment.mk schema flat).PlansField inlinedOccurrences inlined) inlined groups :=
    forall₂_trans (fun _ middle _ here there => ⟨middle, there, here⟩) plans.flip inlines.flip
  obtain ⟨fields, planned, related⟩ := exists_forall₂
    (fun _ _ ⟨_, here, there⟩ => exists_plansField here there) both
  exact ⟨fields, planned, related.flip⟩

theorem exists_plansVariants {variants inlinedVariants : List (Variant Occurrences)}
    {inlined : List (Variant PlannedField)}
    (inlines : List.Forall₂ (Variant.Related table.InlinesOccurrences) variants inlinedVariants)
    (plans : List.Forall₂ (Environment.mk schema flat).PlansVariant inlinedVariants inlined) :
    ∃ planned, List.Forall₂ (Environment.mk schema table).PlansVariant variants planned ∧
      List.Forall₂ (Variant.Related table.InlinesPlanned) planned inlined := by
  have both : List.Forall₂ (fun inlined variant => ∃ inlinedVariant,
      Variant.Related table.InlinesOccurrences variant inlinedVariant ∧
        (Environment.mk schema flat).PlansVariant inlinedVariant inlined) inlined variants :=
    forall₂_trans (fun _ middle _ here there => ⟨middle, there, here⟩) plans.flip inlines.flip
  obtain ⟨planned, plansVariants, related⟩ := exists_forall₂
    (S := fun variant planned => (Environment.mk schema table).PlansVariant variant planned)
    (T := fun inlined planned => Variant.Related table.InlinesPlanned planned inlined)
    (fun inlined variant ⟨inlinedVariant, here, there⟩ => by
      obtain ⟨fields, plansFields, related⟩ := exists_plansFields here.2 there.fields
      exact ⟨⟨variant.typeName, fields⟩, ⟨rfl, plansFields⟩, here.1.trans there.typeName.symm,
        related⟩) both
  exact ⟨planned, plansVariants, related.flip⟩

/-- **What the occurrences of a task select corresponds to what inlined occurrences select.** -/
theorem exists_collectVariants (ranked : table.Ranked rank) (closed : table.Closed)
    (inlines : table.InlinesTask task inlinedTask) {inlined : List (Variant Occurrences)}
    (collected : (Environment.mk schema flat).collectVariants type inlinedTask = .ok inlined) :
    ∃ variants, (Environment.mk schema table).collectVariants type task = .ok variants ∧
      List.Forall₂ (Variant.Related table.InlinesOccurrences) variants inlined := by
  obtain ⟨inlinedFound, collects, compatible, rfl⟩ := collectVariants_eq_ok_iff.mp collected
  rw [← inlines.path] at collects
  have transfer : ∀ (fragments : FragmentTable) (known item : SelectedField)
      (found : List (Variant SelectedField)), known.Covers item →
      (Environment.mk schema fragments).collect type known.node.items task.path = .ok found →
      ∃ found', (Environment.mk schema fragments).collect type item.node.items task.path =
        .ok found' ∧ List.Forall₂ (Variant.Related SelectedField.Alike) found found' :=
    fun _ _ _ _ covers here => collect_of_alike covers.items here
  have simulate : ∀ (item inlined : SelectedField) (found : List (Variant SelectedField)),
      table.InlinesField item inlined →
      (Environment.mk schema flat).collect type inlined.node.items task.path = .ok found →
      ∃ found', (Environment.mk schema table).collect type item.node.items task.path = .ok found' ∧
        List.Forall₂ (Variant.Related table.InlinesField) found' found :=
    fun _ _ _ here there => collect_of_inlines ranked closed here.node.items there
  obtain ⟨found, collects', relates⟩ := RelatedUpTo.exists_results (transfer table) (transfer flat)
    (fun _ _ _ here there => Except.ok.inj (here.symm.trans there)) simulate inlines.occurrences
    collects
  have flat := flatten_of_inlines relates
  exact ⟨_, collectVariants_eq_ok_iff.mpr
    ⟨found, collects', variantsCompatible_of_inlines flat compatible, rfl⟩, joined_of_inlines flat⟩

/-- What occurrences select on the type itself corresponds in the same way. -/
theorem exists_collectShared (ranked : table.Ranked rank) (closed : table.Closed)
    (inlines : table.InlinesTask task inlinedTask) {inlined : List Occurrences}
    (collected : (Environment.mk schema flat).collectShared type inlinedTask = .ok inlined) :
    ∃ groups, (Environment.mk schema table).collectShared type task = .ok groups ∧
      List.Forall₂ table.InlinesOccurrences groups inlined := by
  obtain ⟨inlinedFound, collects, compatible, rfl⟩ := collectShared_eq_ok_iff.mp collected
  rw [← inlines.path] at collects
  have transfer : ∀ (fragments : FragmentTable) (known item : SelectedField)
      (found : List SelectedField), known.Covers item →
      (Environment.mk schema fragments).collectOn type known.node.items task.path = .ok found →
      ∃ found', (Environment.mk schema fragments).collectOn type item.node.items task.path =
        .ok found' ∧ List.Forall₂ SelectedField.Alike found found' :=
    fun _ _ _ _ covers here => collectFor_of_alike covers.items here
  have simulate : ∀ (item inlined : SelectedField) (found : List SelectedField),
      table.InlinesField item inlined →
      (Environment.mk schema flat).collectOn type inlined.node.items task.path = .ok found →
      ∃ found', (Environment.mk schema table).collectOn type item.node.items task.path =
        .ok found' ∧ List.Forall₂ table.InlinesField found' found :=
    fun _ _ _ here there => collectFor_of_inlines ranked closed here.node.items there
  obtain ⟨found, collects', relates⟩ := RelatedUpTo.exists_results (transfer table) (transfer flat)
    (fun _ _ _ here there => Except.ok.inj (here.symm.trans there)) simulate inlines.occurrences
    collects
  have flat := flatten_of_inlines relates
  exact ⟨_, collectShared_eq_ok_iff.mpr ⟨found, collects', compatible_of_inlines flat compatible,
    rfl⟩, groups_of_inlines flat⟩

theorem firstFields_of_inlines {φ : Type} {related : φ → φ → Prop}
    {variants inlined : List (Variant φ)}
    (inlines : List.Forall₂ (Variant.Related related) variants inlined) :
    List.Forall₂ related (firstFields variants) (firstFields inlined) := by
  cases inlines with
  | nil => exact .nil
  | cons first _ => exact first.2

theorem exists_plansAbstract (ranked : table.Ranked rank) (closed : table.Closed)
    (inlines : table.InlinesTask task inlinedTask)
    {variants inlinedVariants : List (Variant Occurrences)}
    (variantsInline : List.Forall₂ (Variant.Related table.InlinesOccurrences) variants
      inlinedVariants)
    {inlined : List (Variant PlannedField)} {inlinedShared : List PlannedField}
    {inlinedTasks : List Task}
    (plans : (Environment.mk schema flat).PlansAbstract type inlinedTask inlinedVariants inlined
      inlinedShared inlinedTasks) :
    ∃ planned shared tasks,
      (Environment.mk schema table).PlansAbstract type task variants planned shared tasks ∧
        List.Forall₂ (Variant.Related table.InlinesPlanned) planned inlined ∧
        List.Forall₂ table.InlinesPlanned shared inlinedShared ∧
        List.Forall₂ table.InlinesTask tasks inlinedTasks := by
  obtain ⟨inlinedGroups, collected, plansShared⟩ := plans.onType
  obtain ⟨groups, collected', groupsInline⟩ := exists_collectShared ranked closed inlines collected
  obtain ⟨shared, plansShared', sharedInline⟩ := exists_plansFields groupsInline plansShared
  obtain ⟨planned, plansVariants, variantsInline⟩ := exists_plansVariants variantsInline plans.own
  have tasks := variantTasks_of_inlines variantsInline
  refine ⟨planned, shared, _, ⟨plansVariants, ?_, ⟨groups, collected', plansShared'⟩, rfl⟩,
    variantsInline, sharedInline, ?_⟩
  · exact tasksCompatible_of_inlines tasks plans.compatible
  · rw [plans.resolved]
    exact resolve_of_inlines tasks (tasks_of_inlines sharedInline)

/-- **A task has the plan of the task with inlined occurrences, but for inlining.** -/
theorem exists_plan_of_inlines (ranked : table.Ranked rank) (closed : table.Closed)
    (inlines : table.InlinesTask task inlinedTask) {inlined : Plan}
    (plans : (Environment.mk schema flat).Plans inlinedTask inlined) :
    ∃ plan, (Environment.mk schema table).Plans task plan ∧ table.InlinesPlan plan inlined := by
  have sameType := inlines.namedType_eq
  cases plans with
  | leaf known collected kind =>
      obtain ⟨variants, collected', _⟩ := exists_collectVariants ranked closed inlines collected
      exact ⟨.leaf, .leaf (sameType ▸ known) collected' kind, .leaf⟩
  | object known collected kind fields =>
      obtain ⟨variants, collected', variantsInline⟩ :=
        exists_collectVariants ranked closed inlines collected
      obtain ⟨planned, plansFields, fieldsInline⟩ :=
        exists_plansFields (firstFields_of_inlines variantsInline) fields
      exact ⟨_, .object (sameType ▸ known) collected' kind plansFields, .object fieldsInline⟩
  | interface known collected kind parts =>
      obtain ⟨variants, collected', variantsInline⟩ :=
        exists_collectVariants ranked closed inlines collected
      obtain ⟨planned, shared, tasks, plans, own, onType, left⟩ :=
        exists_plansAbstract ranked closed inlines variantsInline parts
      exact ⟨_, .interface (sameType ▸ known) collected' kind plans, .interface own onType left⟩
  | union known collected kind parts =>
      obtain ⟨variants, collected', variantsInline⟩ :=
        exists_collectVariants ranked closed inlines collected
      obtain ⟨planned, shared, tasks, plans, own, onType, left⟩ :=
        exists_plansAbstract ranked closed inlines variantsInline parts
      exact ⟨_, .union (sameType ▸ known) collected' kind plans, .union own onType left⟩

end Environment

end ResponseShape

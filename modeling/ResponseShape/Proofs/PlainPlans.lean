import ResponseShape.Proofs.Joining
import ResponseShape.Proofs.PlainForm

/-!
# Plans in plain form

The selections of one position are told by the first of them and by the plain forms of their nodes,
each at its first place (`Occurrences.plain`). That a selection is dropped when its node equals one
that is there does not show in that form, and neither does one that comes again
(`OccurrenceGroups.absorbs_meet`). So tasks of one plain form are planned alike, or cannot be
planned for one reason, in environments whose fragments have one plain form
(`Environment.agree_plan`).
-/

set_option autoImplicit false

namespace ResponseShape

open Outcome

namespace OrderedSet

variable {α : Type} [DecidableEq α]

theorem addAll_concat (members added : List α) (last : α) :
    addAll members (added ++ [last]) = add (addAll members added) last :=
  addAll_append members added [last]

theorem ofList_cons (first : α) (rest : List α) : ofList (first :: rest) = addAll [first] rest := by
  change addAll (add [] first) rest = _
  rw [add_of_notMem List.not_mem_nil]
  rfl

/-- What is added comes behind what is there. -/
theorem exists_addAll_eq_append (members added : List α) :
    ∃ new, addAll members added = members ++ new := by
  induction added using List.reverseRecOn with
  | nil => exact ⟨[], (List.append_nil members).symm⟩
  | append_singleton added last ih =>
      obtain ⟨new, same⟩ := ih
      rw [addAll_concat, same, add]
      split
      · exact ⟨new, rfl⟩
      · exact ⟨new ++ [last], List.append_assoc _ _ _⟩

/-- Adding a list adds the set of its members. -/
theorem addAll_ofList (members added : List α) :
    addAll members (ofList added) = addAll members added := by
  induction added using List.reverseRecOn with
  | nil => rfl
  | append_singleton added last ih =>
      have after : ofList (added ++ [last]) = add (ofList added) last := addAll_concat [] added last
      rw [after, addAll_concat]
      by_cases known : last ∈ ofList added
      · rw [add_of_mem known, ih, add_of_mem]
        exact mem_addAll.mpr (.inr (mem_ofList.mp known))
      · rw [add_of_notMem known, addAll_concat, ih]

end OrderedSet

/-! ## Selections of one position -/

/-- Nodes can be told apart. -/
noncomputable instance FieldNode.decidableEq : DecidableEq FieldNode :=
  Classical.decEq FieldNode

namespace Occurrences

/-- The nodes of the selections in plain form, each at its first place. -/
noncomputable def nodes (occurrences : Occurrences) : List FieldNode :=
  OrderedSet.ofList (occurrences.toList.map (fun field => field.node.plain))

/-- The first selection in plain form, and the other nodes with its definition. -/
noncomputable def plain (occurrences : Occurrences) : Occurrences :=
  ⟨occurrences.first.plain,
    occurrences.nodes.tail.map
      (fun node => ⟨occurrences.first.definition, node, occurrences.first.setPath⟩)⟩

variable {occurrences occurrences' other other' : Occurrences}

theorem exists_nodes_eq_cons (occurrences : Occurrences) :
    ∃ rest, occurrences.nodes = occurrences.first.node.plain :: rest := by
  rw [nodes, toList, List.map_cons, OrderedSet.ofList_cons]
  exact OrderedSet.exists_addAll_eq_append _ _

theorem map_node_plain (occurrences : Occurrences) :
    occurrences.plain.toList.map SelectedField.node = occurrences.nodes := by
  obtain ⟨rest, same⟩ := occurrences.exists_nodes_eq_cons
  simp only [plain, toList, same, List.tail_cons, List.map_cons, List.map_map,
    SelectedField.plain]
  exact congrArg _ (List.map_id rest)

/-- Selections have one plain form when their first ones and their nodes have. -/
theorem plain_eq_iff :
    occurrences.plain = other.plain ↔
      occurrences.first.plain = other.first.plain ∧ occurrences.nodes = other.nodes := by
  constructor
  · intro same
    refine ⟨congrArg Occurrences.first same, ?_⟩
    rw [← map_node_plain, ← map_node_plain, same]
  · rintro ⟨firsts, nodes⟩
    have definitions : occurrences.first.definition = other.first.definition :=
      (congrArg SelectedField.definition firsts :)
    have paths : occurrences.first.setPath = other.first.setPath :=
      (congrArg SelectedField.setPath firsts :)
    rw [plain, plain, firsts, nodes, definitions, paths]

theorem plain_single (field : SelectedField) : (single field).plain = single field.plain := by
  have nodes : (single field).nodes = [field.node.plain] := OrderedSet.ofList_cons _ []
  rw [plain, nodes]
  rfl

/-- **Taking up a selection adds its node**, whether it is dropped or not. -/
theorem nodes_addDistinct (occurrences : Occurrences) (field : SelectedField) :
    (occurrences.addDistinct field).nodes = OrderedSet.add occurrences.nodes field.node.plain := by
  rw [addDistinct]
  split
  · rename_i present
    obtain ⟨known, member, same⟩ := List.any_eq_true.mp present
    refine (OrderedSet.add_of_mem (OrderedSet.mem_ofList.mpr ?_)).symm
    rw [← FieldNode.plain_eq_of_equals same]
    exact List.mem_map_of_mem member
  · have toList : toList { occurrences with others := occurrences.others ++ [field] } =
        occurrences.toList ++ [field] := rfl
    rw [nodes, toList, List.map_append]
    exact OrderedSet.addAll_concat _ _ _

theorem nodes_foldl_addDistinct (occurrences : Occurrences) (fields : List SelectedField) :
    (fields.foldl addDistinct occurrences).nodes =
      OrderedSet.addAll occurrences.nodes (fields.map (fun field => field.node.plain)) := by
  induction fields generalizing occurrences with
  | nil => rfl
  | cons field rest ih =>
      rw [List.foldl_cons, ih, nodes_addDistinct]
      rfl

/-- **Selections of one plain form are put together alike**, or are in conflict for one reason. -/
theorem agree_absorb (same : occurrences.plain = occurrences'.plain)
    (sameOther : other.plain = other'.plain) :
    AgreeOn plain (occurrences.absorb other) (occurrences'.absorb other') := by
  have conflict : ∀ first second : Occurrences,
      first.plain.conflict? second.plain = first.conflict? second := fun _ _ => rfl
  rw [absorb, absorb, ← conflict occurrences, ← conflict occurrences', same, sameOther]
  cases occurrences'.plain.conflict? other'.plain with
  | some conflict =>
      change Agree _ (.error (.fieldMergeConflict other.plain.responseName
        other.plain.first.setPath occurrences.plain.position other.plain.position conflict)) _
      rw [same, sameOther]
      exact .error _
  | none =>
      obtain ⟨firsts, nodes⟩ := plain_eq_iff.mp same
      obtain ⟨_, others⟩ := plain_eq_iff.mp sameOther
      refine .ok (plain_eq_iff.mpr ⟨?_, ?_⟩)
      · rw [first_foldl_addDistinct, first_foldl_addDistinct, firsts]
      · rw [nodes_foldl_addDistinct, nodes_foldl_addDistinct, nodes, ← OrderedSet.addAll_ofList,
          ← OrderedSet.addAll_ofList _ (other'.toList.map _)]
        exact congrArg (OrderedSet.addAll occurrences'.nodes) others

/-- The selections have taken up a field of the plain form. -/
structure Holds (occurrences : Occurrences) (known : SelectedField) : Prop where
  node : known.node ∈ occurrences.nodes
  name : occurrences.first.definition.name = known.definition.name
  namedType : occurrences.namedType = known.namedType

theorem holds_single (field : SelectedField) : Holds (single field) field.plain := by
  refine ⟨?_, rfl, rfl⟩
  rw [nodes, OrderedSet.mem_ofList]
  exact List.mem_singleton_self _

/-- A field is taken up when it is not in conflict. -/
theorem absorb_single_eq_ok_iff {field : SelectedField} {result : Occurrences} :
    occurrences.absorb (single field) = .ok result ↔
      (occurrences.first.definition.name = field.definition.name ∧
        occurrences.namedType = field.namedType) ∧ occurrences.addDistinct field = result := by
  rw [absorb_eq_ok_iff, conflict?_eq_none_iff]
  rfl

theorem first_addDistinct (occurrences : Occurrences) (field : SelectedField) :
    (occurrences.addDistinct field).first = occurrences.first :=
  first_foldl_addDistinct occurrences [field]

theorem Holds.addDistinct {known : SelectedField} (holds : Holds occurrences known)
    (field : SelectedField) : Holds (occurrences.addDistinct field) known := by
  have first := occurrences.first_addDistinct field
  refine ⟨?_, first ▸ holds.name, ?_⟩
  · rw [nodes_addDistinct, OrderedSet.mem_add]
    exact .inl holds.node
  · rw [Occurrences.namedType, first]
    exact holds.namedType

theorem holds_addDistinct {field : SelectedField}
    (name : occurrences.first.definition.name = field.definition.name)
    (namedType : occurrences.namedType = field.namedType) :
    Holds (occurrences.addDistinct field) field.plain := by
  have first := occurrences.first_addDistinct field
  refine ⟨?_, first ▸ name, ?_⟩
  · rw [nodes_addDistinct, OrderedSet.mem_add]
    exact .inr rfl
  · rw [Occurrences.namedType, first]
    exact namedType

/-- **A field whose plain form was taken up changes nothing when it comes again.** -/
theorem absorbs_meetAt :
    Absorbs (Option.map plain) SelectedField.plain
      (fun present known => ∃ occurrences, present = some occurrences ∧ Holds occurrences known)
      (fun present field => ((single field).meetAt present).map some) where
  agree := fun {present present' field field'} same keys => by
    have singles : (single field).plain = (single field').plain := by
      rw [plain_single, plain_single, keys]
    cases present with
    | none =>
        cases present' with
        | none => exact .ok (congrArg some singles)
        | some occurrences' => cases same
    | some occurrences =>
        cases present' with
        | none => cases same
        | some occurrences' =>
            have agree := agree_absorb (Option.some.inj same) singles
            exact agree_map_iff.mpr (agree.mono fun _ _ alike => congrArg some alike)
  takes := fun {present field next} done => by
    obtain ⟨result, met, rfl⟩ := map_eq_ok_iff.mp done
    refine ⟨result, rfl, ?_⟩
    cases present with
    | none =>
        obtain rfl := Except.ok.inj met
        exact holds_single field
    | some occurrences =>
        obtain ⟨⟨name, namedType⟩, rfl⟩ := absorb_single_eq_ok_iff.mp met
        exact holds_addDistinct name namedType
  keeps := fun {present field next known} done held => by
    obtain ⟨result, met, rfl⟩ := map_eq_ok_iff.mp done
    obtain ⟨occurrences, rfl, holds⟩ := held
    obtain ⟨_, rfl⟩ := absorb_single_eq_ok_iff.mp met
    exact ⟨_, rfl, holds.addDistinct field⟩
  idle := fun {present field} held => by
    obtain ⟨occurrences, rfl, holds⟩ := held
    have absorbed : occurrences.absorb (single field) = .ok (occurrences.addDistinct field) :=
      absorb_single_eq_ok_iff.mpr ⟨⟨holds.name, holds.namedType⟩, rfl⟩
    refine ⟨some (occurrences.addDistinct field), map_eq_ok_iff.mpr ⟨_, absorbed, rfl⟩, ?_⟩
    refine congrArg some (plain_eq_iff.mpr ⟨?_, ?_⟩)
    · rw [first_addDistinct]
    · rw [nodes_addDistinct]
      exact OrderedSet.add_of_mem holds.node

end Occurrences

/-! ## Selections of a task -/

namespace OccurrenceGroups

/-- The groups with their selections in plain form. -/
noncomputable def plain (groups : OccurrenceGroups) : OccurrenceGroups :=
  groups.mapValues Occurrences.plain

/-- A group has taken up a field of the plain form. -/
def Holds (groups : OccurrenceGroups) (known : SelectedField) : Prop :=
  ∃ occurrences, groups.get? known.responseName = some occurrences ∧ occurrences.Holds known

/-- **Groups take up each field once.** -/
theorem absorbs_meet : Absorbs plain SelectedField.plain Holds meet :=
  Absorbs.update SelectedField.responseName Occurrences.absorbs_meetAt

end OccurrenceGroups

/-- The task with its selections in plain form. -/
noncomputable def Task.plain (task : Task) : Task :=
  ⟨task.occurrences.plain, task.path⟩

theorem Task.nodes_eq_of_plain {task task' : Task} (same : task.plain = task'.plain) :
    task.occurrences.nodes = task'.occurrences.nodes :=
  (Occurrences.plain_eq_iff.mp (congrArg Task.occurrences same)).2

namespace Environment

variable {environment environment' : Environment} {type : TypeDefinition} {task task' : Task}

/-- The groups of all object types with their selections in plain form. -/
noncomputable def VariantGroups.plain (groups : VariantGroups) : VariantGroups :=
  groups.mapValues OccurrenceGroups.plain

theorem exists_absorbs_meetVariant :
    ∃ holds, Absorbs VariantGroups.plain (Variant.map SelectedField.plain) holds meetVariant := by
  have fields := OccurrenceGroups.absorbs_meet.list.comp
    (fun variant : Variant SelectedField => .ok variant.fields) (Variant.map SelectedField.plain)
    (fun known => .ok known.fields) (fun _ => rfl)
  exact ⟨_, Absorbs.update Variant.typeName (fields.orElse OrderedMap.empty)⟩

theorem variants_plain (groups : VariantGroups) :
    (groups.entries.map (fun entry => (⟨entry.1, entry.2.values⟩ : Variant Occurrences))).map
        (Variant.map Occurrences.plain) =
      groups.plain.entries.map (fun entry => ⟨entry.1, entry.2.values⟩) := by
  simp only [VariantGroups.plain, OccurrenceGroups.plain, OrderedMap.mapValues, Variant.map,
    List.map_map, Function.comp_def, OrderedMap.values]

section SamePlain

variable (alike : environment.plain = environment'.plain) (same : task.plain = task'.plain)

include alike same

/-- **Tasks of one plain form select alike on every object type.** -/
theorem agree_collectVariants (type : TypeDefinition) :
    AgreeOn (List.map (Variant.map Occurrences.plain)) (environment.collectVariants type task)
      (environment'.collectVariants type task') := by
  obtain ⟨holds, absorbs⟩ := exists_absorbs_meetVariant
  have paths : task.path = task'.path := (congrArg Task.path same :)
  rw [collectVariants, collectVariants, paths]
  have found := absorbs.list.agree_foldlM_comp
    (fun field : SelectedField => environment.collect type field.node.items task'.path)
    (fun field : SelectedField => environment'.collect type field.node.items task'.path)
    (fun field => field.node.plain)
    (fun node => environment'.plain.collect type node.items task'.path)
    (fun field => alike ▸ environment.collect_plain type field.node.items task'.path)
    (fun field => environment'.collect_plain type field.node.items task'.path)
    (Task.nodes_eq_of_plain same) OrderedMap.empty
  refine found.bind fun groups groups' same => .ok ?_
  rw [variants_plain, variants_plain, same]

/-- **Tasks of one plain form select alike on the type itself.** -/
theorem agree_collectShared (type : TypeDefinition) :
    AgreeOn (List.map Occurrences.plain) (environment.collectShared type task)
      (environment'.collectShared type task') := by
  have paths : task.path = task'.path := (congrArg Task.path same :)
  rw [collectShared, collectShared, paths]
  have found := OccurrenceGroups.absorbs_meet.list.agree_foldlM_comp
    (fun field : SelectedField => environment.collectOn type field.node.items task'.path)
    (fun field : SelectedField => environment'.collectOn type field.node.items task'.path)
    (fun field => field.node.plain)
    (fun node => environment'.plain.collectOn type node.items task'.path)
    (fun field => alike ▸ environment.collectOn_plain type field.node.items task'.path)
    (fun field => environment'.collectOn_plain type field.node.items task'.path)
    (Task.nodes_eq_of_plain same) OrderedMap.empty
  refine found.bind fun groups groups' same => .ok ?_
  rw [← OrderedMap.values_mapValues, ← OrderedMap.values_mapValues]
  exact congrArg OrderedMap.values same

end SamePlain

end Environment

/-! ## Planned fields and their tasks -/

/-- The planned field with its selections in plain form. -/
noncomputable def PlannedField.plain (field : PlannedField) : PlannedField :=
  ⟨field.occurrences.plain, field.value⟩

/-- The tasks with their selections in plain form. -/
noncomputable def TaskMap.plain (tasks : TaskMap) : TaskMap :=
  tasks.mapValues Task.plain

theorem PlannedField.tasks_plain (fields : List PlannedField) :
    (tasks fields).map Task.plain = tasks (fields.map plain) := by
  simp only [tasks, List.map_filterMap, List.filterMap_map]
  refine congrArg (fun task? => List.filterMap task? fields) (funext fun field => ?_)
  obtain ⟨occurrences, value⟩ := field
  cases value <;> rfl

namespace TaskMap

/-- Tasks of one plain form are joined alike, or are in conflict for one reason. -/
theorem agree_join {tasks tasks' : TaskMap} {task task' : Task} (known : tasks.plain = tasks'.plain)
    (same : task.plain = task'.plain) :
    AgreeOn plain (tasks.join task) (tasks'.join task') := by
  have paths : task.path = task'.path := (congrArg Task.path same :)
  rw [join, join, paths]
  refine OrderedMap.agree_update known task'.path fun present present' alike => ?_
  cases present with
  | none =>
      cases present' with
      | none => exact .ok same
      | some known' => cases alike
  | some known =>
      cases present' with
      | none => cases alike
      | some known' =>
          have tasks : known.plain = known'.plain := Option.some.inj alike
          have joined := Occurrences.agree_absorb (congrArg Task.occurrences tasks :)
            (congrArg Task.occurrences same :)
          have knownPaths : known.path = known'.path := (congrArg Task.path tasks :)
          refine joined.bind fun found found' here => .ok ?_
          rw [Task.plain, Task.plain, here, knownPaths]

theorem agree_joinAll {tasks tasks' : TaskMap} {found found' : List Task}
    (known : tasks.plain = tasks'.plain) (same : found.map Task.plain = found'.map Task.plain) :
    AgreeOn plain (tasks.joinAll found) (tasks'.joinAll found') :=
  agree_foldlM (forall₂_of_map_eq same) (fun _ _ _ _ => agree_join) known

theorem plain_addMissing (tasks : TaskMap) (task : Task) :
    (tasks.addMissing task).plain = tasks.plain.addMissing task.plain := by
  have present : tasks.plain.contains task.path = tasks.contains task.path := by
    rw [OrderedMap.contains, OrderedMap.contains, plain, OrderedMap.get?_mapValues,
      Option.isSome_map]
  have place : task.plain.path = task.path := rfl
  rw [addMissing, addMissing, place, present]
  split
  · rfl
  · exact OrderedMap.mapValues_insert _ _ _ _

theorem plain_foldl_addMissing (tasks : TaskMap) (found : List Task) :
    (found.foldl addMissing tasks).plain = (found.map Task.plain).foldl addMissing tasks.plain := by
  induction found generalizing tasks with
  | nil => rfl
  | cons task rest ih => rw [List.foldl_cons, List.map_cons, List.foldl_cons, ih, plain_addMissing]

end TaskMap

/-! ## Plans -/

/-- The plan with all selections in plain form. -/
noncomputable def Plan.plain : Plan → Plan
  | leaf => leaf
  | object type fields => object type (fields.map PlannedField.plain)
  | interface type variants shared tasks =>
      interface type (variants.map (Variant.map PlannedField.plain))
        (shared.map PlannedField.plain) (tasks.map Task.plain)
  | union type variants shared tasks =>
      union type (variants.map (Variant.map PlannedField.plain))
        (shared.map PlannedField.plain) (tasks.map Task.plain)

/-- The tasks of a plan in plain form are the plan's tasks in plain form. -/
theorem Plan.tasks_plain (plan : Plan) : plan.plain.tasks = plan.tasks.map Task.plain := by
  cases plan with
  | leaf => rfl
  | object type fields => exact (PlannedField.tasks_plain fields).symm
  | interface type variants shared tasks => rfl
  | union type variants shared tasks => rfl

namespace Environment

variable {environment environment' : Environment} {type : TypeDefinition} {task task' : Task}

theorem firstFields_map {φ ψ : Type} (change : φ → ψ) (variants : List (Variant φ)) :
    firstFields (variants.map (Variant.map change)) = (firstFields variants).map change := by
  cases variants <;> rfl

section SamePlain

variable (alike : environment.plain = environment'.plain)

include alike

theorem schema_eq_of_plain : environment.schema = environment'.schema :=
  (congrArg Environment.schema alike :)

/-- Selections of one plain form are planned alike, or cannot be planned for one reason. -/
theorem agree_planField {occurrences occurrences' : Occurrences}
    (same : occurrences.plain = occurrences'.plain) :
    AgreeOn PlannedField.plain (environment.planField occurrences)
      (environment'.planField occurrences') := by
  have first : occurrences.first.plain = occurrences'.first.plain :=
    (congrArg Occurrences.first same :)
  have names : occurrences.namedType = occurrences'.namedType :=
    (congrArg SelectedField.namedType first :)
  have paths : occurrences.path = occurrences'.path := (congrArg SelectedField.path first :)
  have positions : occurrences.position = occurrences'.position :=
    (congrArg SelectedField.position first :)
  have values : environment.fieldValue occurrences'.namedType occurrences'.path
        occurrences'.position =
      environment'.fieldValue occurrences'.namedType occurrences'.path occurrences'.position := by
    rw [fieldValue, fieldValue, schema_eq_of_plain alike]
  rw [planField, planField, names, paths, positions, values]
  refine agree_bind_same fun value _ => .ok ?_
  rw [PlannedField.plain, PlannedField.plain, same]

/-- **Fields of one plain form are planned alike.** -/
theorem agree_planFields {fields fields' : List Occurrences}
    (same : fields.map Occurrences.plain = fields'.map Occurrences.plain) :
    AgreeOn (List.map PlannedField.plain) (environment.planFields fields)
      (environment'.planFields fields') := by
  have each := agree_mapM (forall₂_of_map_eq same) fun _ _ => agree_planField alike
  exact each.mono fun planned planned' related => forall₂_map_eq (fun _ _ => id) related

/-- Variants of one plain form are planned alike, and their tasks are joined alike. -/
theorem agree_planVariants {tasks tasks' : TaskMap} (known : tasks.plain = tasks'.plain)
    {variants variants' : List (Variant Occurrences)}
    (same : variants.map (Variant.map Occurrences.plain) =
      variants'.map (Variant.map Occurrences.plain)) :
    AgreeOn (fun planned => (planned.1.map (Variant.map PlannedField.plain), planned.2.plain))
      (environment.planVariants tasks variants) (environment'.planVariants tasks' variants') := by
  have related := forall₂_of_map_eq same
  clear same
  induction related generalizing tasks tasks' with
  | nil => exact .ok (congrArg (Prod.mk []) known)
  | @cons variant variant' rest rest' here _ ih =>
      have names : variant.typeName = variant'.typeName := (congrArg Variant.typeName here :)
      have fields := (congrArg Variant.fields here :)
      rw [planVariants, planVariants]
      refine (agree_planFields alike fields).bind fun planned planned' samePlanned => ?_
      have left : (PlannedField.tasks planned).map Task.plain =
          (PlannedField.tasks planned').map Task.plain := by
        rw [PlannedField.tasks_plain, samePlanned, PlannedField.tasks_plain]
      refine (TaskMap.agree_joinAll known left).bind fun joined joined' sameJoined => ?_
      refine (ih sameJoined).bind fun others others' sameOthers => .ok ?_
      obtain ⟨sameRest, sameTasks⟩ := Prod.mk.inj sameOthers
      refine Prod.ext ?_ sameTasks
      exact congrArg₂ List.cons (congrArg₂ Variant.mk names samePlanned) sameRest

variable (same : task.plain = task'.plain)

include same

theorem agree_planAbstract (type : TypeDefinition) {variants variants' : List (Variant Occurrences)}
    (own : variants.map (Variant.map Occurrences.plain) =
      variants'.map (Variant.map Occurrences.plain)) :
    AgreeOn (fun parts => (parts.1.map (Variant.map PlannedField.plain),
        parts.2.1.map PlannedField.plain, parts.2.2.map Task.plain))
      (environment.planAbstract type task variants)
      (environment'.planAbstract type task' variants') := by
  rw [planAbstract, planAbstract]
  refine (agree_planVariants alike rfl own).bind fun planned planned' samePlanned => ?_
  obtain ⟨sameVariants, sameTasks⟩ := Prod.mk.inj samePlanned
  refine (agree_collectShared alike same type).bind fun found found' sameFound => ?_
  refine (agree_planFields alike sameFound).bind fun shared shared' sameShared => .ok ?_
  refine Prod.ext sameVariants (Prod.ext sameShared ?_)
  change List.map Task.plain (OrderedMap.values _) = List.map Task.plain (OrderedMap.values _)
  rw [← OrderedMap.values_mapValues, ← OrderedMap.values_mapValues]
  refine congrArg OrderedMap.values ?_
  exact (TaskMap.plain_foldl_addMissing planned.2 _).trans
    (Eq.trans (by rw [PlannedField.tasks_plain, sameShared, sameTasks, PlannedField.tasks_plain])
      (TaskMap.plain_foldl_addMissing planned'.2 _).symm)

/-- **Tasks of one plain form are planned alike**, or cannot be planned for one reason. -/
theorem agree_plan :
    AgreeOn Plan.plain (environment.plan task) (environment'.plan task') := by
  have names : task.namedType = task'.namedType :=
    (congrArg (fun task => task.occurrences.namedType) same :)
  have paths : task.path = task'.path := (congrArg Task.path same :)
  have positions : task.occurrences.position = task'.occurrences.position :=
    (congrArg (fun task => task.occurrences.position) same :)
  rw [plan, plan, names, paths, positions, schema_eq_of_plain alike]
  cases environment'.schema.type? task'.namedType with
  | none => exact .error _
  | some type =>
      refine (agree_collectVariants alike same type).bind fun variants variants' sameVariants => ?_
      cases type.kind with
      | object =>
          have fields := congrArg firstFields sameVariants
          rw [firstFields_map, firstFields_map] at fields
          refine (agree_planFields alike fields).bind fun planned planned' samePlanned => .ok ?_
          exact congrArg (Plan.object type) samePlanned
      | interface =>
          refine (agree_planAbstract alike same type sameVariants).bind fun parts parts' here => ?_
          obtain ⟨planned, rest⟩ := Prod.mk.inj here
          obtain ⟨shared, tasks⟩ := Prod.mk.inj rest
          refine .ok ?_
          rw [Plan.plain, Plan.plain, planned, shared, tasks]
      | union =>
          refine (agree_planAbstract alike same type sameVariants).bind fun parts parts' here => ?_
          obtain ⟨planned, rest⟩ := Prod.mk.inj here
          obtain ⟨shared, tasks⟩ := Prod.mk.inj rest
          refine .ok ?_
          rw [Plan.plain, Plan.plain, planned, shared, tasks]
      | scalar | enum => exact .ok rfl
      | inputObject => exact .error _

omit same in
/-- **Roots whose selections have one plain form are planned alike.** -/
theorem agree_planRoot (root : TypeDefinition) {items items' : List Selection} (path : Path)
    (selections : Selection.listPlain items = Selection.listPlain items') :
    AgreeOn (List.map PlannedField.plain) (environment.planRoot root items path)
      (environment'.planRoot root items' path) := by
  have collected : AgreeOn (List.map (Variant.map SelectedField.plain))
      (environment.collect root items path) (environment'.collect root items' path) := by
    refine agree_of_map_eq ?_
    rw [collect_plain, collect_plain, alike, selections]
  refine collected.bind fun variants variants' same => agree_planFields alike ?_
  have fields := congrArg firstFields same
  rw [firstFields_map, firstFields_map] at fields
  have singles := congrArg (List.map Occurrences.single) fields
  rw [List.map_map, List.map_map] at singles ⊢
  simpa only [Function.comp_def, Occurrences.plain_single] using singles

end SamePlain

end Environment

end ResponseShape

import ResponseShape.Proofs.EnumLinks

/-!
# No field is invented

The task of a position has more than one source. Every object type that leads to the position
brings its selections there, and so does the interface or the union itself when no object type
does. Selections of the second kind belong to no chain.

They do not stand in for those of a chain either. If a chain reaches a position, then the task of
that position has an occurrence for every chain that ends there, and all its occurrences are nodes
of such chains (`Environment.MatchesChains`). This passes from a task to the tasks that its plan
leaves (`Environment.MatchesChains.passes`): a chain to a child selects the child's field on an
object type, and then the child has the selections of object types alone
(`Environment.PlanParts.origin_of_variant`). So every field of the model of a concrete type is
selected by a chain (`Environment.exists_chain_of_field`).
-/

set_option autoImplicit false

namespace ResponseShape

/-! ## Tasks where a variant leads -/

/-- A resolved task has the occurrences of variants alone when a variant has a task there. -/
theorem Task.origin_of_own {own shared : List Task} {task child : Task} (isOwn : task ∈ own)
    (isChild : child ∈ resolve own shared) (same : child.path = task.path) :
    ∀ occurrence ∈ child.occurrences.toList,
      ∃ part ∈ own, occurrence ∈ part.occurrences.toList := by
  intro occurrence member
  obtain ⟨path, _, found⟩ := mem_resolve.mp isChild
  obtain ⟨whole, joined⟩ := atPath?_of_mem_own isOwn
  have here : path = task.path := (path_of_atPath? found).symm.trans same
  rw [atPath?, here, joined, Option.some_or] at found
  obtain rfl := Option.some.inj found
  obtain ⟨part, isPart, inPart⟩ :=
    List.mem_flatMap.mp ((thins_of_joined? joined).subset occurrence member)
  exact ⟨part, (List.mem_filter.mp isPart).1, inPart⟩

namespace Environment

variable {environment : Environment} {operation : OperationDefinition} {path : Path}
  {type below : TypeDefinition} {items : List Selection} {task child : Task} {plan : Plan}

/-- **Where a field of a variant leads, the task has selections of variants alone.** -/
theorem PlanParts.origin_of_variant (parts : environment.PlanParts task type plan)
    {variant : Variant PlannedField} (isVariant : variant ∈ plan.variants) {field : PlannedField}
    (isField : field ∈ variant.fields) (composite : field.value = .composite)
    (isChild : child ∈ plan.tasks) (same : child.path = field.occurrences.path) :
    ∀ selected ∈ child.occurrences.toList, ∃ other ∈ plan.variants, ∃ part ∈ other.fields,
      part.value = .composite ∧ selected ∈ part.occurrences.toList := by
  intro selected member
  rw [parts.tasks] at isChild
  have left : Task.ofOccurrences field.occurrences ∈ Variant.tasks plan.variants :=
    Variant.mem_tasks.mpr ⟨variant, isVariant, field, isField, composite, rfl⟩
  obtain ⟨whole, isWhole, inWhole⟩ := Task.origin_of_own left isChild same selected member
  obtain ⟨other, isOther, part, isPart, value, rfl⟩ := Variant.mem_tasks.mp isWhole
  exact ⟨other, isOther, part, isPart, value, inWhole⟩

/-! ## Chains to a position -/

/-- A chain that ends below the root comes from a field of the value above. -/
theorem Chain.exists_above {responseName : String} (inside : 0 < path.depth)
    (chain : environment.Chain operation (path.child responseName) below items) :
    ∃ type above variants, environment.Chain operation path type above ∧
      environment.collect type above path = .ok variants ∧
      ∃ variant ∈ variants, ∃ selected ∈ variant.fields, selected.responseName = responseName ∧
        selected.node.items = items ∧
        environment.schema.type? selected.namedType = some below ∧ below.isComposite = true := by
  generalize same : path.child responseName = place at chain
  cases chain with
  | root =>
      have depth := congrArg Path.depth same
      rw [Path.depth_child] at depth
      simp only [Path.depth, Path.root, List.length_singleton] at depth inside
      omega
  | @field above type _ aboveItems variants variant selected chain collected isVariant isSelected
      known composite =>
      obtain ⟨runtime, _, _, selects⟩ :=
        exists_left_of_mem (collect_eq_ok_iff.mp collected) isVariant
      rw [SelectedField.path, setPath_of_collectFor selects selected isSelected] at same
      obtain ⟨rfl, rfl⟩ := Path.child_inj.mp same
      exact ⟨type, aboveItems, variants, chain, collected, variant, isVariant, selected,
        isSelected, rfl, rfl, known, composite⟩

/-- The task has an occurrence for every chain to its position, and if there is such a chain, then
all its occurrences are nodes of chains. -/
structure MatchesChains (environment : Environment) (operation : OperationDefinition)
    (task : Task) : Prop where
  inside : 0 < task.path.depth
  stands : ∀ type items, environment.Chain operation task.path type items →
    environment.StandsAt task task.path type items
  backed : ∀ type items, environment.Chain operation task.path type items →
    ∀ occurrence ∈ task.occurrences.toList,
      environment.Chain operation task.path type occurrence.node.items

/-- The only chain to the root is the one that starts there. -/
theorem matchesChains_root {name : String} {root : TypeDefinition}
    (found : environment.schema.root? operation.kind = some root) :
    environment.MatchesChains operation (Task.root root operation.items (Path.root name)) := by
  have only : ∀ type items, environment.Chain operation (Path.root name) type items →
      type = root ∧ items = operation.items := by
    intro type items chain
    generalize same : Path.root name = place at chain
    cases chain with
    | root _ found' => exact ⟨Option.some.inj (found'.symm.trans found), rfl⟩
    | @field above _ _ _ variants variant selected chain collected isVariant isSelected =>
        obtain ⟨runtime, _, _, selects⟩ :=
          exists_left_of_mem (collect_eq_ok_iff.mp collected) isVariant
        rw [SelectedField.path, setPath_of_collectFor selects selected isSelected] at same
        have depth := congrArg Path.depth same
        rw [Path.depth_child] at depth
        -- the path of a value is not empty
        have inside : 0 < above.depth := by
          cases chain with
          | root => exact Nat.one_pos
          | field => simp only [SelectedField.path, Path.depth_child, Nat.succ_pos]
        simp only [Path.depth, Path.root, List.length_singleton] at depth inside
        omega
  refine ⟨Nat.one_pos, ?_, ?_⟩
  · intro type items chain
    obtain ⟨rfl, rfl⟩ := only type items chain
    exact ⟨rfl, (Schema.root?_eq_some found).1, _, List.mem_cons_self, Selection.alike_refl _⟩
  · intro type items chain occurrence member
    obtain ⟨rfl, rfl⟩ := only type items chain
    obtain rfl := List.mem_singleton.mp member
    exact chain

namespace MatchesChains

/-- **A chain to a child of a task selects the child's field on an object type.** -/
theorem exists_field (agrees : environment.MatchesChains operation task)
    (parts : environment.PlanParts task type plan) (isChild : child ∈ plan.tasks)
    (chain : environment.Chain operation child.path below items) :
    (∃ above, environment.Chain operation task.path type above) ∧
      ∃ variant ∈ plan.variants, ∃ field ∈ variant.fields, field.value = .composite ∧
        field.occurrences.path = child.path ∧
        environment.schema.type? field.occurrences.namedType = some below ∧
        ∃ known ∈ field.occurrences.toList,
          List.Forall₂ Selection.Alike known.node.items items := by
  rw [parts.path_of_task isChild] at chain
  obtain ⟨above, aboveItems, variants, chainAbove, collected, chosen, isChosen, selected,
    isSelected, response, rfl, known, composite⟩ := chain.exists_above agrees.inside
  have stands := agrees.stands above aboveItems chainAbove
  obtain rfl := Option.some.inj (parts.known.symm.trans stands.known)
  obtain ⟨variant, isVariant, _, field, isField, fieldResponse, _, namedType, covering, isCovering,
    covers⟩ := stands.exists_planned parts collected isChosen isSelected
  have inPlan : field ∈ plan.fields := Plan.mem_fields.mpr (.inl ⟨variant, isVariant, isField⟩)
  have value := parts.value_of_field inPlan
  rw [namedType, valueOf?_eq_composite_iff.mpr ⟨below, known, composite⟩] at value
  refine ⟨⟨aboveItems, chainAbove⟩, variant, isVariant, field, isField, ?_, ?_, ?_, covering,
    isCovering, covers.items⟩
  · exact (Option.some.inj value).symm
  · rw [parts.path_of_field inPlan, parts.path_of_task isChild, fieldResponse, response]
  · rw [namedType]
    exact known

/-- A chain to a child of a task has an occurrence there. -/
theorem stands_below (agrees : environment.MatchesChains operation task)
    (parts : environment.PlanParts task type plan) (isChild : child ∈ plan.tasks)
    (chain : environment.Chain operation child.path below items) :
    environment.StandsAt child child.path below items := by
  obtain ⟨_, variant, isVariant, field, isField, value, path, known, covering, isCovering,
    alike⟩ := agrees.exists_field parts isChild chain
  obtain ⟨other, isOther, otherPath, otherType, covered⟩ :=
    parts.exists_task_of_variant isVariant isField value
  obtain rfl := List.inj_on_of_nodup_map parts.nodup_tasks isOther isChild (otherPath.trans path)
  obtain ⟨occurrence, isOccurrence, covers⟩ := covered covering isCovering
  refine ⟨rfl, ?_, occurrence, isOccurrence, ?_⟩
  · rw [otherType]
    exact known
  · exact forall₂_trans (fun _ _ _ earlier later => earlier.trans later) covers.items alike

/-- An occurrence of a child to which a chain goes is the node of a chain. -/
theorem backed_below (agrees : environment.MatchesChains operation task)
    (parts : environment.PlanParts task type plan) (isChild : child ∈ plan.tasks)
    (chain : environment.Chain operation child.path below items) :
    ∀ selected ∈ child.occurrences.toList,
      environment.Chain operation child.path below selected.node.items := by
  intro selected isSelected
  obtain ⟨⟨above, chainAbove⟩, variant, isVariant, field, isField, value, path, _⟩ :=
    agrees.exists_field parts isChild chain
  obtain ⟨other, isOther, part, isPart, _, inPart⟩ :=
    parts.origin_of_variant isVariant isField value isChild path.symm selected isSelected
  obtain ⟨_, occurrence, isOccurrence, runtime, possible, _, fields, selects, inFields⟩ :=
    parts.exists_collected isOther isPart selected inPart
  -- the occurrence of the parent is the node of a chain, which goes on with the selected field
  have source := agrees.backed type above chainAbove occurrence isOccurrence
  obtain ⟨found, collects, _, _⟩ := parts.own
  obtain ⟨variants, _, collected⟩ := exists_right_of_mem collects isOccurrence
  obtain ⟨chosen, isChosen, _, selects'⟩ :=
    exists_right_of_mem (collect_eq_ok_iff.mp collected) possible
  obtain rfl := Except.ok.inj (selects.symm.trans selects')
  have known : environment.schema.type? selected.namedType = some below := by
    rw [parts.uniform_of_task isChild selected isSelected]
    exact (agrees.stands_below parts isChild chain).known
  have composite : below.isComposite = true := by
    obtain ⟨composed, known', composite⟩ := parts.composite_of_task isChild
    obtain rfl :=
      Option.some.inj (known'.symm.trans (agrees.stands_below parts isChild chain).known)
    exact composite
  have samePath : selected.path = child.path := by
    obtain ⟨origin, isOrigin, _, originPath, inOrigin⟩ :=
      (parts.origin_of_task isChild).2 selected isSelected
    rw [parts.path_of_mem isOrigin inOrigin, ← parts.path_of_field isOrigin, originPath]
  rw [← samePath]
  exact .field source collected isChosen inFields known composite

/-- **What chains bring to a task passes to the tasks below it.** -/
theorem passes (agrees : environment.MatchesChains operation task)
    (planned : environment.Plans task plan) (composite : environment.IsComposite task) :
    ∀ child ∈ plan.tasks, environment.MatchesChains operation child := by
  intro child isChild
  obtain ⟨type, _, parts⟩ := planned.exists_parts composite
  refine ⟨?_, ?_, ?_⟩
  · rw [parts.path_of_task isChild, Path.depth_child]
    exact Nat.succ_pos _
  · intro below items chain
    exact agrees.stands_below parts isChild chain
  · intro below items chain
    exact agrees.backed_below parts isChild chain

end MatchesChains

/-! ## The fields of the models are in chains -/

variable {policy : NamePolicy} {catalog later : Catalog} {model : OperationModel}

/-- Every position of an operation has what chains bring there. -/
theorem Builds.matchesChains {history : List Built}
    (builds : environment.Builds catalog operation later model history) :
    ∀ built ∈ history, environment.MatchesChains operation built.task :=
  builds.forall_tasks (environment.MatchesChains operation) (fun _ => matchesChains_root)
    fun _ _ planned composite agrees => agrees.passes planned composite

/-- **No field is invented.** In documents whose fragments are accepted and whose operations are
built, every position that a chain reaches is a path of the operation, and every field of the model
that a concrete type has there is selected on that type, with the response name and the schema
field of the model, by a chain that ends at the position. -/
theorem exists_chain_of_field {schema : Schema} {documents : List Document}
    {fragments : FragmentTable} (accepted : FragmentTable.ofDocuments documents = .ok fragments)
    {models : List OperationModel}
    (built : (Environment.mk schema fragments).buildOperations policy catalog
      (Document.operations documents) = .ok (later, models))
    (member : (operation, model) ∈ (Document.operations documents).zip models)
    (reached : (Environment.mk schema fragments).Chain operation path type items) :
    ∃ name, model.paths.get? path = some name ∧
      ∀ typeName object, later.ModelsType name typeName object → ∀ field ∈ object.fields,
        ∃ chosen variants, (Environment.mk schema fragments).Chain operation path type chosen ∧
          (Environment.mk schema fragments).collect type chosen path = .ok variants ∧
          ∃ variant ∈ variants, variant.typeName = typeName ∧ ∃ selected ∈ variant.fields,
            selected.responseName = field.responseName ∧
              selected.definition.name = field.fieldName := by
  obtain ⟨_, _, rank, ranked⟩ := FragmentTable.ranked_of_ofDocuments accepted
  obtain ⟨histories, buildsAll⟩ := exists_buildsAll ranked built
  obtain ⟨before, after, history, _, builds, grows⟩ :=
    buildsAll.exists_of_mem.1 operation model member
  obtain ⟨position, isPosition, stands⟩ := reached.exists_occurrence builds
  obtain ⟨other, _, parts⟩ := builds.exists_parts isPosition
  obtain rfl := Option.some.inj (parts.known.symm.trans stands.known)
  obtain rfl := stands.path
  have named := (builds.names position isPosition).mono grows
  have registers : later.Registers position.own position.objects := fun entry isEntry =>
    grows.model (builds.registered position isPosition entry isEntry)
  refine ⟨position.own.name, builds.paths_of_mem position isPosition, ?_⟩
  intro typeName object isModel field isField
  obtain ⟨variant, isVariant, namesVariant⟩ := named.exists_variant registers isModel
  obtain ⟨planned, isPlanned, namesField⟩ := exists_left_of_mem namesVariant.fields isField
  obtain ⟨_, occurrence, isOccurrence, runtime, possible, runtimeName, fields, selects,
    inFields⟩ := parts.exists_collected isVariant isPlanned planned.occurrences.first
      List.mem_cons_self
  obtain ⟨found, collects, _, _⟩ := parts.own
  obtain ⟨variants, _, collected⟩ := exists_right_of_mem collects isOccurrence
  obtain ⟨chosen, isChosen, chosenName, selects'⟩ :=
    exists_right_of_mem (collect_eq_ok_iff.mp collected) possible
  obtain rfl := Except.ok.inj (selects.symm.trans selects')
  refine ⟨occurrence.node.items, variants, ?_, collected, chosen, isChosen, ?_,
    planned.occurrences.first, inFields, namesField.responseName.symm, namesField.fieldName.symm⟩
  · exact (builds.matchesChains position isPosition).backed _ _ reached occurrence isOccurrence
  · rw [chosenName, runtimeName, ← namesVariant.schemaType]
    exact isModel.1

end Environment

/-! ## Names of the owners of dogs -/

namespace Sample

/-- The owner of a pet: the name is asked for on dogs, and the mood on cats. -/
def ownerModel : ObjectModel :=
  ⟨"Person", none, "Person",
    [⟨"name", "name", none, "String", ⟨["Q", "pet", "owner", "name"]⟩, none⟩,
      ⟨"mood", "mood", none, "Mood", ⟨["Q", "pet", "owner", "mood"]⟩, none⟩]⟩

end Sample

namespace Environment

open Sample

theorem exists_chain_of_name :
    ∃ later, petEnvironment.buildOperations ⟨[], []⟩ Catalog.empty
        (Document.operations petDocuments) = .ok (later, [petModel]) ∧
      later.ModelsType "Person" "Person" ownerModel ∧
      ∀ field ∈ ownerModel.fields, ∃ chosen variants,
        petEnvironment.Chain petQuery ⟨["Q", "pet", "owner"]⟩ personType chosen ∧
          petEnvironment.collect personType chosen ⟨["Q", "pet", "owner"]⟩ = .ok variants ∧
          ∃ variant ∈ variants, variant.typeName = "Person" ∧ ∃ selected ∈ variant.fields,
            selected.responseName = field.responseName ∧
              selected.definition.name = field.fieldName := by
  have built : (petEnvironment.buildOperations ⟨[], []⟩ Catalog.empty
      (Document.operations petDocuments)).map
        (fun result => (result.1.models.get? "Person", result.2)) =
      .ok (some (.object ownerModel), [petModel]) :=
    map_buildOperations_of_within 4 (by decide +kernel)
  obtain ⟨⟨later, models⟩, built, same⟩ := map_eq_ok_iff.mp built
  obtain ⟨found, rfl⟩ := Prod.mk.inj same
  obtain ⟨name, here, backed⟩ :=
    exists_chain_of_field (accepted_of_catFragment rfl) built List.mem_cons_self chain_of_cat
  obtain rfl : "Person" = name := Option.some.inj here
  have isModel : later.ModelsType "Person" "Person" ownerModel := ⟨rfl, found, .inl rfl⟩
  exact ⟨later, built, isModel, backed "Person" ownerModel isModel⟩

end Environment

end ResponseShape

import ResponseShape.Proofs.Chains
import ResponseShape.Proofs.Correspondence

/-!
# Entering a fragment once changes no result

A fragment is entered once in a walk, at its first spread. Documents in which every spread is
replaced by an inline fragment (`Definition.Expands`) have no such restriction: what a fragment
selects is met wherever it was spread. If the operations of such documents can be built, then the
operations of the documents as they are written can be built with the same result
(`Environment.buildOperations_of_expands`).

Plans that correspond are realized in the same way, because names depend on the first occurrence of
a field alone (`Progress.realize_of_inlines`). So steps and passes correspond, and both traversals
end with nothing left.
-/

set_option autoImplicit false

namespace ResponseShape

/-! ## Names -/

namespace Catalog

open FragmentTable

variable {table : FragmentTable}

theorem nameField_of_inlines {field inlined : PlannedField}
    (inlines : table.InlinesPlanned field inlined) (catalog : Catalog) (avoided : List String) :
    catalog.nameField avoided field = catalog.nameField avoided inlined := by
  have first := inlines.occurrences.first
  rw [nameField, nameField, inlines.value, first.responseName_eq, first.definition, first.path_eq,
    first.namedType_eq]

theorem nameFields_of_inlines {fields inlined : List PlannedField}
    (inlines : List.Forall₂ table.InlinesPlanned fields inlined) (catalog : Catalog)
    (avoided : List String) :
    catalog.nameFields avoided fields = catalog.nameFields avoided inlined := by
  induction inlines generalizing catalog with
  | nil => rfl
  | cons first _ ih => rw [nameFields, nameFields, nameField_of_inlines first, ih]

theorem nameVariants_of_inlines {variants inlined : List (Variant PlannedField)}
    (inlines : List.Forall₂ (Variant.Related table.InlinesPlanned) variants inlined)
    (schema : Schema) (catalog : Catalog) (avoided : List String) (path : Path) :
    nameVariants schema catalog avoided path variants =
      nameVariants schema catalog avoided path inlined := by
  induction inlines generalizing catalog with
  | nil => rfl
  | cons first _ ih =>
      rw [nameVariants, nameVariants, first.1, nameFields_of_inlines first.2, ih]

theorem nameAbstract_of_inlines {variants inlined : List (Variant PlannedField)}
    {shared inlinedShared : List PlannedField}
    (own : List.Forall₂ (Variant.Related table.InlinesPlanned) variants inlined)
    (onType : List.Forall₂ table.InlinesPlanned shared inlinedShared) (schema : Schema)
    (catalog : Catalog) (avoided : List String) (path : Path) (type : TypeDefinition) :
    nameAbstract schema catalog avoided path type variants shared =
      nameAbstract schema catalog avoided path type inlined inlinedShared := by
  rw [nameAbstract, nameAbstract, nameVariants_of_inlines own, nameFields_of_inlines onType]

end Catalog

/-- **Plans that correspond are realized in the same way.** -/
theorem Progress.realize_of_inlines {table : FragmentTable} {plan inlined : Plan}
    (inlines : table.InlinesPlan plan inlined) (progress : Progress) (schema : Schema)
    (avoided : List String) (path : Path) :
    progress.realize schema avoided path plan = progress.realize schema avoided path inlined := by
  cases inlines with
  | leaf => rfl
  | object fields => rw [realize, realize, Catalog.nameFields_of_inlines fields]
  | interface own onType _ => rw [realize, realize, Catalog.nameAbstract_of_inlines own onType]
  | union own onType _ => rw [realize, realize, Catalog.nameAbstract_of_inlines own onType]

/-! ## Passes -/

namespace Environment

open FragmentTable

variable {schema : Schema} {table flat : FragmentTable} {rank : String → Nat} {policy : NamePolicy}
  {progress next : Progress}

/-- **A step on a task with inlined occurrences is a step on the task.** -/
theorem step_of_inlines (ranked : table.Ranked rank) (closed : table.Closed)
    {task inlined : Task} (inlines : table.InlinesTask task inlined) {inlinedLeft : List Task}
    (done : (Environment.mk schema flat).step policy progress inlined = .ok (next, inlinedLeft)) :
    ∃ left, (Environment.mk schema table).step policy progress task = .ok (next, left) ∧
      List.Forall₂ table.InlinesTask left inlinedLeft := by
  obtain ⟨inlinedPlan, planned, rfl, realized⟩ := step_eq_ok_iff.mp done
  obtain ⟨plan, plans, corresponds⟩ := exists_plan_of_inlines ranked closed inlines planned
  rw [← inlines.path] at realized
  have realizedToo := (Progress.realize_of_inlines corresponds progress schema _ _).trans realized
  exact ⟨plan.tasks, step_eq_ok_iff.mpr ⟨plan, plans, rfl, realizedToo⟩, corresponds.tasks⟩

theorem pass_of_inlines (ranked : table.Ranked rank) (closed : table.Closed)
    {tasks inlined inlinedLeft : List Task} (inlines : List.Forall₂ table.InlinesTask tasks inlined)
    (done : (Environment.mk schema flat).pass policy progress inlined = .ok (next, inlinedLeft)) :
    ∃ left, (Environment.mk schema table).pass policy progress tasks = .ok (next, left) ∧
      List.Forall₂ table.InlinesTask left inlinedLeft := by
  induction inlines generalizing progress inlinedLeft with
  | nil =>
      obtain ⟨rfl, rfl⟩ := Prod.mk.inj (Except.ok.inj done)
      exact ⟨[], rfl, .nil⟩
  | cons here _ ih =>
      obtain ⟨between, leftByFirst, leftByRest, first, passed, rfl⟩ := pass_cons_eq_ok_iff.mp done
      obtain ⟨left, stepped, leftInline⟩ := step_of_inlines ranked closed here first
      obtain ⟨later, passed', laterInline⟩ := ih passed
      refine ⟨left ++ later, ?_, List.rel_append leftInline laterInline⟩
      exact pass_cons_eq_ok_iff.mpr ⟨between, left, later, stepped, passed', rfl⟩

/-- **Passes over inlined tasks are passes over the tasks**, when they do not fail. -/
theorem Drains.of_inlines (ranked : table.Ranked rank) (closed : table.Closed)
    {tasks inlined : List Task} {passes : Nat} {outcome : Outcome Progress} {final : Progress}
    (drains : (Environment.mk schema flat).Drains policy progress inlined passes outcome)
    (succeeded : outcome = .ok final) (inlines : List.Forall₂ table.InlinesTask tasks inlined) :
    (Environment.mk schema table).Drains policy progress tasks passes (.ok final) := by
  induction drains generalizing tasks with
  | done =>
      obtain rfl := Except.ok.inj succeeded
      cases inlines
      exact .done _
  | failed => cases succeeded
  | pass passed _ ih =>
      obtain ⟨left, passed', leftInline⟩ := pass_of_inlines ranked closed inlines passed
      cases inlines with
      | cons => exact .pass passed' (ih succeeded leftInline)

/-! ## Operations -/

/-- The second operation is the first with its selections inlined. -/
structure InlinesOperation (table : FragmentTable) (operation inlined : OperationDefinition) :
    Prop where
  kind : operation.kind = inlined.kind
  name : operation.name = inlined.name
  items : table.Inlines operation.items inlined.items

variable {operation inlined : OperationDefinition} {catalog later : Catalog}

theorem planRoot_of_inlines (ranked : table.Ranked rank) (closed : table.Closed)
    {root : TypeDefinition} {items inlinedItems : List Selection} {path : Path}
    (inlines : table.Inlines items inlinedItems) {inlinedFields : List PlannedField}
    (planned : (Environment.mk schema flat).planRoot root inlinedItems path = .ok inlinedFields) :
    ∃ fields, (Environment.mk schema table).planRoot root items path = .ok fields ∧
      List.Forall₂ table.InlinesPlanned fields inlinedFields := by
  obtain ⟨inlinedVariants, collected, plans⟩ := bind_eq_ok_iff.mp planned
  obtain ⟨variants, collected', variantsInline⟩ :=
    collect_of_inlines ranked closed inlines collected
  have singles : List.Forall₂ table.InlinesOccurrences
      ((firstFields variants).map Occurrences.single)
      ((firstFields inlinedVariants).map Occurrences.single) := by
    rw [List.forall₂_map_left_iff, List.forall₂_map_right_iff]
    exact (firstFields_of_inlines variantsInline).imp fun _ _ => inlinesOccurrences_single
  obtain ⟨fields, plans', fieldsInline⟩ :=
    exists_plansFields singles (planFields_eq_ok_iff.mp plans)
  exact ⟨fields, bind_eq_ok_iff.mpr ⟨variants, collected', planFields_eq_ok_iff.mpr plans'⟩,
    fieldsInline⟩

/-- An operation starts as its inlined form does. -/
theorem start_of_inlines (ranked : table.Ranked rank) (closed : table.Closed)
    (inlines : InlinesOperation table operation inlined) {traversal : Traversal}
    (started : (Environment.mk schema flat).start policy catalog inlined = .ok traversal) :
    ∃ tasks, (Environment.mk schema table).start policy catalog operation =
      .ok { traversal with tasks } ∧ List.Forall₂ table.InlinesTask tasks traversal.tasks := by
  obtain ⟨name, root, inlinedFields, named, found, planned, startsWith⟩ :=
    start_eq_ok_iff.mp started
  obtain ⟨fields, planned', fieldsInline⟩ := planRoot_of_inlines ranked closed inlines.items planned
  obtain ⟨extended, added, same⟩ := bind_eq_ok_iff.mp startsWith
  obtain rfl := Except.ok.inj same
  rw [← Catalog.nameFields_of_inlines fieldsInline] at added
  refine ⟨PlannedField.tasks fields, start_eq_ok_iff.mpr ⟨name, root, fields,
    inlines.name.trans named, inlines.kind ▸ found, planned', ?_⟩, tasks_of_inlines fieldsInline⟩
  rw [startWith, inlines.kind]
  exact bind_eq_ok_iff.mpr ⟨extended, added, rfl⟩

/-- **An operation is completed as its inlined form is.** -/
theorem Completes.of_inlines (ranked : table.Ranked rank) (closed : table.Closed)
    (inlines : InlinesOperation table operation inlined) {model : OperationModel}
    (completes : (Environment.mk schema flat).Completes policy catalog inlined
      (.ok (later, model))) :
    (Environment.mk schema table).Completes policy catalog operation (.ok (later, model)) := by
  obtain ⟨traversal, passes, final, started, drains, result⟩ := completes_ok_iff.mp completes
  obtain ⟨tasks, started', tasksInline⟩ := start_of_inlines ranked closed inlines started
  exact completes_ok_iff.mpr
    ⟨_, passes, final, started', drains.of_inlines ranked closed rfl tasksInline, result⟩

theorem CompletesAll.of_inlines (ranked : table.Ranked rank) (closed : table.Closed)
    {operations inlinedOperations : List OperationDefinition}
    (inlines : List.Forall₂ (InlinesOperation table) operations inlinedOperations)
    {models : List OperationModel}
    (completes : (Environment.mk schema flat).CompletesAll policy catalog inlinedOperations
      (.ok (later, models))) :
    (Environment.mk schema table).CompletesAll policy catalog operations (.ok (later, models)) := by
  induction inlines generalizing catalog models with
  | nil =>
      cases completes
      exact .nil _
  | cons here _ ih =>
      obtain ⟨next, model, others, first, completesRest, rfl⟩ :=
        completesAll_cons_ok_iff.mp completes
      exact completesAll_cons_ok_iff.mpr
        ⟨next, model, others, first.of_inlines ranked closed here, ih completesRest, rfl⟩

end Environment

/-! ## Documents -/

/-- The second definition is the first with the fragments in its selections expanded. -/
inductive Definition.Expands (table : FragmentTable) : Definition → Definition → Prop where
  | operation {operation : OperationDefinition} {full : List Selection} :
      table.Expands operation.items full →
        Expands table (.operation operation) (.operation { operation with items := full })
  | fragment {fragment : FragmentDefinition} {full : List Selection} :
      table.Expands fragment.items full →
        Expands table (.fragment fragment) (.fragment { fragment with items := full })

/-- The selections of a definition. -/
def Definition.items : Definition → List Selection
  | operation definition => definition.items
  | fragment definition => definition.items

namespace Document

/-- All fragments that are spread in the documents are defined. -/
def Defines (table : FragmentTable) (documents : List Document) : Prop :=
  ∀ document ∈ documents, ∀ definition ∈ document, table.Defines definition.items

/-- The second documents are the first with all fragments expanded, definition by definition. -/
def Expands (table : FragmentTable) : List Document → List Document → Prop :=
  List.Forall₂ (List.Forall₂ (Definition.Expands table))

variable {table : FragmentTable} {documents expanded : List Document}

theorem exists_expansion {rank : String → Nat} (ranked : table.Ranked rank)
    (documents : List Document) : ∃ expanded, Expands table documents expanded := by
  have each : ∀ definition : Definition, ∃ full, Definition.Expands table definition full := by
    intro definition
    cases definition with
    | operation operation =>
        obtain ⟨full, expands⟩ := ranked.exists_expansion operation.items
        exact ⟨_, .operation expands⟩
    | fragment fragment =>
        obtain ⟨full, expands⟩ := ranked.exists_expansion fragment.items
        exact ⟨_, .fragment expands⟩
  choose full expands using each
  refine ⟨documents.map (List.map full), ?_⟩
  rw [Expands, List.forall₂_map_right_iff]
  refine List.forall₂_same.mpr fun document _ => ?_
  rw [List.forall₂_map_right_iff]
  exact List.forall₂_same.mpr fun definition _ => expands definition

/-- The operations of an expanded document are the operations, inlined. -/
theorem operations_of_expandsDocument {document full : Document}
    (expands : List.Forall₂ (Definition.Expands table) document full)
    (defined : ∀ definition ∈ document, table.Defines definition.items) :
    List.Forall₂ (Environment.InlinesOperation table) (document.filterMap Definition.operation?)
      (full.filterMap Definition.operation?) := by
  induction expands with
  | nil => exact .nil
  | cons first _ ih =>
      have here := defined _ List.mem_cons_self
      have later := ih fun other member => defined other (List.mem_cons_of_mem _ member)
      cases first with
      | operation expands => exact .cons ⟨rfl, rfl, expands.inlines here⟩ later
      | fragment _ => exact later

theorem operations_of_expands (expands : Expands table documents expanded)
    (defined : Defines table documents) :
    List.Forall₂ (Environment.InlinesOperation table) (operations documents)
      (operations expanded) := by
  induction expands with
  | nil => exact .nil
  | cons first _ ih =>
      have here := operations_of_expandsDocument first (defined _ List.mem_cons_self)
      exact List.rel_append here
        (ih fun other member => defined other (List.mem_cons_of_mem _ member))

/-- The fragments of expanded documents have the names of the fragments, and spread nothing. -/
theorem fragments_of_expands (expands : Expands table documents expanded) :
    List.Forall₂ (fun fragment full => fragment.name = full.name ∧ full.spreads = [])
      (fragments documents) (fragments expanded) := by
  refine List.rel_flatMap expands fun document full inside => ?_
  refine List.rel_filterMap (fun definition definition' here => ?_) inside
  cases here with
  | operation _ => exact .none
  | fragment expands => exact .some ⟨rfl, expands.listSpreads_eq_nil⟩

/-- **Expanded documents are accepted when the documents are.** -/
theorem ofDocuments_of_expands (accepted : FragmentTable.ofDocuments documents = .ok table)
    (expands : Expands table documents expanded) :
    FragmentTable.ofDocuments expanded = .ok ⟨fragments expanded⟩ := by
  obtain ⟨rfl, distinct, _⟩ := FragmentTable.ranked_of_ofDocuments accepted
  have related := fragments_of_expands expands
  refine FragmentTable.ofDocuments_of_no_spreads ?_ fun fragment member => ?_
  · rwa [← forall₂_map_eq (fun _ _ here => here.1) related]
  · obtain ⟨_, _, here⟩ := exists_left_of_mem related member
    exact here.2

/-- The fragments spread defined fragments when all definitions do. -/
theorem closed_of_defines (accepted : FragmentTable.ofDocuments documents = .ok table)
    (defined : Defines table documents) : table.Closed := by
  intro name fragment found
  have member := (FragmentTable.mem_of_find? found).1
  rw [(FragmentTable.ranked_of_ofDocuments accepted).1, fragments] at member
  obtain ⟨document, isDocument, inDocument⟩ := List.mem_flatMap.mp member
  obtain ⟨definition, isDefinition, same⟩ := List.mem_filterMap.mp inDocument
  have here := defined document isDocument definition isDefinition
  cases definition with
  | operation _ => cases same
  | fragment other =>
      obtain rfl := Option.some.inj same
      exact here

end Document

/-- **Entering a fragment once changes no result.** Let the documents be accepted and all fragments
that they spread be defined. Then they can be expanded, their expansion is accepted, and when its
operations can be built, in whatever schema and on whatever names and models there are, then the
operations of the documents as they are written are built with the same result. -/
theorem Environment.buildOperations_of_expands {documents : List Document}
    {table : FragmentTable} (accepted : FragmentTable.ofDocuments documents = .ok table)
    (defined : Document.Defines table documents) :
    (∃ expanded, Document.Expands table documents expanded) ∧
      ∀ expanded, Document.Expands table documents expanded →
        ∃ flat, FragmentTable.ofDocuments expanded = .ok flat ∧
          ∀ schema policy catalog result,
            (Environment.mk schema flat).buildOperations policy catalog
                (Document.operations expanded) = .ok result →
              (Environment.mk schema table).buildOperations policy catalog
                (Document.operations documents) = .ok result := by
  obtain ⟨_, _, rank, ranked⟩ := FragmentTable.ranked_of_ofDocuments accepted
  refine ⟨Document.exists_expansion ranked documents, fun expanded expands => ?_⟩
  have acceptedFlat := Document.ofDocuments_of_expands accepted expands
  obtain ⟨_, _, flatRank, flatRanked⟩ := FragmentTable.ranked_of_ofDocuments acceptedFlat
  refine ⟨_, acceptedFlat, fun schema policy catalog ⟨later, models⟩ built => ?_⟩
  have completes : (Environment.mk schema _).CompletesAll policy catalog _ (.ok (later, models)) :=
    completesAll_of_buildOperations flatRanked built
  exact buildOperations_of_completesAll (completes.of_inlines ranked
    (Document.closed_of_defines accepted defined) (Document.operations_of_expands expands defined))

namespace Sample

/-- What is selected on cats is spread twice. -/
def twiceDocuments : List Document :=
  [[.operation (query "Q" [pick "pet" [.spread "OfCat" [] ⟨1, 1⟩, .spread "OfCat" [] ⟨2, 1⟩]]),
    .fragment catFragment]]

/-- The same with the fragment in the places of its spreads. -/
def twiceExpanded : List Document :=
  [[.operation (query "Q" [pick "pet"
      [.inline (some "Cat") [] ⟨1, 1⟩ catFragment.span catFragment.items,
        .inline (some "Cat") [] ⟨2, 1⟩ catFragment.span catFragment.items]]),
    .fragment catFragment]]

theorem expands_twice : Document.Expands ⟨[catFragment]⟩ twiceDocuments twiceExpanded := by
  have body : FragmentTable.Expands ⟨[catFragment]⟩ catFragment.items catFragment.items :=
    .field (.field .nil .nil) .nil
  have spreads : FragmentTable.Expands ⟨[catFragment]⟩
      [.spread "OfCat" [] ⟨1, 1⟩, .spread "OfCat" [] ⟨2, 1⟩]
      [.inline (some "Cat") [] ⟨1, 1⟩ catFragment.span catFragment.items,
        .inline (some "Cat") [] ⟨2, 1⟩ catFragment.span catFragment.items] :=
    .spread rfl body (.spread rfl body .nil)
  exact .cons (.cons (.operation (.field spreads .nil)) (.cons (.fragment body) .nil)) .nil

end Sample

open Sample in
theorem Environment.buildOperations_of_twice :
    (petEnvironment.buildOperations ⟨[], []⟩ Catalog.empty (Document.operations twiceDocuments)).map
      Prod.snd = .ok [petModel] := by
  have accepted : FragmentTable.ofDocuments twiceDocuments = .ok ⟨[catFragment]⟩ :=
    accepted_of_catFragment rfl
  have defined : Document.Defines ⟨[catFragment]⟩ twiceDocuments := by
    simp [Document.Defines, twiceDocuments, Definition.items, FragmentTable.Defines, query, pick,
      catFragment, Selection.listSpreads, Selection.spreads, FragmentTable.find?]
  obtain ⟨flat, acceptedFlat, same⟩ :=
    (buildOperations_of_expands accepted defined).2 twiceExpanded expands_twice
  obtain rfl : (⟨[catFragment]⟩ : FragmentTable) = flat :=
    Except.ok.inj ((accepted_of_catFragment rfl).symm.trans acceptedFlat)
  have built : (petEnvironment.buildOperations ⟨[], []⟩ Catalog.empty
      (Document.operations twiceExpanded)).map Prod.snd = .ok [petModel] :=
    map_buildOperations_of_within 4 (by decide +kernel)
  obtain ⟨⟨later, models⟩, built, sameModels⟩ := map_eq_ok_iff.mp built
  exact map_eq_ok_iff.mpr ⟨_, same petSchema _ _ _ built, sameModels⟩

end ResponseShape

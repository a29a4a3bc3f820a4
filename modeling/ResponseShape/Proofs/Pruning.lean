import ResponseShape.Proofs.PlainRuns

/-!
# Documents without what is excluded

Selections that are excluded by a literal condition are passed over when they are met, and until
then they travel inside of the nodes around them and count when nodes are compared. They may as well
be deleted first, at every depth of all operations and fragments (`Document.prune`): the fragments
are still accepted, and the operations are built with the same result, or fail for the same reason
(`Environment.buildOperations_of_prune`). Which conditions these are is said apart from the test
that collecting makes (`LiterallyExcluded`), and the test decides it (`isExcluded_iff`).

Deleting them leaves the plain form of all selections as it is (`Selection.listPlain_pruneAll`), and
what is built is told by plain forms.
-/

set_option autoImplicit false

namespace ResponseShape

/-! ## Literal conditions -/

/-- The first argument `if` of the directive is written as the truth value. A condition that is left
to a variable, or that is missing, is written as none. -/
def Directive.WritesIf (directive : Directive) (truth : Bool) : Prop :=
  ∃ earlier argument later, directive.arguments = earlier ++ argument :: later ∧
    (∀ other ∈ earlier, other.name ≠ "if") ∧
    argument.name = "if" ∧ argument.value = .boolean truth

/-- Among the directives there is a `@skip` whose condition is written as true or an `@include`
whose condition is written as false. -/
def LiterallyExcluded (directives : List Directive) : Prop :=
  ∃ directive ∈ directives,
    directive.name = "skip" ∧ directive.WritesIf true ∨
      directive.name = "include" ∧ directive.WritesIf false

theorem Directive.literalCondition?_eq_some_iff {directive : Directive} {truth : Bool} :
    directive.literalCondition? = some truth ↔ directive.WritesIf truth := by
  have literal : ∀ value : Value, value.literalBool? = some truth ↔ value = .boolean truth := by
    intro value
    cases value <;> simp [Value.literalBool?]
  simp only [literalCondition?, Option.bind_eq_some_iff, List.find?_eq_some_iff_append, literal]
  constructor
  · rintro ⟨argument, ⟨isIf, earlier, later, same, apart⟩, written⟩
    exact ⟨earlier, argument, later, same, fun other member => by simpa using apart other member,
      beq_iff_eq.mp isIf, written⟩
  · rintro ⟨earlier, argument, later, same, apart, isIf, written⟩
    exact ⟨argument, ⟨beq_iff_eq.mpr isIf, earlier, later, same,
      fun other member => by simpa using apart other member⟩, written⟩

/-- **What collecting passes over is what a literal condition excludes.** -/
theorem isExcluded_iff {directives : List Directive} :
    isExcluded directives = true ↔ LiterallyExcluded directives := by
  simp only [isExcluded, LiterallyExcluded, List.any_eq_true, Directive.excludes, Bool.or_eq_true,
    Bool.and_eq_true, beq_iff_eq, Directive.literalCondition?_eq_some_iff]

instance (directives : List Directive) : Decidable (LiterallyExcluded directives) :=
  decidable_of_iff _ isExcluded_iff

/-! ## Pruning -/

namespace Selection

mutual

/-- The selection without what is excluded in it. -/
def prune : Selection → Selection
  | field head span items => field head span (pruneAll items)
  | spread name directives position => spread name directives position
  | inline condition directives position span items =>
      inline condition directives position span (pruneAll items)

/-- The selections that are not excluded, without what is excluded in them. -/
def pruneAll : List Selection → List Selection
  | [] => []
  | selection :: rest =>
      if LiterallyExcluded selection.directives then pruneAll rest
      else selection.prune :: pruneAll rest

end

theorem directives_prune (selection : Selection) :
    selection.prune.directives = selection.directives := by
  cases selection <;> rfl

mutual

theorem plain_prune : ∀ selection : Selection, selection.prune.plain = selection.plain
  | .field _ _ items => by rw [prune, plain, plain, listPlain_pruneAll items]
  | .spread _ _ _ => by rw [prune]
  | .inline _ _ _ _ items => by rw [prune, plain, plain, listPlain_pruneAll items]

/-- **Pruned selections have the plain form of the selections.** -/
theorem listPlain_pruneAll : ∀ items : List Selection, listPlain (pruneAll items) = listPlain items
  | [] => rfl
  | selection :: rest => by
      rw [pruneAll, listPlain]
      by_cases excluded : isExcluded selection.directives = true
      · rw [if_pos (isExcluded_iff.mp excluded), if_pos excluded, listPlain_pruneAll rest]
      · rw [if_neg fun literally => excluded (isExcluded_iff.mpr literally), if_neg excluded,
          listPlain, directives_prune, if_neg excluded, plain_prune selection,
          listPlain_pruneAll rest]

end

mutual

/-- A pruned selection spreads no other fragments. -/
theorem spreads_prune : ∀ selection : Selection, selection.prune.spreads ⊆ selection.spreads
  | .field _ _ items => by
      rw [prune, spreads, spreads]
      exact listSpreads_pruneAll items
  | .spread _ _ _ => fun _ member => member
  | .inline _ _ _ _ items => by
      rw [prune, spreads, spreads]
      exact listSpreads_pruneAll items

theorem listSpreads_pruneAll : ∀ items : List Selection,
    listSpreads (pruneAll items) ⊆ listSpreads items
  | [] => fun _ member => member
  | selection :: rest => by
      intro spread member
      rw [pruneAll] at member
      rw [listSpreads, List.mem_append]
      split at member
      · exact .inr (listSpreads_pruneAll rest member)
      · rw [listSpreads, List.mem_append] at member
        exact member.imp (fun here => spreads_prune selection here)
          (fun later => listSpreads_pruneAll rest later)

end

end Selection

/-- The operation without what is excluded. -/
def OperationDefinition.prune (operation : OperationDefinition) : OperationDefinition :=
  { operation with items := Selection.pruneAll operation.items }

/-- The fragment without what is excluded in its body. -/
def FragmentDefinition.prune (fragment : FragmentDefinition) : FragmentDefinition :=
  { fragment with items := Selection.pruneAll fragment.items }

/-- The definition without what is excluded. -/
def Definition.prune : Definition → Definition
  | operation definition => operation definition.prune
  | fragment definition => fragment definition.prune

/-- The fragments without what is excluded in their bodies. -/
def FragmentTable.prune (table : FragmentTable) : FragmentTable :=
  ⟨table.fragments.map FragmentDefinition.prune⟩

namespace Document

/-- The document with all selections deleted, at every depth, that a literal condition excludes. -/
def prune (document : Document) : Document :=
  document.map Definition.prune

/-- What is read off definitions one by one is pruned when the definitions are. -/
theorem filterMap_prune {α : Type} {part? : Definition → Option α} {change : α → α}
    (each : ∀ definition : Definition, part? definition.prune = (part? definition).map change)
    (documents : List Document) :
    (documents.map prune).flatMap (fun document => document.filterMap part?) =
      (documents.flatMap (fun document => document.filterMap part?)).map change := by
  simp only [prune, List.flatMap_map, List.map_flatMap, List.filterMap_map, List.map_filterMap]
  refine congrArg (fun parts => List.flatMap parts documents) (funext fun document => ?_)
  exact congrArg (fun part? => List.filterMap part? document) (funext each)

theorem operations_prune (documents : List Document) :
    operations (documents.map prune) = (operations documents).map OperationDefinition.prune := by
  refine filterMap_prune (fun definition => ?_) documents
  cases definition <;> rfl

theorem fragments_prune (documents : List Document) :
    fragments (documents.map prune) = (fragments documents).map FragmentDefinition.prune := by
  refine filterMap_prune (fun definition => ?_) documents
  cases definition <;> rfl

end Document

/-! ## Pruned fragments -/

namespace FragmentTable

variable {table : FragmentTable}

theorem plain_prune (table : FragmentTable) : table.prune.plain = table.plain := by
  rw [plain, plain, prune, List.map_map]
  refine congrArg FragmentTable.mk (List.map_congr_left fun fragment _ => ?_)
  rw [Function.comp_apply, FragmentDefinition.plain, FragmentDefinition.prune,
    Selection.listPlain_pruneAll]
  rfl

theorem find?_prune (table : FragmentTable) (name : String) :
    table.prune.find? name = (table.find? name).map FragmentDefinition.prune := by
  rw [find?, find?, prune, List.find?_map]
  rfl

/-- Pruned fragments keep their ranks. -/
theorem Ranked.prune {rank : String → Nat} (ranked : table.Ranked rank) :
    table.prune.Ranked rank := by
  intro name fragment found spread isSpread defined
  rw [find?_prune] at found defined
  rw [Option.isSome_map] at defined
  obtain ⟨whole, isFound, rfl⟩ := Option.map_eq_some_iff.mp found
  exact ranked name whole isFound spread (Selection.listSpreads_pruneAll whole.items isSpread)
    defined

/-- **Pruned documents are accepted when the documents are.** -/
theorem ofDocuments_prune {documents : List Document}
    (accepted : ofDocuments documents = .ok table) :
    ofDocuments (documents.map Document.prune) = .ok table.prune := by
  obtain ⟨rfl, distinct, rank, ranked⟩ := ranked_of_ofDocuments accepted
  have pruned : (⟨Document.fragments (documents.map Document.prune)⟩ : FragmentTable) =
      prune ⟨Document.fragments documents⟩ := by
    rw [Document.fragments_prune]
    rfl
  rw [← pruned]
  refine ofDocuments_of_ranked ?_ (pruned ▸ ranked.prune)
  rw [Document.fragments_prune, List.map_map]
  exact distinct

end FragmentTable

/-! ## Pruned documents -/

theorem OperationDefinition.plain_prune (operation : OperationDefinition) :
    operation.prune.plain = operation.plain := by
  rw [plain, plain, prune, Selection.listPlain_pruneAll]

/-- **What a literal condition excludes may be deleted first.** When the fragments of the documents
are accepted, then so are those of the pruned documents, and whatever schema, names and models there
are and whatever names are reserved, the operations of the pruned documents are built with the same
result as those of the documents, errors included. -/
theorem Environment.buildOperations_of_prune {documents : List Document} {table : FragmentTable}
    (accepted : FragmentTable.ofDocuments documents = .ok table) :
    ∃ pruned, FragmentTable.ofDocuments (documents.map Document.prune) = .ok pruned ∧
      ∀ schema policy catalog,
        (Environment.mk schema pruned).buildOperations policy catalog
            (Document.operations (documents.map Document.prune)) =
          (Environment.mk schema table).buildOperations policy catalog
            (Document.operations documents) := by
  obtain ⟨_, _, rank, ranked⟩ := FragmentTable.ranked_of_ofDocuments accepted
  refine ⟨table.prune, FragmentTable.ofDocuments_prune accepted, fun schema policy catalog => ?_⟩
  have alike : (Environment.mk schema table.prune).plain = (Environment.mk schema table).plain :=
    congrArg (Environment.mk schema) table.plain_prune
  refine buildOperations_eq_of_plain alike ranked.prune ?_
  rw [Document.operations_prune, List.map_map]
  exact List.map_congr_left fun operation _ => operation.plain_prune

namespace Sample

/-- Nothing that carries this is selected. -/
def skipped : Directive :=
  ⟨"skip", [⟨"if", .boolean true⟩], ⟨1, 1⟩⟩

/-- Nor is what carries this. -/
def notIncluded : Directive :=
  ⟨"include", [⟨"if", .boolean false⟩], ⟨1, 1⟩⟩

/-- The owners of dogs are asked for their moods as well, and for a field that they do not have, and
a fragment is spread that is not defined, but all three are excluded. -/
def skippingDocuments : List Document :=
  [[.operation (query "Q" [pick "pet"
      [onType "Dog"
        [pick "owner" [pick "name" [], .inline none [skipped] ⟨1, 1⟩ ⟨⟨1, 1⟩, ⟨1, 1⟩⟩
          [pick "mood" []],
          .field ⟨none, "age", [], [notIncluded], ⟨1, 1⟩⟩ ⟨⟨1, 1⟩, ⟨1, 1⟩⟩ []]],
        .spread "OfCat" [] ⟨1, 1⟩, .spread "Missing" [notIncluded] ⟨1, 1⟩]]),
    .fragment catFragment]]

theorem prune_skipping : skippingDocuments.map Document.prune = petDocuments :=
  rfl

end Sample

open Sample in
theorem Environment.buildOperations_of_skipping :
    skippingDocuments.map Document.prune = petDocuments ∧
      petEnvironment.buildOperations ⟨[], []⟩ Catalog.empty (Document.operations petDocuments) =
        petEnvironment.buildOperations ⟨[], []⟩ Catalog.empty
          (Document.operations skippingDocuments) ∧
      (petEnvironment.buildOperations ⟨[], []⟩ Catalog.empty
        (Document.operations skippingDocuments)).map Prod.snd = .ok [petModel] := by
  have accepted : FragmentTable.ofDocuments skippingDocuments = .ok ⟨[catFragment]⟩ :=
    accepted_of_catFragment rfl
  obtain ⟨pruned, acceptedPruned, same⟩ := buildOperations_of_prune accepted
  rw [prune_skipping] at acceptedPruned same
  have isTable : FragmentTable.ofDocuments petDocuments = .ok ⟨[catFragment]⟩ :=
    accepted_of_catFragment rfl
  obtain rfl := Except.ok.inj (acceptedPruned.symm.trans isTable)
  have built : petEnvironment.buildOperations ⟨[], []⟩ Catalog.empty
        (Document.operations petDocuments) =
      petEnvironment.buildOperations ⟨[], []⟩ Catalog.empty
        (Document.operations skippingDocuments) := same petSchema ⟨[], []⟩ Catalog.empty
  refine ⟨prune_skipping, built, ?_⟩
  rw [← built]
  exact map_buildOperations_of_within 4 (by decide +kernel)

end ResponseShape

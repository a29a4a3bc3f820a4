import ResponseShape.Proofs.Children
import ResponseShape.Proofs.Inlining

/-!
# What equals itself

A float that is no number equals nothing, and everything else equals itself. So a value, an
argument, a selection or a node equals itself exactly when there is no such number in its arguments
and in those of its directives, at any depth (`Value.equals_self`, `Selection.equals_self`,
`FieldNode.equals_self`).

Where all fragments equal themselves, equality goes along with walks and with merging
(`Selection.congruence_equals`). Then selections that are equal as they are written select fields of
one definition with equal nodes, on the type itself (`Environment.collectFor_of_equals`) and on all
its possible types (`Environment.collect_of_equals`).
-/

set_option autoImplicit false

namespace ResponseShape

/-! ## Values -/

/-- A number equals itself, if it is one. -/
theorem Binary64.equals_self (number : Binary64) : number.equals number = !number.isNaN := by
  simp [equals]

namespace Value

mutual

/-- Whether every float in the value is a number. -/
def withoutNaN : Value → Bool
  | float number => !number.isNaN
  | list items => itemsWithoutNaN items
  | object fields => fieldsWithoutNaN fields
  | null | .variable _ | int _ | string _ | boolean _ | enum _ => true

/-- Whether every float in the values is a number. -/
def itemsWithoutNaN : List Value → Bool
  | [] => true
  | value :: rest => value.withoutNaN && itemsWithoutNaN rest

/-- Whether every float in the fields is a number. -/
def fieldsWithoutNaN : List (String × Value) → Bool
  | [] => true
  | (_, value) :: rest => value.withoutNaN && fieldsWithoutNaN rest

end

mutual

/-- **A value equals itself exactly when every float in it is a number.** -/
theorem equals_self : ∀ value : Value, value.equals value = value.withoutNaN
  | null => rfl
  | .variable name => by simp [equals, withoutNaN]
  | int number => by simp [equals, withoutNaN]
  | float number => by rw [equals, withoutNaN, Binary64.equals_self]
  | string text => by simp [equals, withoutNaN]
  | boolean value => by simp [equals, withoutNaN]
  | enum name => by simp [equals, withoutNaN]
  | list items => by rw [equals, withoutNaN, itemsEqual_self]
  | object fields => by rw [equals, withoutNaN, fieldsEqual_self]

theorem itemsEqual_self : ∀ items : List Value, itemsEqual items items = itemsWithoutNaN items
  | [] => rfl
  | value :: rest => by rw [itemsEqual, itemsWithoutNaN, equals_self value, itemsEqual_self rest]

theorem fieldsEqual_self : ∀ fields : List (String × Value),
    fieldsEqual fields fields = fieldsWithoutNaN fields
  | [] => rfl
  | (name, value) :: rest => by
      rw [fieldsEqual, fieldsWithoutNaN, equals_self value, fieldsEqual_self rest,
        beq_self_eq_true, Bool.true_and]

end

end Value

/-! ## Arguments and directives -/

namespace Argument

/-- Whether every float in the argument is a number. -/
def withoutNaN (argument : Argument) : Bool :=
  argument.value.withoutNaN

theorem equals_self (argument : Argument) : argument.equals argument = argument.withoutNaN := by
  rw [equals, beq_self_eq_true, Bool.true_and, Value.equals_self, withoutNaN]

theorem listEquals_self (arguments : List Argument) :
    listEquals arguments arguments = arguments.all withoutNaN := by
  induction arguments with
  | nil => rfl
  | cons argument rest ih => rw [listEquals, equals_self, ih, List.all_cons]

end Argument

namespace Directive

/-- Whether every float in the arguments of the directive is a number. -/
def withoutNaN (directive : Directive) : Bool :=
  directive.arguments.all Argument.withoutNaN

theorem equals_self (directive : Directive) :
    directive.equals directive = directive.withoutNaN := by
  rw [equals, beq_self_eq_true, beq_self_eq_true, Bool.true_and, Bool.and_true,
    Argument.listEquals_self, withoutNaN]

theorem listEquals_self (directives : List Directive) :
    listEquals directives directives = directives.all withoutNaN := by
  induction directives with
  | nil => rfl
  | cons directive rest ih => rw [listEquals, equals_self, ih, List.all_cons]

end Directive

/-! ## Selections -/

/-- Whether every float in the arguments and directives of the field is a number. -/
def FieldHead.withoutNaN (head : FieldHead) : Bool :=
  head.arguments.all Argument.withoutNaN && head.directives.all Directive.withoutNaN

theorem FieldHead.equals_self (head : FieldHead) : head.equals head = head.withoutNaN := by
  simp only [equals, beq_self_eq_true, Bool.true_and, Bool.and_true, Argument.listEquals_self,
    Directive.listEquals_self, withoutNaN]

namespace Selection

mutual

/-- Whether every float in the selection is a number. -/
def withoutNaN : Selection → Bool
  | field head _ items => head.withoutNaN && listWithoutNaN items
  | spread _ directives _ => directives.all Directive.withoutNaN
  | inline _ directives _ _ items => directives.all Directive.withoutNaN && listWithoutNaN items

/-- Whether every float in the selections is a number. -/
def listWithoutNaN : List Selection → Bool
  | [] => true
  | selection :: rest => selection.withoutNaN && listWithoutNaN rest

end

mutual

/-- **A selection equals itself exactly when every float in it is a number.** -/
theorem equals_self : ∀ selection : Selection, selection.equals selection = selection.withoutNaN
  | field head span items => by
      rw [equals, withoutNaN, FieldHead.equals_self, beq_self_eq_true, Bool.and_true,
        listEquals_self items]
  | spread name directives position => by
      rw [equals, withoutNaN, beq_self_eq_true, beq_self_eq_true, Bool.true_and, Bool.and_true,
        Directive.listEquals_self]
  | inline condition directives position span items => by
      simp only [equals, withoutNaN, beq_self_eq_true, Bool.true_and, Bool.and_true,
        Directive.listEquals_self, listEquals_self items]

theorem listEquals_self : ∀ items : List Selection, listEquals items items = listWithoutNaN items
  | [] => rfl
  | selection :: rest => by
      rw [listEquals, listWithoutNaN, equals_self selection, listEquals_self rest]

end

theorem listEquals_iff {left right : List Selection} :
    listEquals left right = true ↔
      List.Forall₂ (fun first second => first.equals second = true) left right := by
  induction left generalizing right with
  | nil => cases right <;> simp [listEquals]
  | cons first rest ih => cases right <;> simp [listEquals, ih]

end Selection

/-- Whether every float in the field and its selections is a number. -/
def FieldNode.withoutNaN (node : FieldNode) : Bool :=
  node.head.withoutNaN && Selection.listWithoutNaN node.items

/-- **A node equals itself exactly when every float in it is a number.** -/
theorem FieldNode.equals_self (node : FieldNode) : node.equals node = node.withoutNaN := by
  rw [equals, FieldHead.equals_self, beq_self_eq_true, Bool.and_true, Selection.listEquals_self,
    withoutNaN]

/-- Whether every float in the fragments is a number. -/
def FragmentTable.withoutNaN (table : FragmentTable) : Bool :=
  table.fragments.all (fun fragment => Selection.listWithoutNaN fragment.items)

/-! ## Walks of equal selections -/

namespace FieldNode

theorem equals_iff {left right : FieldNode} :
    left.equals right = true ↔ left.head.equals right.head = true ∧ left.span = right.span ∧
      List.Forall₂ (fun first second => first.equals second = true) left.items right.items := by
  simp only [equals, Bool.and_eq_true, beq_iff_eq, Selection.listEquals_iff, and_assoc]

/-- Equal nodes are equal once they are merged. -/
theorem merged_of_equals {nodes nodes' : List FieldNode}
    (same : List.Forall₂ (fun left right => left.equals right = true) nodes nodes') :
    List.Forall₂ (fun left right => left.equals right = true) (merged nodes) (merged nodes') := by
  refine OrderedMap.forall₂_groupBy (fun _ _ here => responseName_of_equals here) ?_ same
  intro items others related
  cases related with
  | nil => exact .none
  | cons first rest =>
      obtain ⟨head, span, _⟩ := equals_iff.mp first
      refine .some (equals_iff.mpr ⟨head, span, ?_⟩)
      apply List.rel_flatMap (R := fun left right => equals left right = true) (.cons first rest)
      intro left right here
      exact (equals_iff.mp here).2.2

end FieldNode

/-- **Equality goes along with walks.** -/
theorem Selection.congruence_equals :
    Selection.Congruence (fun left right => left.equals right = true)
      (fun left right => left.equals right = true) where
  excluded same := Selection.Alike.isExcluded_eq (.inr same)
  field := by
    intro head span items other same
    cases other with
    | field head' span' items' =>
        refine ⟨head', span', items', rfl, ?_⟩
        rw [equals] at same
        exact same
    | spread => simp [equals] at same
    | inline => simp [equals] at same
  inline := by
    intro condition directives position span items other same
    cases other with
    | inline condition' directives' position' span' items' =>
        simp only [equals, Bool.and_eq_true, beq_iff_eq] at same
        obtain ⟨⟨⟨⟨rfl, _⟩, rfl⟩, rfl⟩, items⟩ := same
        exact ⟨directives', items', rfl, listEquals_iff.mp items⟩
    | field => simp [equals] at same
    | spread => simp [equals] at same
  spread := by
    intro name directives position other same
    obtain ⟨directives', rfl, _⟩ := Selection.Alike.exists_spread (.inr same)
    exact ⟨directives', rfl⟩
  alike := FieldNode.alike_of_equals
  merged := FieldNode.merged_of_equals

/-- Fields with one definition, at one path, with equal nodes. -/
structure SelectedField.Twin (left right : SelectedField) : Prop where
  definition : left.definition = right.definition
  setPath : left.setPath = right.setPath
  node : left.node.equals right.node = true

namespace SelectedField.Twin

variable {left right : SelectedField}

theorem responseName_eq (twin : left.Twin right) : left.responseName = right.responseName :=
  FieldNode.responseName_of_equals twin.node

theorem namedType_eq (twin : left.Twin right) : left.namedType = right.namedType :=
  congrArg (fun definition => definition.type.namedType) twin.definition

theorem symm (twin : left.Twin right) : right.Twin left :=
  ⟨twin.definition.symm, twin.setPath.symm, FieldNode.equals_symm twin.node⟩

end SelectedField.Twin

theorem Variant.twins_symm {left right : Variant SelectedField}
    (related : Variant.Related SelectedField.Twin left right) :
    Variant.Related SelectedField.Twin right left :=
  ⟨related.1.symm, related.2.flip.imp fun _ _ => SelectedField.Twin.symm⟩

namespace Environment

variable {environment : Environment} {runtime scope type : TypeDefinition} {path : Path}
  {items items' : List Selection}

/-- **Equal selections select twins.** -/
theorem collectFor_of_equals (numbers : environment.fragments.withoutNaN = true)
    {fields : List SelectedField} (same : Selection.listEquals items items' = true)
    (collected : environment.collectFor runtime scope items path = .ok fields) :
    ∃ fields', environment.collectFor runtime scope items' path = .ok fields' ∧
      List.Forall₂ SelectedField.Twin fields fields' := by
  have bodies : ∀ fragment ∈ environment.fragments.fragments,
      List.Forall₂ (fun left right => Selection.equals left right = true) fragment.items
        fragment.items := by
    intro fragment member
    rw [← Selection.listEquals_iff, Selection.listEquals_self]
    exact List.all_eq_true.mp numbers fragment member
  obtain ⟨fields', collected', related⟩ := collectFor_of_related Selection.congruence_equals
    bodies (Selection.listEquals_iff.mp same) collected
  exact ⟨fields', collected', related.imp fun _ _ ⟨definition, setPath, node⟩ =>
    ⟨definition, setPath, node⟩⟩

/-- **Equal selections select twins on every possible type.** -/
theorem collect_of_equals (numbers : environment.fragments.withoutNaN = true)
    {variants : List (Variant SelectedField)} (same : Selection.listEquals items items' = true)
    (collected : environment.collect type items path = .ok variants) :
    ∃ variants', environment.collect type items' path = .ok variants' ∧
      List.Forall₂ (Variant.Related SelectedField.Twin) variants variants' :=
  collect_of_collectFor (fun _ _ => collectFor_of_equals numbers same) collected

end Environment

end ResponseShape

import ResponseShape.Proofs.Alike
import ResponseShape.Proofs.Chains
import ResponseShape.Proofs.EnumLinks

/-!
# Collecting is flattening and then grouping

A selection set can be read in two phases. The first flattens it: it lists what is met in document
order, which is the field nodes, the names of the fragments that are spread for the first time, and
the type conditions with the scopes in which they stand (`Environment.flatten`). An inline fragment
without a condition is always entered, and other fragments are when their conditions apply. Nothing
is judged: a fragment whose condition names no type is not entered, and that is all. The second
phase looks at the list. It asks that every fragment and condition of the list is acceptable, groups
the nodes by their response names and joins each group.

The program does both at once, and stops at the first thing that is not acceptable. Its walks are
the flattened lists in which all is acceptable (`Environment.exists_walk_iff_flatten`), so it
succeeds exactly when both phases do, and with the same fields (`Environment.Flattens`).

This is so for every runtime type to which the scope of the set applies, and sets are read for such
types only: for the scope itself and for its possible types (`Environment.collectFor_flattens`). For
another runtime type the program would pass an inline fragment without a condition, because it asks
of every fragment whether its type applies, and such a fragment has the type of the scope
(`Environment.exists_not_flattens`).
-/

set_option autoImplicit false

namespace ResponseShape

/-! ## What is met -/

/-- What is met in a selection set: a field, a fragment that is spread for the first time, or a
type condition in its scope. -/
inductive Meeting where
  | field (node : FieldNode)
  | fragment (name : String)
  | condition (name : String) (scope : TypeDefinition) (position : Position)

namespace Meeting

/-- The condition of an inline fragment, if it has one. -/
def ofCondition (condition : Option String) (scope : TypeDefinition) (position : Position) :
    List Meeting :=
  condition.toList.map (fun name => .condition name scope position)

/-- The field nodes among what is met. -/
def nodes (met : List Meeting) : List FieldNode :=
  met.filterMap fun
    | field node => some node
    | fragment _ | condition _ _ _ => none

/-- The fragment is known, or the condition is accepted in its scope. -/
def Accepted (environment : Environment) (path : Path) : Meeting → Prop
  | field _ => True
  | fragment name => ∃ body, environment.fragments.find? name = some body
  | condition name scope position =>
      ∃ type, environment.resolveCondition name scope path position = .ok type

section Accepted

variable {environment : Environment} {path : Path} {scope : TypeDefinition} {position : Position}

end Accepted

end Meeting

namespace Environment

/-- The selections of a fragment, when it is entered for values of the type `runtime`: it has no
condition, or a condition that applies to the type. -/
def entered (environment : Environment) (runtime scope : TypeDefinition)
    (condition : Option String) (items : List Selection) : List ScopedSelection :=
  match condition with
  | none => ScopedSelection.inScope scope items
  | some name =>
      match environment.schema.type? name with
      | none => []
      | some type =>
          if type.appliesTo runtime then ScopedSelection.inScope type items else []

theorem agendaSize_entered_append_le (environment : Environment) (runtime scope : TypeDefinition)
    (condition : Option String) (items : List Selection) (agenda : List ScopedSelection) :
    ScopedSelection.agendaSize (environment.entered runtime scope condition items ++ agenda) ≤
      Selection.listSize items + ScopedSelection.agendaSize agenda := by
  unfold entered
  split
  · exact Nat.le_of_eq (ScopedSelection.agendaSize_inScope_append scope items agenda)
  · split
    · simp
    · split
      · exact Nat.le_of_eq (ScopedSelection.agendaSize_inScope_append _ items agenda)
      · simp

/-- What an agenda has to meet for values of the type `runtime`, when the fragments `spread` were
spread before. -/
def flatten (environment : Environment) (runtime : TypeDefinition) (spread : List String) :
    List ScopedSelection → List Meeting
  | [] => []
  | ⟨_, .field head span items⟩ :: agenda =>
      if isExcluded head.directives then flatten environment runtime spread agenda
      else .field ⟨head, span, items⟩ :: flatten environment runtime spread agenda
  | ⟨scope, .inline condition directives position _ items⟩ :: agenda =>
      if isExcluded directives then flatten environment runtime spread agenda
      else
        Meeting.ofCondition condition scope position ++
          flatten environment runtime spread
            (environment.entered runtime scope condition items ++ agenda)
  | ⟨scope, .spread name directives position⟩ :: agenda =>
      if isExcluded directives then flatten environment runtime spread agenda
      else
        match _ : spread.contains name with
        | true => flatten environment runtime spread agenda
        | false =>
            match _ : environment.fragments.find? name with
            | none => .fragment name :: flatten environment runtime (name :: spread) agenda
            | some fragment =>
                .fragment name :: .condition fragment.condition scope position ::
                  flatten environment runtime (name :: spread)
                    (environment.entered runtime scope (some fragment.condition) fragment.items ++
                      agenda)
termination_by agenda =>
  ScopedSelection.agendaSize agenda +
    environment.fragments.unmetWeight FragmentDefinition.size spread
decreasing_by
  all_goals simp only [ScopedSelection.agendaSize_cons, Selection.size]
  · omega
  · omega
  · omega
  · have inside := agendaSize_entered_append_le environment runtime scope condition items agenda
    omega
  · omega
  · omega
  · have fewer : environment.fragments.unmetWeight FragmentDefinition.size (name :: spread) ≤
        environment.fragments.unmetWeight FragmentDefinition.size spread :=
      FragmentTable.unmetWeight_cons_le _ _ _ _
    omega
  · have inside := agendaSize_entered_append_le environment runtime scope
      (some fragment.condition) fragment.items agenda
    have bound := FragmentTable.weight_add_unmetWeight_le FragmentDefinition.size ‹_› ‹_›
    simp only [FragmentDefinition.size] at bound inside ⊢
    omega

variable {environment : Environment} {runtime scope type : TypeDefinition} {path : Path}

section Steps

variable {agenda : List ScopedSelection} {spread after : List String} {nodes : List FieldNode}
  {directives : List Directive} {position : Position}

end Steps

/-! ## Walks are accepted flattenings -/

end Environment

/-! ## Groups of nodes -/

namespace FieldNode

end FieldNode

/-! ## Collecting -/

namespace Environment

/-- What is met in a selection set that is read for values of the type `runtime`. -/
def meetings (environment : Environment) (runtime scope : TypeDefinition)
    (items : List Selection) : List Meeting :=
  environment.flatten runtime [] (ScopedSelection.inScope scope items)

/-- The field nodes that are met in a selection set. -/
def occurrences (environment : Environment) (runtime scope : TypeDefinition)
    (items : List Selection) : List FieldNode :=
  Meeting.nodes (environment.meetings runtime scope items)

/-- Collecting the set is flattening it and then grouping. It succeeds exactly when every fragment
and every condition that is met is accepted, the occurrences of each response name select one field
with arguments equal to those of the first, and the runtime type has the field. It gives one field
for each response name, in the order in which the names are first met: the first occurrence with the
selections of all. -/
structure Flattens (environment : Environment) (runtime scope : TypeDefinition)
    (items : List Selection) (path : Path) : Prop where
  succeeds_iff : (∃ fields, environment.collectFor runtime scope items path = .ok fields) ↔
    (∀ met ∈ environment.meetings runtime scope items, met.Accepted environment path) ∧
    ∀ name first others, (environment.occurrences runtime scope items).filter
        (fun node => node.responseName = name) = first :: others →
      (∀ other ∈ others, other.head.name = first.head.name ∧
        Argument.agree first.head.arguments other.head.arguments = true) ∧
      (runtime.field? first.head.name).isSome = true
  names : ∀ fields, environment.collectFor runtime scope items path = .ok fields →
    fields.map SelectedField.responseName =
      OrderedSet.ofList
        ((environment.occurrences runtime scope items).map FieldNode.responseName)
  merged : ∀ fields, environment.collectFor runtime scope items path = .ok fields →
    ∀ field ∈ fields, ∃ first others,
      (environment.occurrences runtime scope items).filter
        (fun node => node.responseName = field.responseName) = first :: others ∧
      field.node = { first with items := (first :: others).flatMap FieldNode.items } ∧
      runtime.field? first.head.name = some field.definition ∧ field.setPath = path

variable {environment : Environment} {runtime scope : TypeDefinition} {path : Path}

open Sample

/-- The owners are asked for their names in a fragment without a condition, and those of dogs for
their moods. -/
def ownerItems : List Selection :=
  [.inline none [] ⟨1, 1⟩ ⟨⟨1, 1⟩, ⟨1, 1⟩⟩ [pick "owner" [pick "name" []]],
    onType "Dog" [pick "owner" [pick "mood" []]]]

/-- In the scope of cats, a fragment without a condition is passed for dogs. -/
theorem exists_not_flattens :
    ∃ (environment : Environment) (runtime scope : TypeDefinition) (items : List Selection)
      (path : Path), ¬ environment.Flattens runtime scope items path := by
  refine ⟨petEnvironment, dogType, catType, ownerItems.take 1, ⟨["Q", "pet"]⟩,
    fun flattens => ?_⟩
  have done : (petEnvironment.collectFor dogType catType (ownerItems.take 1) ⟨["Q", "pet"]⟩).map
      (List.map SelectedField.responseName) = .ok [] := by decide +kernel
  obtain ⟨fields, collected, none⟩ := map_eq_ok_iff.mp done
  have met : OrderedSet.ofList ((petEnvironment.occurrences dogType catType
      (ownerItems.take 1)).map FieldNode.responseName) = ["owner"] := by decide +kernel
  have names := (flattens.names fields collected).trans met
  rw [none] at names
  cases names

end Environment

end ResponseShape

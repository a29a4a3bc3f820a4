import ResponseShape.Collection.Environment
import ResponseShape.Collection.Grouping

/-!
# The fields that a value of one type answers

A selection set is walked for values of one runtime type, in document order. Selections that are
excluded by a literal condition are passed over. A fragment is entered when its type condition
applies to the runtime type. An inline fragment without a condition has the type of its scope, so it
is entered when its scope applies to the runtime type; the scope of a set that is read for one of
its possible types does. A named fragment is looked at once in a walk, at its first spread that is
not excluded.

Every type condition that is met is resolved in its scope, whether its fragment is entered or
not. The scope is the type of the innermost fragment around it, or the type for which the set
was written.

The walk keeps an agenda of selections, each with its scope. It ends because it enters each
named fragment once, and because everything else makes the agenda smaller.
-/

set_option autoImplicit false

namespace ResponseShape

/-- A selection that is still to be walked, with the type of the fragment around it. -/
structure ScopedSelection where
  scope : TypeDefinition
  selection : Selection

/-- Selections that stand in one scope. -/
def ScopedSelection.inScope (scope : TypeDefinition) (items : List Selection) :
    List ScopedSelection :=
  items.map (fun selection => ⟨scope, selection⟩)

/-- The number of nodes of an agenda. -/
def ScopedSelection.agendaSize (agenda : List ScopedSelection) : Nat :=
  Selection.listSize (agenda.map ScopedSelection.selection)

theorem Selection.listSize_append (left right : List Selection) :
    Selection.listSize (left ++ right) = Selection.listSize left + Selection.listSize right := by
  induction left with
  | nil => simp [Selection.listSize]
  | cons selection rest ih => simp [Selection.listSize, ih, Nat.add_assoc]

theorem ScopedSelection.agendaSize_cons (first : ScopedSelection)
    (agenda : List ScopedSelection) :
    agendaSize (first :: agenda) = first.selection.size + agendaSize agenda := by
  simp [agendaSize, Selection.listSize]

theorem ScopedSelection.agendaSize_inScope_append (scope : TypeDefinition)
    (items : List Selection) (agenda : List ScopedSelection) :
    agendaSize (inScope scope items ++ agenda) =
      Selection.listSize items + agendaSize agenda := by
  simp [agendaSize, inScope, Selection.listSize_append, Function.comp_def]

/-- The number of nodes in the body of a fragment. -/
def FragmentDefinition.size (fragment : FragmentDefinition) : Nat :=
  Selection.listSize fragment.items

/-- What a walk has met so far: the fields, and the fragments that were spread. -/
structure Gathering where
  groups : FieldGroups
  spread : List String

/-- The gathering at the start of a walk. -/
def Gathering.start : Gathering :=
  ⟨OrderedMap.empty, []⟩

namespace Environment

/-- Walks an agenda for values of the type `runtime`, in the selection set at `path`. -/
def gather (environment : Environment) (runtime : TypeDefinition) (path : Path)
    (gathering : Gathering) : List ScopedSelection → Outcome Gathering
  | [] => .ok gathering
  | ⟨_, .field head span items⟩ :: agenda =>
      if isExcluded head.directives then gather environment runtime path gathering agenda
      else
        match gathering.groups.meet path ⟨head, span, items⟩ with
        | .error error => .error error
        | .ok groups => gather environment runtime path { gathering with groups } agenda
  | ⟨scope, .inline condition directives position _ items⟩ :: agenda =>
      if isExcluded directives then gather environment runtime path gathering agenda
      else
        match environment.inlineScope condition scope path position with
        | .error error => .error error
        | .ok type =>
            if type.appliesTo runtime then
              gather environment runtime path gathering
                (ScopedSelection.inScope type items ++ agenda)
            else gather environment runtime path gathering agenda
  | ⟨scope, .spread name directives position⟩ :: agenda =>
      if isExcluded directives then gather environment runtime path gathering agenda
      else
        match _ : gathering.spread.contains name with
        | true => gather environment runtime path gathering agenda
        | false =>
            match _ : environment.fragments.find? name with
            | none => .error (.unknownFragment name path position)
            | some fragment =>
                match environment.resolveCondition fragment.condition scope path position with
                | .error error => .error error
                | .ok type =>
                    if type.appliesTo runtime then
                      gather environment runtime path
                        { gathering with spread := name :: gathering.spread }
                        (ScopedSelection.inScope type fragment.items ++ agenda)
                    else
                      gather environment runtime path
                        { gathering with spread := name :: gathering.spread } agenda
termination_by agenda =>
  ScopedSelection.agendaSize agenda +
    environment.fragments.unmetWeight FragmentDefinition.size gathering.spread
decreasing_by
  all_goals
    simp only [ScopedSelection.agendaSize_cons, ScopedSelection.agendaSize_inScope_append,
      Selection.size]
  · omega
  · omega
  · omega
  · omega
  · omega
  · omega
  · omega
  all_goals
    have bound := FragmentTable.weight_add_unmetWeight_le FragmentDefinition.size ‹_› ‹_›
    simp only [FragmentDefinition.size] at bound ⊢
    omega

end Environment

end ResponseShape

import ResponseShape.Collection.Variants

/-!
# One field under several parents

A response name can be selected under parents of which a value is only ever one, such as `owner`
in `... on Dog` and in `... on Cat`. The selections belong to one position of the response but
are not merged into one node: each keeps its own arguments and selections. They have to select
fields of one name that return one named type, and of equal nodes the first is kept.
-/

set_option autoImplicit false

namespace ResponseShape

/-- The selections of one response name, the first of which gives the field's definition. -/
structure Occurrences where
  first : SelectedField
  others : List SelectedField

namespace Occurrences

/-- A single selection. -/
def single (field : SelectedField) : Occurrences :=
  ⟨field, []⟩

/-- All selections, in the order in which they were found. -/
def toList (occurrences : Occurrences) : List SelectedField :=
  occurrences.first :: occurrences.others

/-- The response name. -/
def responseName (occurrences : Occurrences) : String :=
  occurrences.first.responseName

/-- The path of the field's value. -/
def path (occurrences : Occurrences) : Path :=
  occurrences.first.path

/-- The name of the type of the field's value. -/
def namedType (occurrences : Occurrences) : String :=
  occurrences.first.namedType

/-- Where the first selection was written. -/
def position (occurrences : Occurrences) : Position :=
  occurrences.first.position

/-- Why the selections cannot belong to one position, if they cannot. -/
def conflict? (occurrences other : Occurrences) : Option MergeConflict :=
  if occurrences.first.definition.name != other.first.definition.name then
    some (.differentFields occurrences.first.definition.name other.first.definition.name)
  else if occurrences.namedType != other.namedType then
    some (.differentTypes occurrences.namedType other.namedType)
  else none

/-- The selections with one more, unless its node equals a node that is there. -/
def addDistinct (occurrences : Occurrences) (field : SelectedField) : Occurrences :=
  if occurrences.toList.any (fun present => present.node.equals field.node) then occurrences
  else { occurrences with others := occurrences.others ++ [field] }

/-- The selections together with those of `other`. -/
def absorb (occurrences other : Occurrences) : Outcome Occurrences :=
  match occurrences.conflict? other with
  | some conflict =>
      .error (.fieldMergeConflict other.responseName other.first.setPath occurrences.position
        other.position conflict)
  | none => .ok (other.toList.foldl addDistinct occurrences)

/-- What stands for a response name after `met` was found, when `present` stood for it
before. -/
def meetAt (met : Occurrences) (present : Option Occurrences) : Outcome Occurrences :=
  match present with
  | none => .ok met
  | some occurrences => occurrences.absorb met

end Occurrences

/-- Selections by response name, in the order in which the names were found. -/
abbrev OccurrenceGroups := OrderedMap String Occurrences

namespace OccurrenceGroups

/-- The groups after a selected field was found. -/
def meet (groups : OccurrenceGroups) (field : SelectedField) : Outcome OccurrenceGroups :=
  groups.update field.responseName (Occurrences.single field).meetAt

/-- The groups after selected fields were found in turn. -/
def meetAll (groups : OccurrenceGroups) (fields : List SelectedField) :
    Outcome OccurrenceGroups :=
  fields.foldlM meet groups

end OccurrenceGroups

end ResponseShape

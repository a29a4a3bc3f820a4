import ResponseShape.OrderedMap
import ResponseShape.Error

/-!
# Field nodes of one response name

Several selections of one response name are one field of the response. The first node that is
met stands for all of them and takes up their selections, in the order in which they are met.
All have to select the field of the same name with the same arguments, and each is compared with
the first.
-/

set_option autoImplicit false

namespace ResponseShape

namespace FieldNode

/-- Why the nodes cannot stand for one field, if they cannot. -/
def conflict? (first second : FieldNode) : Option MergeConflict :=
  if first.head.name != second.head.name then
    some (.differentFields first.head.name second.head.name)
  else if !Argument.agree first.head.arguments second.head.arguments then
    some .differingArguments
  else none

/-- The first node with the selections of the second after its own. -/
def join (first second : FieldNode) : FieldNode :=
  { first with items := first.items ++ second.items }

/-- The node that stands for a response name after `node` was met in the selection set at
`path`, when `present` stood for it before. -/
def mergeAt (path : Path) (node : FieldNode) (present : Option FieldNode) :
    Outcome FieldNode :=
  match present with
  | none => .ok node
  | some first =>
      match first.conflict? node with
      | some conflict =>
          .error (.fieldMergeConflict node.responseName path first.position node.position
            conflict)
      | none => .ok (first.join node)

end FieldNode

/-- The field nodes of a selection set, by response name and in the order in which the names
were met. -/
abbrev FieldGroups := OrderedMap String FieldNode

/-- The groups after `node` was met in the selection set at `path`. -/
def FieldGroups.meet (groups : FieldGroups) (path : Path) (node : FieldNode) :
    Outcome FieldGroups :=
  groups.update node.responseName (node.mergeAt path)

end ResponseShape

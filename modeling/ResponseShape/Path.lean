/-!
# Positions in a response

A path leads from an operation to a value of its response: the name of the operation, then the
response names of the fields on the way. Paths are compared segment by segment, and a segment is
compared by its characters. The written form joins the segments with dots, so two paths of
segments that contain dots can be written alike and still differ.
-/

set_option autoImplicit false

namespace ResponseShape

/-- A position in a response. -/
structure Path where
  segments : List String
  deriving DecidableEq

namespace Path

/-- The position of an operation's whole response. -/
def root (operation : String) : Path :=
  ⟨[operation]⟩

/-- The position of the field `responseName` of the value at the path. -/
def child (path : Path) (responseName : String) : Path :=
  ⟨path.segments ++ [responseName]⟩

/-- The number of segments. -/
def depth (path : Path) : Nat :=
  path.segments.length

/-- A field lies one segment deeper than its parent. -/
@[simp]
theorem depth_child (path : Path) (responseName : String) :
    (path.child responseName).depth = path.depth + 1 := by
  simp [depth, child]

/-- A field's path tells its parent and its response name. -/
theorem child_inj {path other : Path} {responseName otherName : String} :
    path.child responseName = other.child otherName ↔
      path = other ∧ responseName = otherName := by
  obtain ⟨segments⟩ := path
  obtain ⟨otherSegments⟩ := other
  simp [child]

/-- The last segment, the empty text when there is none. -/
def last (path : Path) : String :=
  path.segments.getLast?.getD ""

/-- Whether the path has a single segment. -/
def isRoot (path : Path) : Bool :=
  path.depth == 1

/-- The written form. -/
def render (path : Path) : String :=
  String.intercalate "." path.segments

/-- The order of lists of segments: at the first difference the smaller segment comes first, and
a list comes before those that continue it. -/
def compareSegments : List String → List String → Ordering
  | [], [] => .eq
  | [], _ :: _ => .lt
  | _ :: _, [] => .gt
  | left :: lefts, right :: rights =>
      (compareOfLessAndEq left right).then (compareSegments lefts rights)

/-- The order of paths. -/
def compare (left right : Path) : Ordering :=
  compareSegments left.segments right.segments

end Path

end ResponseShape

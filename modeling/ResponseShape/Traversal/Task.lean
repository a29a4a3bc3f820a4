import ResponseShape.Traversal.Occurrences

/-!
# Positions whose models are still to be built

A field whose value has fields of its own leaves a task: the position of the value, and the
selections that reach it. Tasks that are found under several variants of a value are kept by
position, so that every position has one task.
-/

set_option autoImplicit false

namespace ResponseShape

/-- A position whose model is still to be built, with the selections that reach it. -/
structure Task where
  occurrences : Occurrences
  path : Path

namespace Task

/-- The task of the value of a selected field. -/
def ofOccurrences (occurrences : Occurrences) : Task :=
  ⟨occurrences, occurrences.path⟩

/-- The name of the type of the value. -/
def namedType (task : Task) : String :=
  task.occurrences.namedType

/-- What stands for a position after `task` was found for it, when `present` stood for it
before. -/
def joinAt (task : Task) (present : Option Task) : Outcome Task :=
  match present with
  | none => .ok task
  | some known => do
      let occurrences ← known.occurrences.absorb task.occurrences
      return { known with occurrences }

end Task

/-- Tasks by position, in the order in which the positions were found. -/
abbrev TaskMap := OrderedMap Path Task

namespace TaskMap

/-- The tasks after one was found; the selections of a task for a known position are taken up by
the known one. -/
def join (tasks : TaskMap) (task : Task) : Outcome TaskMap :=
  tasks.update task.path task.joinAt

/-- The tasks after several were found in turn. -/
def joinAll (tasks : TaskMap) (found : List Task) : Outcome TaskMap :=
  found.foldlM join tasks

/-- The tasks with one more, unless its position has a task. -/
def addMissing (tasks : TaskMap) (task : Task) : TaskMap :=
  if tasks.contains task.path then tasks else tasks.insert task.path task

end TaskMap

end ResponseShape

/-!
# Sets in order of insertion

A set whose members stand in the order in which they were first added is a list without
repetitions. Adding keeps it one (`OrderedSet.nodup_add`): a member that is present keeps its
place, a new one comes last. A record that keeps such a list carries the fact along
(`OrderedSet.Distinct`).
-/

set_option autoImplicit false

namespace ResponseShape

namespace OrderedSet

variable {α : Type} [DecidableEq α]

/-- The members after `member` was added. -/
def add (members : List α) (member : α) : List α :=
  if member ∈ members then members else members ++ [member]

/-- The members after all of `added` were added in turn. -/
def addAll (members added : List α) : List α :=
  added.foldl add members

/-- The members of a list without repetitions, each at its first place. -/
def ofList (members : List α) : List α :=
  addAll [] members

theorem add_of_mem {members : List α} {member : α} (present : member ∈ members) :
    add members member = members :=
  if_pos present

theorem add_of_notMem {members : List α} {member : α} (absent : member ∉ members) :
    add members member = members ++ [member] :=
  if_neg absent

/-- The members after an addition are the member that was added and those before. -/
@[simp]
theorem mem_add {members : List α} {member other : α} :
    other ∈ add members member ↔ other ∈ members ∨ other = member := by
  by_cases present : member ∈ members
  · rw [add_of_mem present]
    exact ⟨.inl, fun either => either.elim id (fun same => same ▸ present)⟩
  · rw [add_of_notMem present, List.mem_append, List.mem_singleton]

/-- **Adding a member repeats none.** -/
theorem nodup_add {members : List α} {member : α} (distinct : members.Nodup) :
    (add members member).Nodup := by
  by_cases present : member ∈ members
  · rwa [add_of_mem present]
  · rw [add_of_notMem present]
    refine List.nodup_append.mpr ⟨distinct, by simp, ?_⟩
    intro before isBefore after isAfter same
    exact present (List.mem_singleton.mp isAfter ▸ same ▸ isBefore)

@[simp]
theorem mem_addAll {members added : List α} {other : α} :
    other ∈ addAll members added ↔ other ∈ members ∨ other ∈ added := by
  induction added generalizing members with
  | nil => simp [addAll]
  | cons first rest ih =>
      change other ∈ addAll (add members first) rest ↔ _
      rw [ih, mem_add, List.mem_cons, or_assoc]

theorem nodup_addAll {members added : List α} (distinct : members.Nodup) :
    (addAll members added).Nodup := by
  induction added generalizing members with
  | nil => exact distinct
  | cons first rest ih => exact ih (nodup_add distinct)

/-- The members of a list, repeated or not, are the members of its set. -/
@[simp]
theorem mem_ofList {members : List α} {other : α} : other ∈ ofList members ↔ other ∈ members := by
  simp [ofList]

theorem nodup_ofList (members : List α) : (ofList members).Nodup :=
  nodup_addAll List.nodup_nil

/-- The list has no repetitions. -/
class Distinct (members : List α) : Prop where
  nodup : members.Nodup

instance : Distinct ([] : List α) :=
  ⟨List.nodup_nil⟩

instance (members : List α) (member : α) [distinct : Distinct members] :
    Distinct (add members member) :=
  ⟨nodup_add distinct.nodup⟩

instance (members : List α) : Distinct (ofList members) :=
  ⟨nodup_ofList members⟩

end OrderedSet

end ResponseShape

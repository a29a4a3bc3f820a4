import ResponseShape.Proofs.Chains

/-!
# How many passes a traversal takes

A traversal does passes until no task is left, however many that takes (`Environment.Drains`).
Tasks whose selections have expansions of bounded depth need at most one pass more than that depth
(`Environment.exists_drains`), because a pass leaves tasks that are less deep. So an operation
whose fragments are accepted is done after as many passes as its expanded selections nest fields
(`Environment.exists_drains_of_start`).

All tasks of a pass lie at one level of the response, one segment below those of the pass before
it. So the number of passes is told by the longest path (`Environment.Drains.downTo`).
-/

set_option autoImplicit false

namespace ResponseShape

namespace Environment

variable {environment : Environment} {policy : NamePolicy} {catalog : Catalog}
  {progress next final : Progress} {tasks left : List Task} {passes : Nat}
  {outcome : Outcome Progress}

/-! ## Levels -/

/-- A pass builds the positions of its tasks. -/
theorem mem_keys_of_pass (composite : ∀ task ∈ tasks, environment.IsComposite task)
    (passed : environment.pass policy progress tasks = .ok (next, left)) {path : Path} :
    path ∈ next.paths.keys ↔ path ∈ progress.paths.keys ∨ ∃ task ∈ tasks, task.path = path := by
  induction tasks generalizing progress left with
  | nil =>
      obtain ⟨rfl, rfl⟩ := Prod.mk.inj (Except.ok.inj passed)
      simp
  | cons task rest ih =>
      obtain ⟨between, leftByFirst, leftByRest, first, later, rfl⟩ :=
        pass_cons_eq_ok_iff.mp passed
      obtain ⟨plan, own, objects, _, _, realized⟩ :=
        step_eq_ok (composite task List.mem_cons_self) first
      rw [ih (fun other member => composite other (List.mem_cons_of_mem _ member)) later,
        realized.paths, OrderedMap.keys_insert, OrderedSet.mem_add, List.exists_mem_cons_iff,
        or_assoc, eq_comm]

/-- The longest paths of the positions that were built have the depth. -/
structure DownTo (progress : Progress) (depth : Nat) : Prop where
  attained : ∃ path ∈ progress.paths.keys, path.depth = depth
  bound : ∀ path ∈ progress.paths.keys, path.depth ≤ depth

/-- A pass over tasks of one level builds that level, and leaves tasks of the next. -/
theorem level_of_pass {level : Nat} {task : Task} {rest : List Task}
    (composite : ∀ other ∈ task :: rest, environment.IsComposite other)
    (level_eq : ∀ other ∈ task :: rest, other.path.depth = level + 1)
    (before : DownTo progress level)
    (passed : environment.pass policy progress (task :: rest) = .ok (next, left)) :
    DownTo next (level + 1) ∧
      ∀ child ∈ left, environment.IsComposite child ∧ child.path.depth = level + 1 + 1 := by
  have keys : ∀ path, path ∈ next.paths.keys ↔
      path ∈ progress.paths.keys ∨ ∃ other ∈ task :: rest, other.path = path :=
    fun _ => mem_keys_of_pass composite passed
  refine ⟨⟨⟨task.path, ?_, level_eq task List.mem_cons_self⟩, fun path isKey => ?_⟩,
    fun child isLeft => ?_⟩
  · exact (keys _).mpr (.inr ⟨task, List.mem_cons_self, rfl⟩)
  · rcases (keys path).mp isKey with earlier | ⟨other, isTask, rfl⟩
    · exact Nat.le_succ_of_le (before.bound path earlier)
    · exact Nat.le_of_eq (level_eq other isTask)
  · obtain ⟨other, isTask, plan, planned, here⟩ := origin_of_pass passed child isLeft
    have isComposite := composite other isTask
    refine ⟨planned.isComposite_of_task isComposite child here, ?_⟩
    rw [planned.path_of_task isComposite child here, Path.depth_child, level_eq other isTask]

/-- **Every pass goes one level down.** -/
theorem Drains.downTo (drains : environment.Drains policy progress tasks passes outcome)
    (succeeded : outcome = .ok final) {level : Nat}
    (composite : ∀ task ∈ tasks, environment.IsComposite task)
    (level_eq : ∀ task ∈ tasks, task.path.depth = level + 1)
    (before : DownTo progress level) : DownTo final (level + passes) := by
  induction drains generalizing level with
  | done =>
      obtain rfl := Except.ok.inj succeeded
      exact before
  | failed => cases succeeded
  | @pass _ _ _ _ _ passes _ passed _ ih =>
      obtain ⟨next, below⟩ := level_of_pass composite level_eq before passed
      rw [Nat.add_comm passes 1, ← Nat.add_assoc]
      exact ih succeeded (fun child isLeft => (below child isLeft).1)
        (fun child isLeft => (below child isLeft).2) next

/-! ## Operations -/

variable {operation : OperationDefinition} {traversal : Traversal}

/-- An operation starts with its root alone, and with tasks that are less deep than its
selections. -/
theorem levels_of_start {depth : Nat}
    (within : environment.fragments.Within depth operation.items)
    (started : environment.start policy catalog operation = .ok traversal) :
    DownTo traversal.progress 1 ∧ ∀ task ∈ traversal.tasks,
      task.path.depth = 2 ∧ 0 < depth ∧ environment.TaskWithin (depth - 1) task := by
  obtain ⟨name, root, fields, _, found, planned, realized⟩ := start_eq_ok_iff.mp started
  obtain ⟨object, realizes, same⟩ := realizes_of_startWith realized
  obtain ⟨known, isObject⟩ := Schema.root?_eq_some found
  have plans := (planRoot_eq_ok_iff known isObject).mp planned
  have composite := isComposite_root found operation.items (Path.root name)
  have rootWithin : environment.TaskWithin depth
      (Task.root root operation.items (Path.root name)) := by
    intro occurrence member
    obtain rfl := List.mem_singleton.mp member
    exact within
  have keys : traversal.progress.paths.keys = [Path.root name] := by
    rw [realizes.paths, OrderedMap.keys_insert]
    rfl
  refine ⟨⟨⟨Path.root name, keys ▸ List.mem_singleton_self _, rfl⟩, fun path isKey => ?_⟩,
    fun task isTask => ?_⟩
  · rw [keys] at isKey
    rw [List.mem_singleton.mp isKey]
    exact Nat.le_refl 1
  · rw [same] at isTask
    refine ⟨?_, plans.within_of_task composite rootWithin task isTask⟩
    rw [plans.path_of_task composite task isTask, Path.depth_child]
    rfl

/-- **A traversal ends, and in time.** When the fragments are accepted, every operation that can be
started is done after no more passes than its selections, with the fragments expanded, nest fields
into each other. A traversal that succeeds leaves no task, and its longest path is one segment
longer than the number of its passes. -/
theorem exists_drains_of_start {schema : Schema} {documents : List Document}
    {fragments : FragmentTable} (accepted : FragmentTable.ofDocuments documents = .ok fragments)
    (started : (Environment.mk schema fragments).start policy catalog operation =
      .ok traversal) :
    ∃ expanded, fragments.Expands operation.items expanded ∧ ∃ passes outcome,
      (Environment.mk schema fragments).Drains policy traversal.progress traversal.tasks passes
        outcome ∧
      passes ≤ Selection.listFieldDepth expanded ∧
      (Environment.mk schema fragments).drain policy traversal.progress traversal.tasks =
        outcome.map (fun final => ⟨final, passes, []⟩) ∧
      ∀ final, outcome = .ok final →
        (final.paths.keys.map Path.depth).max? = some (passes + 1) := by
  obtain ⟨_, _, rank, ranked⟩ := FragmentTable.ranked_of_ofDocuments accepted
  obtain ⟨expanded, expands⟩ := ranked.exists_expansion operation.items
  have composite := isComposite_of_start started
  obtain ⟨root, levels⟩ := levels_of_start ⟨expanded, expands, Nat.le_refl _⟩ started
  obtain ⟨passes, outcome, drains, bound⟩ :=
    exists_drains fun task isTask => (levels task isTask).2.2
  refine ⟨expanded, expands, passes, outcome, drains, ?_, drain_of_drains drains,
    fun final succeeded => ?_⟩
  · cases tasks : traversal.tasks with
    | nil =>
        rw [tasks] at drains
        cases drains
        exact Nat.zero_le _
    | cons task rest =>
        have positive := (levels task (tasks ▸ List.mem_cons_self)).2.1
        omega
  · have downTo := drains.downTo succeeded composite (fun task isTask => (levels task isTask).1)
      root
    rw [List.max?_eq_some_iff]
    obtain ⟨path, isKey, attained⟩ := downTo.attained
    rw [Nat.add_comm passes 1]
    refine ⟨List.mem_map.mpr ⟨path, isKey, attained⟩, fun depth member => ?_⟩
    obtain ⟨other, isOther, rfl⟩ := List.mem_map.mp member
    exact downTo.bound other isOther

end Environment

/-! ## Friends of friends -/

namespace Sample

/-- Every person has a friend. -/
def friendSchema : Schema :=
  ⟨[.type (objectType "Query" [declare "me" "Person"]),
    .type (objectType "Person" [declare "friend" "Person", declare "name" "String"])]⟩

def friendFragment : FragmentDefinition :=
  ⟨"Friend", "Person", [], ⟨1, 1⟩, ⟨⟨1, 1⟩, ⟨1, 1⟩⟩, [pick "friend" [pick "name" []]]⟩

def friendQuery : OperationDefinition :=
  query "Q" [pick "me" [pick "friend" [.spread "Friend" [] ⟨1, 1⟩]]]

def friendDocuments : List Document :=
  [[.operation friendQuery, .fragment friendFragment]]

end Sample

namespace Environment

open Sample

theorem exists_drains_of_friends : ∃ fragments traversal expanded final,
    FragmentTable.ofDocuments friendDocuments = .ok fragments ∧
      (Environment.mk friendSchema fragments).start ⟨[], []⟩ Catalog.empty friendQuery =
        .ok traversal ∧
      fragments.Expands friendQuery.items expanded ∧ Selection.listFieldDepth expanded = 4 ∧
      (Environment.mk friendSchema fragments).Drains ⟨[], []⟩ traversal.progress traversal.tasks 3
        (.ok final) ∧
      (final.paths.keys.map Path.depth).max? = some 4 := by
  have accepted : FragmentTable.ofDocuments friendDocuments = .ok ⟨[friendFragment]⟩ :=
    FragmentTable.ofDocuments_of_no_spreads (by decide +kernel) (by decide +kernel)
  have computed : ((Environment.mk friendSchema ⟨[friendFragment]⟩).start ⟨[], []⟩ Catalog.empty
      friendQuery).map (fun traversal => ((Environment.mk friendSchema
        ⟨[friendFragment]⟩).drainWithin ⟨[], []⟩ 3 traversal.progress traversal.tasks).map
          fun drained => (drained.1, drained.2.map fun _ => ())) = .ok (some (3, .ok ())) := by
    decide +kernel
  obtain ⟨traversal, started, ends⟩ := map_eq_ok_iff.mp computed
  obtain ⟨⟨three, ended⟩, drained, same⟩ := Option.map_eq_some_iff.mp ends
  obtain ⟨rfl, succeeded⟩ := Prod.mk.inj same
  obtain ⟨final, rfl, _⟩ := map_eq_ok_iff.mp succeeded
  obtain ⟨expanded, expands, passes, outcome, drains, _, _, depths⟩ :=
    exists_drains_of_start accepted started
  obtain ⟨rfl, rfl⟩ := drains.unique (drains_of_drainWithin drained)
  refine ⟨_, traversal, expanded, final, accepted, started, expands, ?_, drains, depths final rfl⟩
  have body : FragmentTable.Expands ⟨[friendFragment]⟩ friendFragment.items
      [pick "friend" [pick "name" []]] := .field (.field .nil .nil) .nil
  have spread : FragmentTable.Expands ⟨[friendFragment]⟩ [.spread "Friend" [] ⟨1, 1⟩]
      [.inline (some friendFragment.condition) [] ⟨1, 1⟩ friendFragment.span
        [pick "friend" [pick "name" []]]] := .spread rfl body .nil
  rw [expands.unique (.field (.field spread .nil) .nil)]
  rfl

end Environment

end ResponseShape

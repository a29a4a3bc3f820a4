import ResponseShape.Proofs.Passes
import ResponseShape.Proofs.Schedules

/-!
# Breadth first

A traversal goes in passes: a pass takes all tasks that are there, does them in turn and keeps the
tasks that they leave for the next pass. A loop with a single queue takes the first task and puts
the tasks that it leaves behind the others (`Environment.WorksOff`). In front of what a pass has
left so far there is always what the pass has still to do, so both do the same tasks in the same
order, and both end in the same state or fail for the same reason
(`Environment.worksOff_iff_of_ranked`).

Positions are therefore built level by level. A pending position lies one segment below one that
was built, so what a step leaves is new (`Path.Frontier.build`), and it lies no higher than what is
in the queue and at most one level below it (`Path.Levelled.build`). In the end the positions stand
in level order (`Path.LevelOrder`).
-/

set_option autoImplicit false

namespace ResponseShape

/-! ## Orders of paths -/

namespace Path

variable {top path : Path} {built before after pending below : List Path} {name : String}

/-- Every path but the root stands behind its parent. -/
def ParentsFirst (root : Path) (paths : List Path) : Prop :=
  ∀ earlier path later, paths = earlier ++ path :: later →
    path = root ∨ ∃ above ∈ earlier, ∃ responseName, path = above.child responseName

/-- The order in which a tree is gone through breadth first: the root, then level by level, every
path behind its parent and none twice. -/
structure LevelOrder (root : Path) (paths : List Path) : Prop where
  first : paths.head? = some root
  levels : paths.Pairwise (fun earlier later => earlier.depth ≤ later.depth)
  parents : ParentsFirst root paths
  distinct : paths.Nodup

theorem parentsFirst_singleton (root : Path) : ParentsFirst root [root] := by
  intro earlier path later same
  obtain ⟨rfl, rfl, rfl⟩ : earlier = [] ∧ path = root ∧ later = [] := by
    cases earlier <;> simp_all
  exact .inl rfl

/-- A path may come behind all others when its parent is among them. -/
theorem ParentsFirst.append (parents : ParentsFirst top built)
    (isBelow : ∃ above ∈ built, ∃ responseName, path = above.child responseName) :
    ParentsFirst top (built ++ [path]) := by
  intro earlier other later same
  rcases List.eq_nil_or_concat later with rfl | ⟨front, last, rfl⟩
  · obtain ⟨rfl, last⟩ := List.append_inj' same rfl
    obtain rfl := List.singleton_inj.mp last
    exact .inr isBelow
  · rw [List.concat_eq_append, ← List.cons_append, ← List.append_assoc] at same
    exact parents earlier other front (List.append_inj' same rfl).1

/-- Every path but the root has its parent among the paths. -/
theorem ParentsFirst.exists_parent (parents : ParentsFirst top built) (member : path ∈ built) :
    path = top ∨ ∃ above ∈ built, ∃ responseName, path = above.child responseName := by
  obtain ⟨earlier, later, rfl⟩ := List.append_of_mem member
  refine (parents earlier path later rfl).imp_right ?_
  rintro ⟨above, isEarlier, below⟩
  exact ⟨above, List.mem_append_left _ isEarlier, below⟩

/-- The positions of an operation that were built, in their order, and those that are pending. -/
structure Frontier (name : String) (built pending : List Path) : Prop where
  first : built.head? = some (root name)
  parents : ParentsFirst (root name) built
  distinct : (built ++ pending).Nodup
  waiting : ∀ path ∈ pending, ∃ above ∈ built, ∃ responseName, path = above.child responseName

namespace Frontier

theorem notMem_built (frontier : Frontier name built (before ++ path :: after)) :
    path ∉ built := by
  have apart := (List.nodup_append.mp frontier.distinct).2.2
  exact fun isBuilt => apart path isBuilt path (by simp) rfl

/-- **What lies below a pending position was not found yet.** -/
theorem child_notMem (frontier : Frontier name built (before ++ path :: after))
    (responseName : String) :
    path.child responseName ∉ built ++ (before ++ path :: after) := by
  -- its parent would have been built, but it is pending
  have parent_pending : ∀ above ∈ built, ∀ other,
      path.child responseName ≠ above.child other := by
    rintro above isBuilt other same
    obtain ⟨rfl, _⟩ := child_inj.mp same
    exact frontier.notMem_built isBuilt
  intro member
  rcases List.mem_append.mp member with isBuilt | isPending
  · rcases frontier.parents.exists_parent isBuilt with isRoot | ⟨above, isAbove, other, same⟩
    · obtain ⟨above, _, other, same⟩ := frontier.waiting path (by simp)
      have depths := congrArg depth isRoot
      rw [same, depth_child, depth_child] at depths
      exact absurd depths (by simp [root, depth])
    · exact parent_pending above isAbove other same
  · obtain ⟨above, isAbove, other, same⟩ := frontier.waiting _ isPending
    exact parent_pending above isAbove other same

/-- **Building a pending position leaves a frontier.** -/
theorem build (frontier : Frontier name built (before ++ path :: after))
    (areBelow : ∀ child ∈ below, ∃ responseName, child = path.child responseName)
    (distinct : below.Nodup) : Frontier name (built ++ [path]) (before ++ after ++ below) where
  first := by rw [List.head?_append, frontier.first, Option.some_or]
  parents := frontier.parents.append (frontier.waiting path (by simp))
  distinct := by
    have moved : (built ++ [path] ++ (before ++ after)).Perm
        (built ++ (before ++ path :: after)) := by
      rw [List.append_assoc, List.singleton_append]
      exact List.perm_middle.symm.append_left built
    rw [← List.append_assoc]
    refine List.nodup_append.mpr ⟨moved.nodup_iff.mpr frontier.distinct, distinct, ?_⟩
    rintro known isKnown child isChild rfl
    obtain ⟨responseName, rfl⟩ := areBelow known isChild
    exact frontier.child_notMem responseName (moved.mem_iff.mp isKnown)
  waiting := by
    intro other isPending
    rcases List.mem_append.mp isPending with waited | isChild
    · have member : other ∈ before ++ path :: after := by
        rcases List.mem_append.mp waited with isBefore | isAfter
        · exact List.mem_append_left _ isBefore
        · exact List.mem_append_right _ (List.mem_cons_of_mem _ isAfter)
      obtain ⟨above, isBuilt, isBelow⟩ := frontier.waiting other member
      exact ⟨above, List.mem_append_left _ isBuilt, isBelow⟩
    · exact ⟨path, by simp, areBelow other isChild⟩

end Frontier

/-- Paths of one level are sorted by their depths. -/
theorem sorted_of_level {level : Nat} {paths : List Path}
    (levels : ∀ path ∈ paths, path.depth = level) :
    paths.Pairwise (fun earlier later => earlier.depth ≤ later.depth) :=
  List.pairwise_of_forall_mem_list fun path member other isOther =>
    Nat.le_of_eq ((levels path member).trans (levels other isOther).symm)

/-- The positions in a queue stand behind those that were built, level by level, and belong to two
levels at most. -/
structure Levelled (built queue : List Path) : Prop where
  sorted : (built ++ queue).Pairwise (fun earlier later => earlier.depth ≤ later.depth)
  band : ∀ path ∈ queue, ∀ other ∈ queue, other.depth ≤ path.depth + 1

/-- **Building the first position of the queue keeps the levels.** -/
theorem Levelled.build (levelled : Levelled built (path :: pending))
    (areBelow : ∀ child ∈ below, child.depth = path.depth + 1) :
    Levelled (built ++ [path]) (pending ++ below) := by
  have ordered : built ++ [path] ++ (pending ++ below) =
      built ++ (path :: pending) ++ below := by simp
  obtain ⟨_, queue, earlier⟩ := List.pairwise_append.mp levelled.sorted
  have no_higher : ∀ other ∈ pending, path.depth ≤ other.depth :=
    (List.pairwise_cons.mp queue).1
  have no_deeper : ∀ other ∈ pending, other.depth ≤ path.depth + 1 := fun other isPending =>
    levelled.band path List.mem_cons_self other (List.mem_cons_of_mem _ isPending)
  refine ⟨?_, fun one isOne two isTwo => ?_⟩
  · rw [ordered]
    refine List.pairwise_append.mpr
      ⟨levelled.sorted, sorted_of_level areBelow, fun known isKnown child isChild => ?_⟩
    rw [areBelow child isChild]
    rcases List.mem_append.mp isKnown with isBuilt | isQueued
    · exact Nat.le_succ_of_le (earlier known isBuilt path List.mem_cons_self)
    · exact levelled.band path List.mem_cons_self known isQueued
  · rcases List.mem_append.mp isOne with onePending | oneBelow
    · rcases List.mem_append.mp isTwo with twoPending | twoBelow
      · exact levelled.band one (List.mem_cons_of_mem _ onePending) two
          (List.mem_cons_of_mem _ twoPending)
      · rw [areBelow two twoBelow]
        exact Nat.succ_le_succ (no_higher one onePending)
    · rw [areBelow one oneBelow]
      rcases List.mem_append.mp isTwo with twoPending | twoBelow
      · exact Nat.le_succ_of_le (no_deeper two twoPending)
      · rw [areBelow two twoBelow]
        exact Nat.le_succ _

/-- When nothing is pending, the positions stand in level order. -/
theorem Frontier.levelOrder (frontier : Frontier name built [])
    (levelled : Levelled built []) : LevelOrder (root name) built where
  first := frontier.first
  levels := by simpa using levelled.sorted
  parents := frontier.parents
  distinct := by simpa using frontier.distinct

end Path

namespace Environment

variable {environment : Environment} {policy : NamePolicy} {catalog later : Catalog}
  {progress next final : Progress} {task : Task} {queue tasks left more : List Task}
  {outcome : Outcome Progress}

/-! ## One queue -/

/-- A loop with one queue: the first task is done, and the tasks that it leaves are put behind the
others. It ends when the queue is empty or a task fails. -/
inductive WorksOff (environment : Environment) (policy : NamePolicy) :
    Progress → List Task → Outcome Progress → Prop where
  | done (progress : Progress) : WorksOff environment policy progress [] (.ok progress)
  | failed {progress : Progress} {task : Task} {queue : List Task} {error : AnalysisError} :
      environment.step policy progress task = .error error →
        WorksOff environment policy progress (task :: queue) (.error error)
  | step {progress next : Progress} {task : Task} {queue children : List Task}
      {outcome : Outcome Progress} :
      environment.step policy progress task = .ok (next, children) →
        WorksOff environment policy next (queue ++ children) outcome →
        WorksOff environment policy progress (task :: queue) outcome

namespace WorksOff

/-- The loop ends in one way. -/
theorem unique {outcome' : Outcome Progress}
    (worksOff : environment.WorksOff policy progress queue outcome)
    (worksOff' : environment.WorksOff policy progress queue outcome') :
    outcome = outcome' := by
  induction worksOff generalizing outcome' with
  | done =>
      cases worksOff'
      rfl
  | failed failed =>
      cases worksOff' with
      | failed failed' => exact congrArg _ (Except.error.inj (failed.symm.trans failed'))
      | step stepped => cases failed.symm.trans stepped
  | step stepped _ ih =>
      cases worksOff' with
      | failed failed => cases failed.symm.trans stepped
      | step stepped' later =>
          obtain ⟨rfl, rfl⟩ := Prod.mk.inj (Except.ok.inj (stepped.symm.trans stepped'))
          exact ih later

/-- **A pass is the part of the loop that does its tasks**: what the pass leaves has then been put
behind what else was in the queue. -/
theorem of_pass (passed : environment.pass policy progress tasks = .ok (next, left))
    (worksOff : environment.WorksOff policy next (more ++ left) outcome) :
    environment.WorksOff policy progress (tasks ++ more) outcome := by
  induction tasks generalizing progress left more with
  | nil =>
      obtain ⟨rfl, rfl⟩ := Prod.mk.inj (Except.ok.inj passed)
      rwa [List.append_nil] at worksOff
  | cons task rest ih =>
      obtain ⟨between, leftByFirst, leftByRest, first, others, rfl⟩ :=
        pass_cons_eq_ok_iff.mp passed
      rw [← List.append_assoc] at worksOff
      have later := ih others worksOff
      rw [← List.append_assoc] at later
      exact .step first later

/-- A pass that fails does so at a task to which the loop comes as well. -/
theorem of_failed_pass {error : AnalysisError}
    (failed : environment.pass policy progress tasks = .error error) (more : List Task) :
    environment.WorksOff policy progress (tasks ++ more) (.error error) := by
  induction tasks generalizing progress more with
  | nil => cases failed
  | cons task rest ih =>
      rw [pass] at failed
      cases stepped : environment.step policy progress task with
      | error other =>
          rw [stepped] at failed
          obtain rfl := Except.error.inj failed
          exact .failed stepped
      | ok done =>
          obtain ⟨next, children⟩ := done
          rw [stepped] at failed
          cases passed : environment.pass policy next rest with
          | ok others =>
              simp [passed, bind, Except.bind, pure, Except.pure] at failed
          | error other =>
              simp only [passed, bind, Except.bind] at failed
              obtain rfl := Except.error.inj failed
              have later := ih passed (more ++ children)
              rw [← List.append_assoc] at later
              exact .step stepped later

end WorksOff

/-- **Passes do what the loop does.** -/
theorem Drains.worksOff {passes : Nat}
    (drains : environment.Drains policy progress tasks passes outcome) :
    environment.WorksOff policy progress tasks outcome := by
  induction drains with
  | done progress => exact .done progress
  | failed failed =>
      rw [← List.append_nil (_ :: _)]
      exact .of_failed_pass failed []
  | pass passed _ ih =>
      rw [← List.append_nil (_ :: _)]
      exact .of_pass passed ih

/-! ## Draining -/

/-- **Draining in passes and working off one queue have the same outcome.** -/
theorem worksOff_iff_of_ranked {rank : String → Nat}
    (ranked : environment.fragments.Ranked rank) :
    environment.WorksOff policy progress tasks outcome ↔
      (environment.drain policy progress tasks).map Drained.progress = outcome := by
  obtain ⟨passes, found, drains⟩ := exists_drains_of_ranked ranked policy progress tasks
  have mapped : (environment.drain policy progress tasks).map Drained.progress = found := by
    rw [drain_of_drains drains]
    cases found <;> rfl
  rw [mapped]
  exact ⟨fun worksOff => drains.worksOff.unique worksOff, fun here => here ▸ drains.worksOff⟩

/-! ## Positions in level order -/

/-- **A step builds the position of its task, which was not built before, and leaves positions
below it.** -/
theorem frontier_of_step {name : String} {before after children : List Task}
    (composite : environment.IsComposite task)
    (frontier : Path.Frontier name progress.paths.keys
      ((before ++ task :: after).map Task.path))
    (stepped : environment.step policy progress task = .ok (next, children)) :
    next.paths.keys = progress.paths.keys ++ [task.path] ∧
      Path.Frontier name next.paths.keys ((before ++ after ++ children).map Task.path) := by
  obtain ⟨plan, own, objects, planned, rfl, realized⟩ := step_eq_ok composite stepped
  obtain ⟨type, _, parts⟩ := planned.exists_parts composite
  rw [List.map_append, List.map_cons] at frontier
  have keys : next.paths.keys = progress.paths.keys ++ [task.path] := by
    rw [realized.paths, OrderedMap.keys_insert, OrderedSet.add_of_notMem frontier.notMem_built]
  refine ⟨keys, ?_⟩
  rw [keys, List.map_append, List.map_append]
  refine frontier.build (fun path isChild => ?_) parts.nodup_tasks
  obtain ⟨child, isTask, rfl⟩ := List.mem_map.mp isChild
  exact ⟨_, planned.path_of_task composite child isTask⟩

variable {operation : OperationDefinition} {traversal : Traversal}

/-- An operation starts with its root built and with positions one level below it pending. -/
theorem frontier_of_start
    (started : environment.start policy catalog operation = .ok traversal) :
    Path.Frontier traversal.name traversal.progress.paths.keys
        (traversal.tasks.map Task.path) ∧
      traversal.progress.paths.keys = [Path.root traversal.name] ∧
      ∀ child ∈ traversal.tasks, child.path.depth = 2 := by
  obtain ⟨name, root, fields, _, found, planned, realized⟩ := start_eq_ok_iff.mp started
  obtain ⟨object, realizes, same⟩ := realizes_of_startWith realized
  obtain ⟨known, isObject⟩ := Schema.root?_eq_some found
  have plans := (planRoot_eq_ok_iff known isObject).mp planned
  have composite := isComposite_root found operation.items (Path.root name)
  obtain ⟨type, _, parts⟩ := plans.exists_parts composite
  have keys : traversal.progress.paths.keys = [Path.root name] := by
    rw [realizes.paths, OrderedMap.keys_insert]
    rfl
  have areBelow : ∀ child ∈ traversal.tasks,
      child.path = (Path.root name).child child.occurrences.responseName := by
    rw [same]
    exact plans.path_of_task composite
  have distinct : (traversal.tasks.map Task.path).Nodup := by
    rw [same]
    exact parts.nodup_tasks
  have named : traversal.name = name := by rw [same]
  rw [named, keys]
  refine ⟨⟨rfl, Path.parentsFirst_singleton _, ?_, fun path isPending => ?_⟩, rfl,
    fun child isChild => ?_⟩
  · refine List.nodup_cons.mpr ⟨fun member => ?_, distinct⟩
    obtain ⟨child, isChild, isRoot⟩ := List.mem_map.mp member
    have depths := congrArg Path.depth (isRoot.symm.trans (areBelow child isChild))
    rw [Path.depth_child] at depths
    exact absurd depths (by simp [Path.root, Path.depth])
  · obtain ⟨child, isChild, rfl⟩ := List.mem_map.mp isPending
    exact ⟨_, List.mem_cons_self, _, areBelow child isChild⟩
  · rw [areBelow child isChild, Path.depth_child]
    rfl

/-- The root is above all tasks, and these are on one level. -/
theorem levelled_of_start
    (started : environment.start policy catalog operation = .ok traversal) :
    Path.Levelled traversal.progress.paths.keys (traversal.tasks.map Task.path) := by
  obtain ⟨_, keys, depths⟩ := frontier_of_start started
  have below : ∀ path ∈ traversal.tasks.map Task.path, path.depth = 2 := by
    intro path isTask
    obtain ⟨child, isChild, rfl⟩ := List.mem_map.mp isTask
    exact depths child isChild
  rw [keys]
  constructor
  · refine List.pairwise_cons.mpr ⟨fun path isTask => ?_, Path.sorted_of_level below⟩
    rw [below path isTask]
    exact Nat.le_succ 1
  · intro path isTask other isOther
    rw [below path isTask, below other isOther]
    exact Nat.le_succ 2

/-- **A queue that is worked off leaves positions in level order.** -/
theorem WorksOff.levelOrder {name : String}
    (worksOff : environment.WorksOff policy progress queue outcome)
    (succeeded : outcome = .ok final)
    (composite : ∀ task ∈ queue, environment.IsComposite task)
    (frontier : Path.Frontier name progress.paths.keys (queue.map Task.path))
    (levelled : Path.Levelled progress.paths.keys (queue.map Task.path)) :
    Path.LevelOrder (Path.root name) final.paths.keys := by
  induction worksOff with
  | done =>
      obtain rfl := Except.ok.inj succeeded
      exact frontier.levelOrder levelled
  | failed => cases succeeded
  | @step progress next task queue children _ stepped _ ih =>
      have here := composite task List.mem_cons_self
      rw [← List.nil_append (task :: queue)] at frontier
      obtain ⟨keys, later⟩ := frontier_of_step here frontier stepped
      obtain ⟨plan, own, objects, planned, rfl, _⟩ := step_eq_ok here stepped
      refine ih succeeded (fun other isQueued => ?_) later ?_
      · rcases List.mem_append.mp isQueued with waited | isLeft
        · exact composite other (List.mem_cons_of_mem _ waited)
        · exact planned.isComposite_of_task here other isLeft
      · rw [keys, List.map_append]
        refine levelled.build fun path isChild => ?_
        obtain ⟨child, isLeft, rfl⟩ := List.mem_map.mp isChild
        rw [planned.path_of_task here child isLeft, Path.depth_child]

/-! ## The tasks of a pass -/

/-- Does so many passes, whether or not any task is left. -/
def passTimes (environment : Environment) (policy : NamePolicy) :
    Nat → Progress → List Task → Outcome (Progress × List Task)
  | 0, progress, tasks => .ok (progress, tasks)
  | passes + 1, progress, tasks => do
      let (next, left) ← environment.pass policy progress tasks
      passTimes environment policy passes next left

/-- **Each pass leaves tasks one level below its own.** -/
theorem depth_of_passTimes {passes level : Nat} (levels : ∀ task ∈ tasks, task.path.depth = level)
    (passed : environment.passTimes policy passes progress tasks = .ok (next, left)) :
    ∀ child ∈ left, child.path.depth = level + passes := by
  induction passes generalizing progress tasks level with
  | zero =>
      obtain ⟨rfl, rfl⟩ := Prod.mk.inj (Except.ok.inj passed)
      exact levels
  | succ passes ih =>
      obtain ⟨⟨between, leftByFirst⟩, first, others⟩ := bind_eq_ok_iff.mp passed
      have below : ∀ child ∈ leftByFirst, child.path.depth = level + 1 := by
        intro child isLeft
        obtain ⟨parent, isTask, plan, planned, here⟩ := origin_of_pass first child isLeft
        rw [planned.path_of_task (planned.isComposite_of_mem here) child here, Path.depth_child,
          levels parent isTask]
      intro child isLeft
      rw [ih below others child isLeft]
      omega

/-- **Draining in passes goes breadth first.** When the fragments are accepted, draining any tasks
from any state has the outcome of working them off with one queue, and leaves no task. The passes
of an operation that was started go down level by level, and an operation that is built has its
positions in level order. -/
theorem breadthFirst_of_accepted {schema : Schema} {documents : List Document}
    {fragments : FragmentTable} (accepted : FragmentTable.ofDocuments documents = .ok fragments)
    (policy : NamePolicy) :
    (∀ progress tasks,
      (∀ outcome, (Environment.mk schema fragments).WorksOff policy progress tasks outcome ↔
        ((Environment.mk schema fragments).drain policy progress tasks).map Drained.progress =
          outcome) ∧
      ∀ drained, (Environment.mk schema fragments).drain policy progress tasks = .ok drained →
        drained.left = []) ∧
    ∀ catalog operation,
      (∀ traversal, (Environment.mk schema fragments).start policy catalog operation =
          .ok traversal →
        ∀ passes progress tasks,
          (Environment.mk schema fragments).passTimes policy passes traversal.progress
            traversal.tasks = .ok (progress, tasks) →
          ∀ task ∈ tasks, task.path.depth = passes + 2) ∧
      ∀ later model,
        (Environment.mk schema fragments).buildOperation policy catalog operation =
          .ok (later, model) →
        Path.LevelOrder (Path.root model.name) model.paths.keys := by
  obtain ⟨_, _, rank, ranked⟩ := FragmentTable.ranked_of_ofDocuments accepted
  have ranked : (Environment.mk schema fragments).fragments.Ranked rank := ranked
  refine ⟨fun progress tasks =>
      ⟨fun outcome => worksOff_iff_of_ranked ranked, fun drained done => ?_⟩,
    fun catalog operation => ⟨fun traversal started passes progress tasks passed => ?_,
      fun later model built => ?_⟩⟩
  · obtain ⟨passes, found, drains⟩ := exists_drains_of_ranked ranked policy progress tasks
    obtain ⟨final, _, rfl⟩ := map_eq_ok_iff.mp ((drain_of_drains drains).symm.trans done)
    rfl
  · intro task isTask
    rw [depth_of_passTimes (frontier_of_start started).2.2 passed task isTask, Nat.add_comm]
  · obtain ⟨traversal, started, rest⟩ := bind_eq_ok_iff.mp built
    obtain ⟨drained, done, same⟩ := bind_eq_ok_iff.mp rest
    obtain ⟨rfl, rfl⟩ := Prod.mk.inj (Except.ok.inj same)
    have worksOff : (Environment.mk schema fragments).WorksOff policy traversal.progress
        traversal.tasks (.ok drained.progress) :=
      (worksOff_iff_of_ranked ranked).mpr (by rw [done]; rfl)
    exact worksOff.levelOrder rfl (isComposite_of_start started) (frontier_of_start started).1
      (levelled_of_start started)

end Environment

/-! ## Both pets before their owners -/

namespace Environment

open Sample

theorem breadthFirst_of_pets : ∃ fragments traversal progress tasks later model,
    FragmentTable.ofDocuments [[.operation pairQuery, .fragment catFragment]] = .ok fragments ∧
      (Environment.mk petSchema fragments).start ⟨[], []⟩ Catalog.empty pairQuery =
        .ok traversal ∧
      (Environment.mk petSchema fragments).passTimes ⟨[], []⟩ 1 traversal.progress
        traversal.tasks = .ok (progress, tasks) ∧
      tasks.map Task.path = [⟨["Q", "pet", "owner"]⟩, ⟨["Q", "other", "owner"]⟩] ∧
      (∀ task ∈ tasks, task.path.depth = 1 + 2) ∧
      (∃ drained : Drained,
        (Environment.mk petSchema fragments).WorksOff ⟨[], []⟩ traversal.progress
          traversal.tasks (.ok drained.progress) ∧ drained.left = []) ∧
      (Environment.mk petSchema fragments).buildOperation ⟨[], []⟩ Catalog.empty pairQuery =
        .ok (later, model) ∧
      model.paths.keys = [⟨["Q"]⟩, ⟨["Q", "pet"]⟩, ⟨["Q", "other"]⟩, ⟨["Q", "pet", "owner"]⟩,
        ⟨["Q", "other", "owner"]⟩] ∧
      Path.LevelOrder (Path.root model.name) model.paths.keys := by
  have accepted := accepted_of_catFragment
    (show Document.fragments [[.operation pairQuery, .fragment catFragment]] = [catFragment]
      from rfl)
  have onePass : (petEnvironment.start ⟨[], []⟩ Catalog.empty pairQuery >>= fun traversal =>
      petEnvironment.passTimes ⟨[], []⟩ 1 traversal.progress traversal.tasks).map
        (fun reached => reached.2.map Task.path) =
      .ok [⟨["Q", "pet", "owner"]⟩, ⟨["Q", "other", "owner"]⟩] := by decide +kernel
  have computed : (petEnvironment.buildOperation ⟨[], []⟩ Catalog.empty pairQuery).map
      (fun built => built.2.paths.keys) =
      .ok [⟨["Q"]⟩, ⟨["Q", "pet"]⟩, ⟨["Q", "other"]⟩, ⟨["Q", "pet", "owner"]⟩,
        ⟨["Q", "other", "owner"]⟩] :=
    map_buildOperation_of_within 4 (by decide +kernel)
  obtain ⟨⟨progress, tasks⟩, reached, owners⟩ := map_eq_ok_iff.mp onePass
  obtain ⟨traversal, started, passed⟩ := bind_eq_ok_iff.mp reached
  obtain ⟨⟨later, model⟩, built, keys⟩ := map_eq_ok_iff.mp computed
  obtain ⟨traversal', started', rest⟩ := bind_eq_ok_iff.mp built
  obtain rfl := Except.ok.inj (started.symm.trans started')
  obtain ⟨drained, done, _⟩ := bind_eq_ok_iff.mp rest
  obtain ⟨loops, operations⟩ :=
    @breadthFirst_of_accepted petSchema _ _ accepted ⟨[], []⟩
  obtain ⟨worksOff, leaves⟩ := loops traversal.progress traversal.tasks
  obtain ⟨levels, ordered⟩ := operations Catalog.empty pairQuery
  exact ⟨_, traversal, progress, tasks, later, model, accepted, started, passed, owners,
    levels traversal started 1 progress tasks passed,
    ⟨drained, (worksOff _).mpr (congrArg (Except.map Drained.progress) done),
      leaves drained done⟩,
    built, keys, ordered later model built⟩

end Environment

end ResponseShape

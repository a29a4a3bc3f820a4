import ResponseShape.Proofs.Draining
import ResponseShape.Proofs.Expansion
import ResponseShape.Proofs.Naming

/-!
# Runs of a traversal

A traversal does tasks in the order in which they were left (`Environment.Runs`). Its history
lists the positions that were built, each with its task, its plan and its models. Passes that end
without an error are a run (`Environment.Drains.exists_run`). When the fragments are ranked, passes
do end (`Environment.exists_drains_of_ranked`), because a task's selections have a smaller expanded
depth than those of the task that left it.

What holds of the tasks at the start and passes from a task to the tasks that its plan leaves holds
of all tasks of the history (`Environment.Runs.forall_tasks`). Names and models that a run has once
given stay (`Environment.Runs.grows`), and a run adds the models of its history in their order
(`Environment.Runs.models`).
-/

set_option autoImplicit false

namespace ResponseShape

/-- A position that was built: its task, its plan and its models. -/
structure Built where
  task : Task
  plan : Plan
  own : TypeModel
  objects : List ObjectModel

/-- The models of the position by name. -/
def Built.entries (built : Built) : List (String × TypeModel) :=
  built.own.entries built.objects

/-- The value of the task is of an object type, an interface or a union. -/
def Environment.IsComposite (environment : Environment) (task : Task) : Prop :=
  ∃ type, environment.schema.type? task.namedType = some type ∧ type.isComposite = true

namespace Environment

variable {environment : Environment} {policy : NamePolicy} {task : Task} {plan : Plan}

theorem Plans.exists_parts (planned : environment.Plans task plan)
    (composite : environment.IsComposite task) :
    ∃ type, type.isComposite = true ∧ environment.PlanParts task type plan := by
  obtain ⟨type, known, isComposite⟩ := composite
  exact ⟨type, isComposite, planned.parts known isComposite⟩

theorem Plans.ne_leaf (planned : environment.Plans task plan)
    (composite : environment.IsComposite task) : plan ≠ .leaf := by
  obtain ⟨type, known, isComposite⟩ := composite
  rintro rfl
  cases planned with
  | leaf found _ kind =>
      obtain rfl := Option.some.inj (found.symm.trans known)
      rcases kind with kind | kind <;> simp [TypeDefinition.isComposite, kind] at isComposite

theorem Plans.isComposite_of_task (planned : environment.Plans task plan)
    (composite : environment.IsComposite task) :
    ∀ child ∈ plan.tasks, environment.IsComposite child := by
  obtain ⟨type, _, parts⟩ := planned.exists_parts composite
  exact fun child isChild => parts.composite_of_task isChild

/-- A task that a plan leaves lies one segment below the plan's own. -/
theorem Plans.path_of_task (planned : environment.Plans task plan)
    (composite : environment.IsComposite task) :
    ∀ child ∈ plan.tasks, child.path = task.path.child child.occurrences.responseName := by
  obtain ⟨type, _, parts⟩ := planned.exists_parts composite
  exact fun child isChild => parts.path_of_task isChild

/-! ## Runs -/

/-- A run does the first task of the queue and puts the tasks that it leaves behind the others,
until the queue is empty. -/
inductive Runs (environment : Environment) :
    Progress → List Task → List Built → Progress → Prop where
  | done (progress : Progress) : Runs environment progress [] [] progress
  | step {before after final : Progress} {task : Task} {plan : Plan} {own : TypeModel}
      {objects : List ObjectModel} {queue : List Task} {history : List Built} :
      environment.Plans task plan →
        before.Realizes after (.field task.path) task.path plan own objects →
        Runs environment after (queue ++ plan.tasks) history final →
        Runs environment before (task :: queue) (⟨task, plan, own, objects⟩ :: history) final

namespace Runs

variable {before final : Progress} {queue : List Task} {history : List Built} {built : Built}

/-- **What passes from a task to the tasks it leaves holds of all tasks of a run.** -/
theorem forall_tasks (holds : Task → Prop)
    (runs : environment.Runs before queue history final) (start : ∀ task ∈ queue, holds task)
    (passes : ∀ task plan, environment.Plans task plan → holds task →
      ∀ child ∈ plan.tasks, holds child) :
    ∀ built ∈ history, holds built.task := by
  induction runs with
  | done => simp
  | step planned _ _ ih =>
      have here := start _ List.mem_cons_self
      intro built member
      rcases List.mem_cons.mp member with rfl | later
      · exact here
      · refine ih (fun task isWaiting => ?_) built later
        rcases List.mem_append.mp isWaiting with waited | left
        · exact start task (List.mem_cons_of_mem _ waited)
        · exact passes _ _ planned here task left

/-- Tasks below the root stay below the root. -/
theorem one_lt_depth (runs : environment.Runs before queue history final)
    (composite : ∀ task ∈ queue, environment.IsComposite task)
    (start : ∀ task ∈ queue, 1 < task.path.depth) :
    ∀ built ∈ history, 1 < built.task.path.depth := by
  have both := runs.forall_tasks
    (fun task => environment.IsComposite task ∧ 1 < task.path.depth)
    (fun task member => ⟨composite task member, start task member⟩)
    fun task plan planned here child isChild => by
      refine ⟨planned.isComposite_of_task here.1 child isChild, ?_⟩
      rw [planned.path_of_task here.1 child isChild, Path.depth_child]
      exact Nat.lt_succ_of_lt here.2
  exact fun built member => (both built member).2

theorem plans (runs : environment.Runs before queue history final) :
    ∀ built ∈ history, environment.Plans built.task built.plan := by
  induction runs with
  | done => simp
  | step planned _ _ ih =>
      intro built member
      rcases List.mem_cons.mp member with rfl | later
      · exact planned
      · exact ih built later

/-- Every task of the queue is done. -/
theorem exists_of_mem_queue (runs : environment.Runs before queue history final) :
    ∀ task ∈ queue, ∃ built ∈ history, built.task = task := by
  induction runs with
  | done => simp
  | step _ _ _ ih =>
      intro task member
      rcases List.mem_cons.mp member with rfl | later
      · exact ⟨_, List.mem_cons_self, rfl⟩
      · obtain ⟨built, isBuilt, same⟩ := ih task (List.mem_append_left _ later)
        exact ⟨built, List.mem_cons_of_mem _ isBuilt, same⟩

/-- **Every task that is left on the way is done.** -/
theorem exists_of_mem_tasks (runs : environment.Runs before queue history final) :
    ∀ built ∈ history, ∀ child ∈ built.plan.tasks, ∃ below ∈ history, below.task = child := by
  induction runs with
  | done => simp
  | step _ _ later ih =>
      intro built member child isChild
      rcases List.mem_cons.mp member with rfl | isLater
      · obtain ⟨below, isBelow, same⟩ :=
          later.exists_of_mem_queue child (List.mem_append_right _ isChild)
        exact ⟨below, List.mem_cons_of_mem _ isBelow, same⟩
      · obtain ⟨below, isBelow, same⟩ := ih built isLater child isChild
        exact ⟨below, List.mem_cons_of_mem _ isBelow, same⟩

/-- **Names and models stay.** -/
theorem grows (runs : environment.Runs before queue history final) :
    before.catalog.Grows final.catalog := by
  induction runs with
  | done => exact .refl _
  | step _ realized _ ih => exact realized.grows.trans ih

/-- **The models of the history are added in their order.** -/
theorem models (runs : environment.Runs before queue history final) :
    final.catalog.models.entries =
      before.catalog.models.entries ++ history.flatMap Built.entries := by
  induction runs with
  | done => simp
  | step _ realized _ ih =>
      rw [ih, realized.models, List.flatMap_cons, List.append_assoc]
      rfl

theorem distinct (runs : environment.Runs before queue history final)
    (start : before.catalog.models.keys.Nodup) : final.catalog.models.keys.Nodup := by
  induction runs with
  | done => exact start
  | step _ realized _ ih => exact ih (realized.distinct start)

/-- **The models of the history are named in the final catalog.** -/
theorem names (runs : environment.Runs before queue history final) :
    ∀ built ∈ history, final.catalog.NamesPlan built.plan built.own built.objects ∧
      final.catalog.nameOf? (.field built.task.path) = some built.own.name := by
  induction runs with
  | done => simp
  | step _ realized later ih =>
      intro built member
      rcases List.mem_cons.mp member with rfl | isLater
      · exact ⟨realized.names.mono later.grows, later.grows.names _ _ realized.owner⟩
      · exact ih built isLater

/-- Every model of the history is found by its name. -/
theorem registered (runs : environment.Runs before queue history final) :
    ∀ built ∈ history, ∀ entry ∈ built.entries,
      final.catalog.models.get? entry.1 = some entry.2 := by
  induction runs with
  | done => simp
  | step _ realized later ih =>
      intro built member entry isEntry
      rcases List.mem_cons.mp member with rfl | isLater
      · exact later.grows.model (realized.registered entry isEntry)
      · exact ih built isLater entry isEntry

/-- The model at a path stays when it has the name that was given to the path. -/
theorem paths_of_named (runs : environment.Runs before queue history final) {path : Path}
    {name : String} (found : before.paths.get? path = some name)
    (named : final.catalog.nameOf? (.field path) = some name ∨
      ∀ built ∈ history, built.task.path ≠ path) :
    final.paths.get? path = some name := by
  induction runs with
  | done => exact found
  | @step _ _ _ task _ own _ _ _ _ realized later ih =>
      refine ih ?_ (named.imp_right fun apart built member =>
        apart built (List.mem_cons_of_mem _ member))
      rw [realized.paths, OrderedMap.get?_insert]
      by_cases here : path = task.path
      · subst here
        have same := later.grows.names _ _ realized.owner
        rcases named with known | apart
        · rw [if_pos rfl, ← same, known]
        · exact absurd rfl (apart _ List.mem_cons_self)
      · rw [if_neg here, found]

/-- **The model of every position of the history is found at its path.** -/
theorem paths_of_mem (runs : environment.Runs before queue history final) :
    ∀ built ∈ history, final.paths.get? built.task.path = some built.own.name := by
  induction runs with
  | done => simp
  | step _ realized later ih =>
      intro built member
      rcases List.mem_cons.mp member with rfl | isLater
      · refine later.paths_of_named ?_ (.inl (later.grows.names _ _ realized.owner))
        rw [realized.paths, OrderedMap.get?_insert, if_pos rfl]
      · exact ih built isLater

/-- A path of the result was there at the start or is the path of a position of the history. -/
theorem origin_of_path (runs : environment.Runs before queue history final) {path : Path}
    {name : String} (found : final.paths.get? path = some name) :
    before.paths.get? path = some name ∨
      ∃ built ∈ history, built.task.path = path ∧ built.own.name = name := by
  induction runs with
  | done => exact .inl found
  | step _ realized _ ih =>
      rcases ih found with known | ⟨built, member, here⟩
      · rw [realized.paths, OrderedMap.get?_insert] at known
        split at known
        · rename_i same
          exact .inr ⟨_, List.mem_cons_self, same.symm, Option.some.inj known⟩
        · exact .inl known
      · exact .inr ⟨built, List.mem_cons_of_mem _ member, here⟩

/-- Every path has one model. -/
theorem nodup_paths (runs : environment.Runs before queue history final)
    (start : before.paths.keys.Nodup) : final.paths.keys.Nodup := by
  induction runs with
  | done => exact start
  | step _ realized _ ih =>
      refine ih ?_
      rw [realized.paths, OrderedMap.keys_insert]
      exact OrderedSet.nodup_add start

end Runs

/-! ## Passes -/

/-- A step realizes the plan of its task and leaves the tasks of the plan. -/
theorem step_eq_ok_iff {before after : Progress} {left : List Task} :
    environment.step policy before task = .ok (after, left) ↔
      ∃ plan, environment.Plans task plan ∧ left = plan.tasks ∧
        before.realize environment.schema policy.avoided task.path plan = .ok after := by
  constructor
  · intro done
    obtain ⟨plan, planned, rest⟩ := bind_eq_ok_iff.mp done
    obtain ⟨next, realized, same⟩ := bind_eq_ok_iff.mp rest
    obtain ⟨rfl, rfl⟩ := Prod.mk.inj (Except.ok.inj same)
    exact ⟨plan, plan_eq_ok_iff.mp planned, rfl, realized⟩
  · rintro ⟨plan, plans, rfl, realized⟩
    exact bind_eq_ok_iff.mpr
      ⟨plan, plan_eq_ok_iff.mpr plans, bind_eq_ok_iff.mpr ⟨after, realized, rfl⟩⟩

/-- A pass does its first task, then the others. -/
theorem pass_cons_eq_ok_iff {before after : Progress} {rest left : List Task} :
    environment.pass policy before (task :: rest) = .ok (after, left) ↔
      ∃ next leftByFirst leftByRest,
        environment.step policy before task = .ok (next, leftByFirst) ∧
          environment.pass policy next rest = .ok (after, leftByRest) ∧
            left = leftByFirst ++ leftByRest := by
  rw [pass, bind_eq_ok_iff]
  constructor
  · rintro ⟨⟨next, leftByFirst⟩, first, others⟩
    obtain ⟨⟨last, leftByRest⟩, passed, same⟩ := bind_eq_ok_iff.mp others
    obtain ⟨rfl, rfl⟩ := Prod.mk.inj (Except.ok.inj same)
    exact ⟨next, leftByFirst, leftByRest, first, passed, rfl⟩
  · rintro ⟨next, leftByFirst, leftByRest, first, passed, rfl⟩
    exact ⟨_, first, bind_eq_ok_iff.mpr ⟨_, passed, rfl⟩⟩

theorem step_eq_ok {before after : Progress} {left : List Task}
    (composite : environment.IsComposite task)
    (done : environment.step policy before task = .ok (after, left)) :
    ∃ plan own objects, environment.Plans task plan ∧ left = plan.tasks ∧
      before.Realizes after (.field task.path) task.path plan own objects := by
  obtain ⟨plan, planned, tasks, realized⟩ := step_eq_ok_iff.mp done
  obtain ⟨own, objects, realizes⟩ :=
    Progress.realizes_of_realize (planned.ne_leaf composite) realized
  exact ⟨plan, own, objects, planned, tasks, realizes⟩

/-- What a pass leaves was left by one of its tasks. -/
theorem origin_of_pass {before after : Progress} {tasks left : List Task}
    (passed : environment.pass policy before tasks = .ok (after, left)) :
    ∀ child ∈ left, ∃ task ∈ tasks, ∃ plan, environment.Plans task plan ∧ child ∈ plan.tasks := by
  induction tasks generalizing before left with
  | nil =>
      obtain ⟨rfl, rfl⟩ := Prod.mk.inj (Except.ok.inj passed)
      simp
  | cons task rest ih =>
      obtain ⟨between, leftByFirst, leftByRest, first, others, rfl⟩ :=
        pass_cons_eq_ok_iff.mp passed
      obtain ⟨plan, planned, rfl, _⟩ := step_eq_ok_iff.mp first
      intro child isLeft
      rcases List.mem_append.mp isLeft with byFirst | byRest
      · exact ⟨task, List.mem_cons_self, plan, planned, byFirst⟩
      · obtain ⟨other, isOther, here⟩ := ih others child byRest
        exact ⟨other, List.mem_cons_of_mem _ isOther, here⟩

/-- Only values with fields of their own leave tasks. -/
theorem Plans.isComposite_of_mem (planned : environment.Plans task plan) {child : Task}
    (isChild : child ∈ plan.tasks) : environment.IsComposite task := by
  cases planned with
  | leaf => cases isChild
  | object found _ kind | interface found _ kind | union found _ kind =>
      exact ⟨_, found, by rw [TypeDefinition.isComposite, kind]⟩

/-- What a pass leaves has composite values, whatever its tasks are. -/
theorem isComposite_of_pass {before after : Progress} {tasks left : List Task}
    (passed : environment.pass policy before tasks = .ok (after, left)) :
    ∀ child ∈ left, environment.IsComposite child := by
  intro child isLeft
  obtain ⟨task, _, plan, planned, here⟩ := origin_of_pass passed child isLeft
  exact planned.isComposite_of_task (planned.isComposite_of_mem here) child here

/-- **A pass is the part of a run that does its tasks.** -/
theorem exists_run_of_pass {before after : Progress} {tasks left : List Task}
    (composite : ∀ task ∈ tasks, environment.IsComposite task)
    (done : environment.pass policy before tasks = .ok (after, left)) :
    ∃ history, ∀ more later final, environment.Runs after (more ++ left) later final →
      environment.Runs before (tasks ++ more) (history ++ later) final := by
  induction tasks generalizing before left with
  | nil =>
      obtain ⟨rfl, rfl⟩ := Prod.mk.inj (Except.ok.inj done)
      exact ⟨[], fun more later final runs => by simpa using runs⟩
  | cons task rest ih =>
      obtain ⟨next, leftByFirst, leftByRest, first, passed, rfl⟩ := pass_cons_eq_ok_iff.mp done
      obtain ⟨plan, own, objects, planned, rfl, realized⟩ :=
        step_eq_ok (composite task List.mem_cons_self) first
      obtain ⟨history, runsOn⟩ :=
        ih (fun other member => composite other (List.mem_cons_of_mem _ member)) passed
      refine ⟨⟨task, plan, own, objects⟩ :: history, fun more later final runs => ?_⟩
      have waiting := runsOn (more ++ plan.tasks) later final (by rwa [List.append_assoc])
      rw [← List.append_assoc] at waiting
      exact .step planned realized waiting

/-- **Passes that end without an error are a run.** -/
theorem Drains.exists_run {before final : Progress} {tasks : List Task} {passes : Nat}
    {outcome : Outcome Progress} (drains : environment.Drains policy before tasks passes outcome)
    (succeeded : outcome = .ok final)
    (composite : ∀ task ∈ tasks, environment.IsComposite task) :
    ∃ history, environment.Runs before tasks history final := by
  induction drains with
  | done progress =>
      obtain rfl := Except.ok.inj succeeded
      exact ⟨[], .done progress⟩
  | failed => cases succeeded
  | pass passed _ ih =>
      obtain ⟨history, runsOn⟩ := exists_run_of_pass composite passed
      obtain ⟨later, runs⟩ := ih succeeded (isComposite_of_pass passed)
      refine ⟨history ++ later, ?_⟩
      simpa using runsOn [] later final (by simpa using runs)

/-! ## Every task is done -/

/-- The selections of all occurrences of the task have an expansion of the depth at most. -/
def TaskWithin (environment : Environment) (depth : Nat) (task : Task) : Prop :=
  ∀ occurrence ∈ task.occurrences.toList,
    environment.fragments.Within depth occurrence.node.items

/-- **The tasks that a plan leaves are less deep.** -/
theorem Plans.within_of_task (planned : environment.Plans task plan)
    (composite : environment.IsComposite task) {depth : Nat}
    (within : environment.TaskWithin depth task) :
    ∀ child ∈ plan.tasks, 0 < depth ∧ environment.TaskWithin (depth - 1) child := by
  obtain ⟨type, _, parts⟩ := planned.exists_parts composite
  intro child isChild
  have less : ∀ selected ∈ child.occurrences.toList, 0 < depth ∧
      environment.fragments.Within (depth - 1) selected.node.items := by
    intro selected member
    obtain ⟨field, isField, _, _, here⟩ := (parts.origin_of_task isChild).2 selected member
    obtain ⟨_, occurrence, isOccurrence, _, _, collected, inFields⟩ :=
      parts.exists_selecting isField selected here
    exact within_of_collectFor (within occurrence isOccurrence) collected selected inFields
  exact ⟨(less _ List.mem_cons_self).1, fun selected member => (less selected member).2⟩

/-- The tasks that a pass leaves are less deep. -/
theorem within_of_pass {before after : Progress} {tasks left : List Task} {depth : Nat}
    (within : ∀ task ∈ tasks, environment.TaskWithin depth task)
    (passed : environment.pass policy before tasks = .ok (after, left)) :
    ∀ child ∈ left, 0 < depth ∧ environment.TaskWithin (depth - 1) child := by
  intro child isLeft
  obtain ⟨task, isTask, plan, planned, here⟩ := origin_of_pass passed child isLeft
  exact planned.within_of_task (planned.isComposite_of_mem here) (within task isTask) child here

/-- **Tasks of bounded depth are done after one pass more than that.** -/
theorem exists_drains {before : Progress} {tasks : List Task} {depth : Nat}
    (within : ∀ task ∈ tasks, environment.TaskWithin depth task) :
    ∃ passes outcome, environment.Drains policy before tasks passes outcome ∧
      passes ≤ depth + 1 := by
  induction depth generalizing before tasks with
  | zero =>
      cases tasks with
      | nil => exact ⟨0, _, .done before, Nat.zero_le _⟩
      | cons task rest =>
          cases passed : environment.pass policy before (task :: rest) with
          | error error => exact ⟨1, _, .failed passed, Nat.le_refl 1⟩
          | ok done =>
              obtain ⟨next, left⟩ := done
              have none : left = [] := List.eq_nil_iff_forall_not_mem.mpr fun child isLeft =>
                absurd (within_of_pass within passed child isLeft).1 (Nat.lt_irrefl 0)
              rw [none] at passed
              exact ⟨1, _, .pass passed (.done next), Nat.le_refl 1⟩
  | succ depth ih =>
      cases tasks with
      | nil => exact ⟨0, _, .done before, Nat.zero_le _⟩
      | cons task rest =>
          cases passed : environment.pass policy before (task :: rest) with
          | error error => exact ⟨1, _, .failed passed, by omega⟩
          | ok done =>
              obtain ⟨next, left⟩ := done
              obtain ⟨passes, outcome, drains, bound⟩ :=
                ih fun child isLeft => (within_of_pass within passed child isLeft).2
              exact ⟨passes + 1, outcome, .pass passed drains, Nat.succ_le_succ bound⟩

theorem le_foldr_max {α : Type} (measure : α → Nat) {items : List α} {item : α}
    (member : item ∈ items) :
    measure item ≤ items.foldr (fun item greatest => max (measure item) greatest) 0 := by
  induction items with
  | nil => cases member
  | cons first rest ih =>
      rcases List.mem_cons.mp member with rfl | later
      · exact Nat.le_max_left _ _
      · exact Nat.le_trans (ih later) (Nat.le_max_right _ _)

/-- How many fields the selections of a task nest into each other at most. -/
def taskDepth (task : Task) : Nat :=
  task.occurrences.toList.foldr
    (fun field depth => max (Selection.listFieldDepth field.node.items) depth) 0

/-- Where fragments are ranked, tasks are of bounded depth. -/
theorem exists_taskWithin {rank : String → Nat} (ranked : environment.fragments.Ranked rank)
    (tasks : List Task) : ∃ depth, ∀ task ∈ tasks, environment.TaskWithin depth task := by
  refine ⟨tasks.foldr (fun task depth => max (taskDepth task) depth) 0 +
    environment.fragments.totalDepth, ?_⟩
  intro task isTask occurrence isOccurrence
  refine (ranked.within occurrence.node.items).mono ?_
  refine Nat.add_le_add_right (Nat.le_trans ?_ (le_foldr_max taskDepth isTask)) _
  exact le_foldr_max (fun field : SelectedField => Selection.listFieldDepth field.node.items)
    isOccurrence

/-- **Where fragments are ranked, passes come to an end.** -/
theorem exists_drains_of_ranked {rank : String → Nat} (ranked : environment.fragments.Ranked rank)
    (policy : NamePolicy) (before : Progress) (tasks : List Task) :
    ∃ passes outcome, environment.Drains policy before tasks passes outcome := by
  obtain ⟨_, within⟩ := exists_taskWithin ranked tasks
  obtain ⟨passes, outcome, drains, _⟩ := exists_drains within
  exact ⟨passes, outcome, drains⟩

end Environment

end ResponseShape

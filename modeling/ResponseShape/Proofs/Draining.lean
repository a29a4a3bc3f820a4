import ResponseShape.Analysis
import ResponseShape.Proofs.Outcome

/-!
# How draining ends

Nothing bounds the passes over the tasks of an operation, so draining need not end. How it ends,
where it does, is a relation: passes go on until no task is left or a pass fails
(`Environment.Drains`), an operation is completed by its start and its passes
(`Environment.Completes`), and operations are completed in turn (`Environment.CompletesAll`).
Each of these ends in one way at most, and what the program computes is that end
(`Environment.drain_of_drains`, `Environment.buildOperation_of_completes`,
`Environment.buildOperations_of_completesAll`). Where there is no end, nothing is said about what
the program computes.

An end that takes few passes can be computed. `Environment.drainWithin` does as many passes as it
is allowed and has no result when tasks are left after them, so each result that it has is the end
(`Environment.drains_of_drainWithin`).
-/

set_option autoImplicit false

namespace ResponseShape

/-- What an operation gives when its passes leave this progress. -/
def Traversal.result (traversal : Traversal) (final : Progress) : Catalog × OperationModel :=
  (final.catalog,
    { name := traversal.name, kind := traversal.kind, rootType := traversal.rootType,
      paths := final.paths })

namespace Environment

variable {environment : Environment} {policy : NamePolicy} {catalog later : Catalog}
  {progress final : Progress} {tasks : List Task} {passes allowance : Nat}
  {outcome : Outcome Progress} {operation : OperationDefinition} {model : OperationModel}

/-- Passes until no task is left. A pass that fails is the last one. -/
inductive Drains (environment : Environment) (policy : NamePolicy) :
    Progress → List Task → Nat → Outcome Progress → Prop where
  | done (progress : Progress) : Drains environment policy progress [] 0 (.ok progress)
  | failed {progress : Progress} {task : Task} {rest : List Task} {error : AnalysisError} :
      environment.pass policy progress (task :: rest) = .error error →
        Drains environment policy progress (task :: rest) 1 (.error error)
  | pass {progress next : Progress} {task : Task} {rest left : List Task} {passes : Nat}
      {outcome : Outcome Progress} :
      environment.pass policy progress (task :: rest) = .ok (next, left) →
        Drains environment policy next left passes outcome →
        Drains environment policy progress (task :: rest) (passes + 1) outcome

/-- Passes end in one way. -/
theorem Drains.unique (drains : environment.Drains policy progress tasks passes outcome)
    {passes' : Nat} {outcome' : Outcome Progress}
    (drains' : environment.Drains policy progress tasks passes' outcome') :
    passes = passes' ∧ outcome = outcome' := by
  induction drains generalizing passes' outcome' with
  | done =>
      cases drains'
      exact ⟨rfl, rfl⟩
  | failed failed =>
      cases drains' with
      | failed failed' =>
          obtain rfl := Except.error.inj (failed.symm.trans failed')
          exact ⟨rfl, rfl⟩
      | pass passed => cases failed.symm.trans passed
  | pass passed _ ih =>
      cases drains' with
      | failed failed => cases failed.symm.trans passed
      | pass passed' later =>
          obtain ⟨rfl, rfl⟩ := Prod.mk.inj (Except.ok.inj (passed.symm.trans passed'))
          obtain ⟨rfl, rfl⟩ := ih later
          exact ⟨rfl, rfl⟩

/-- Draining is one pass, and draining what it leaves. -/
theorem repeatM_passOn (environment : Environment) (policy : NamePolicy) (drained : Drained) :
    repeatM (environment.passOn policy) drained =
      environment.passOn policy drained >>= fun
        | .inl next => repeatM (environment.passOn policy) next
        | .inr last => .ok last := by
  rw [repeatM_eq_of_monadTail, repeatM.body]
  refine congrArg (fun next => _ >>= next) (funext fun step => ?_)
  cases step <;> rfl

theorem repeatM_of_drains (drains : environment.Drains policy progress tasks passes outcome)
    (before : Nat) :
    repeatM (environment.passOn policy) ⟨progress, before, tasks⟩ =
      outcome.map (fun final => ⟨final, before + passes, []⟩) := by
  induction drains generalizing before with
  | done =>
      rw [repeatM_passOn]
      rfl
  | failed failed =>
      rw [repeatM_passOn, passOn]
      simp only [failed]
      rfl
  | @pass _ next _ _ left passes _ passed _ ih =>
      rw [repeatM_passOn, passOn]
      simp only [passed]
      change repeatM (environment.passOn policy) ⟨next, before + 1, left⟩ = _
      rw [ih, Nat.add_assoc, Nat.add_comm 1]

/-- **Draining gives the end of the passes**, with no task left. -/
theorem drain_of_drains (drains : environment.Drains policy progress tasks passes outcome) :
    environment.drain policy progress tasks =
      outcome.map (fun final => ⟨final, passes, []⟩) := by
  rw [drain, repeatM_of_drains drains, Nat.zero_add]

/-! ## Operations -/

/-- An operation that cannot be started fails. One that was started ends with its passes. -/
inductive Completes (environment : Environment) (policy : NamePolicy) (catalog : Catalog)
    (operation : OperationDefinition) : Outcome (Catalog × OperationModel) → Prop where
  | unstarted {error : AnalysisError} :
      environment.start policy catalog operation = .error error →
        Completes environment policy catalog operation (.error error)
  | drained {traversal : Traversal} {passes : Nat} {outcome : Outcome Progress} :
      environment.start policy catalog operation = .ok traversal →
        environment.Drains policy traversal.progress traversal.tasks passes outcome →
        Completes environment policy catalog operation (outcome.map traversal.result)

/-- **Building an operation gives the end of its passes.** -/
theorem buildOperation_of_completes {outcome : Outcome (Catalog × OperationModel)}
    (completes : environment.Completes policy catalog operation outcome) :
    environment.buildOperation policy catalog operation = outcome := by
  cases completes with
  | unstarted failed => rw [buildOperation, failed]; rfl
  | @drained _ _ outcome started drains =>
      rw [buildOperation, started]
      change environment.drain policy _ _ >>= _ = _
      rw [drain_of_drains drains]
      cases outcome <;> rfl

/-- An operation that is completed with a result was started, and its passes did not fail. -/
theorem completes_ok_iff :
    environment.Completes policy catalog operation (.ok (later, model)) ↔
      ∃ traversal passes final, environment.start policy catalog operation = .ok traversal ∧
        environment.Drains policy traversal.progress traversal.tasks passes (.ok final) ∧
        traversal.result final = (later, model) := by
  constructor
  · intro completes
    generalize same : Except.ok (later, model) = result at completes
    cases completes with
    | unstarted => cases same
    | drained started drains =>
        obtain ⟨final, rfl, result⟩ := map_eq_ok_iff.mp same.symm
        exact ⟨_, _, final, started, drains, result⟩
  · rintro ⟨traversal, passes, final, started, drains, result⟩
    exact result ▸ .drained started drains

/-- Operations are completed in turn, up to the first that fails. -/
inductive CompletesAll (environment : Environment) (policy : NamePolicy) :
    Catalog → List OperationDefinition → Outcome (Catalog × List OperationModel) → Prop where
  | nil (catalog : Catalog) : CompletesAll environment policy catalog [] (.ok (catalog, []))
  | failed {catalog : Catalog} {operation : OperationDefinition}
      {rest : List OperationDefinition} {error : AnalysisError} :
      environment.Completes policy catalog operation (.error error) →
        CompletesAll environment policy catalog (operation :: rest) (.error error)
  | cons {catalog next : Catalog} {operation : OperationDefinition}
      {rest : List OperationDefinition} {model : OperationModel}
      {outcome : Outcome (Catalog × List OperationModel)} :
      environment.Completes policy catalog operation (.ok (next, model)) →
        CompletesAll environment policy next rest outcome →
        CompletesAll environment policy catalog (operation :: rest)
          (outcome.map fun built => (built.1, model :: built.2))

/-- **Building operations gives the end of all their passes.** -/
theorem buildOperations_of_completesAll {operations : List OperationDefinition}
    {outcome : Outcome (Catalog × List OperationModel)}
    (completes : environment.CompletesAll policy catalog operations outcome) :
    environment.buildOperations policy catalog operations = outcome := by
  induction completes with
  | nil => rfl
  | failed failed =>
      rw [buildOperations, buildOperation_of_completes failed]
      rfl
  | @cons _ _ _ _ _ outcome first _ ih =>
      rw [buildOperations, buildOperation_of_completes first]
      change environment.buildOperations policy _ _ >>= _ = _
      rw [ih]
      cases outcome <;> rfl

/-- Operations are completed with a result when the first is, and then the others are. -/
theorem completesAll_cons_ok_iff {rest : List OperationDefinition}
    {models : List OperationModel} :
    environment.CompletesAll policy catalog (operation :: rest) (.ok (later, models)) ↔
      ∃ next model others, environment.Completes policy catalog operation (.ok (next, model)) ∧
        environment.CompletesAll policy next rest (.ok (later, others)) ∧
        models = model :: others := by
  constructor
  · intro completes
    generalize same : Except.ok (later, models) = result at completes
    cases completes with
    | failed => cases same
    | cons first others =>
        obtain ⟨⟨_, built⟩, rfl, result⟩ := map_eq_ok_iff.mp same.symm
        obtain ⟨rfl, rfl⟩ := Prod.mk.inj result
        exact ⟨_, _, built, first, others, rfl⟩
  · rintro ⟨next, model, others, first, completes, rfl⟩
    exact .cons first completes

/-! ## Ends that take few passes -/

/-- How the passes end, and after how many of them, if they end within the allowance. -/
def drainWithin (environment : Environment) (policy : NamePolicy) :
    (allowance : Nat) → Progress → List Task → Option (Nat × Outcome Progress)
  | _, progress, [] => some (0, .ok progress)
  | 0, _, _ :: _ => none
  | allowance + 1, progress, task :: rest =>
      match environment.pass policy progress (task :: rest) with
      | .error error => some (1, .error error)
      | .ok (next, left) =>
          (drainWithin environment policy allowance next left).map fun drained =>
            (drained.1 + 1, drained.2)

/-- **An end that was computed is the end.** -/
theorem drains_of_drainWithin
    (computed : environment.drainWithin policy allowance progress tasks =
      some (passes, outcome)) :
    environment.Drains policy progress tasks passes outcome := by
  induction allowance generalizing progress tasks passes with
  | zero =>
      cases tasks with
      | nil =>
          obtain ⟨rfl, rfl⟩ := Prod.mk.inj (Option.some.inj computed)
          exact .done progress
      | cons => cases computed
  | succ allowance ih =>
      cases tasks with
      | nil =>
          obtain ⟨rfl, rfl⟩ := Prod.mk.inj (Option.some.inj computed)
          exact .done progress
      | cons task rest =>
          rw [drainWithin] at computed
          cases passed : environment.pass policy progress (task :: rest) with
          | error error =>
              rw [passed] at computed
              obtain ⟨rfl, rfl⟩ := Prod.mk.inj (Option.some.inj computed)
              exact .failed passed
          | ok done =>
              rw [passed] at computed
              obtain ⟨⟨later, _⟩, drained, same⟩ := Option.map_eq_some_iff.mp computed
              obtain ⟨rfl, rfl⟩ := Prod.mk.inj same
              exact .pass passed (ih drained)

/-- How an operation is completed, if its passes end within the allowance. -/
def completeWithin (environment : Environment) (policy : NamePolicy) (allowance : Nat)
    (catalog : Catalog) (operation : OperationDefinition) :
    Option (Outcome (Catalog × OperationModel)) :=
  match environment.start policy catalog operation with
  | .error error => some (.error error)
  | .ok traversal =>
      (environment.drainWithin policy allowance traversal.progress traversal.tasks).map
        fun drained => drained.2.map traversal.result

theorem completes_of_completeWithin {outcome : Outcome (Catalog × OperationModel)}
    (computed : environment.completeWithin policy allowance catalog operation = some outcome) :
    environment.Completes policy catalog operation outcome := by
  rw [completeWithin] at computed
  cases started : environment.start policy catalog operation with
  | error error =>
      rw [started] at computed
      exact Option.some.inj computed ▸ .unstarted started
  | ok traversal =>
      rw [started] at computed
      obtain ⟨⟨passes, _⟩, drained, rfl⟩ := Option.map_eq_some_iff.mp computed
      exact .drained started (drains_of_drainWithin drained)

/-- How operations are completed, if the passes of each end within the allowance. -/
def completeAllWithin (environment : Environment) (policy : NamePolicy) (allowance : Nat) :
    Catalog → List OperationDefinition → Option (Outcome (Catalog × List OperationModel))
  | catalog, [] => some (.ok (catalog, []))
  | catalog, operation :: rest =>
      match environment.completeWithin policy allowance catalog operation with
      | none => none
      | some (.error error) => some (.error error)
      | some (.ok (next, model)) =>
          (completeAllWithin environment policy allowance next rest).map
            (Except.map fun built => (built.1, model :: built.2))

theorem completesAll_of_completeAllWithin {operations : List OperationDefinition}
    {outcome : Outcome (Catalog × List OperationModel)}
    (computed : environment.completeAllWithin policy allowance catalog operations =
      some outcome) :
    environment.CompletesAll policy catalog operations outcome := by
  induction operations generalizing catalog outcome with
  | nil => exact Option.some.inj computed ▸ .nil catalog
  | cons operation rest ih =>
      rw [completeAllWithin] at computed
      cases first : environment.completeWithin policy allowance catalog operation with
      | none => simp [first] at computed
      | some result =>
          have here := completes_of_completeWithin first
          rw [first] at computed
          cases result with
          | error error => exact Option.some.inj computed ▸ .failed here
          | ok done =>
              obtain ⟨others, built, rfl⟩ := Option.map_eq_some_iff.mp computed
              exact .cons here (ih built)

/-- What is read off an operation that was completed within an allowance. -/
theorem map_buildOperation_of_within {β : Type} {read : Catalog × OperationModel → β}
    {result : Outcome β} (allowance : Nat)
    (computed : (environment.completeWithin policy allowance catalog operation).map
      (Except.map read) = some result) :
    (environment.buildOperation policy catalog operation).map read = result := by
  obtain ⟨outcome, completed, rfl⟩ := Option.map_eq_some_iff.mp computed
  rw [buildOperation_of_completes (completes_of_completeWithin completed)]

/-- What is read off operations that were completed within an allowance. -/
theorem map_buildOperations_of_within {operations : List OperationDefinition} {β : Type}
    {read : Catalog × List OperationModel → β} {result : Outcome β} (allowance : Nat)
    (computed : (environment.completeAllWithin policy allowance catalog operations).map
      (Except.map read) = some result) :
    (environment.buildOperations policy catalog operations).map read = result := by
  obtain ⟨outcome, completed, rfl⟩ := Option.map_eq_some_iff.mp computed
  rw [buildOperations_of_completesAll (completesAll_of_completeAllWithin completed)]

end Environment

namespace AnalysisRequest

/-- What an analysis has when it comes to the operations. -/
def prepare (request : AnalysisRequest) : Outcome (Environment × NamePolicy × Catalog) := do
  let schema ←
    match request.schema with
    | none => throw .missingSchema
    | some schema => pure schema
  if request.documents.isEmpty then throw .noDocuments
  let fragments ← FragmentTable.ofDocuments request.documents
  let policy := NamePolicy.ofDocuments request.documents (OrderedSet.ofList request.reserved)
  let usage := TypeUsage.ofDocuments schema request.documents
  let catalog ← Catalog.ofUsage schema usage policy.avoided
  return (⟨schema, fragments⟩, policy, catalog)

/-- An analysis builds the operations from what was prepared. -/
theorem analyze_eq (request : AnalysisRequest) :
    request.analyze = request.prepare >>= fun (environment, policy, catalog) =>
      (environment.buildOperations policy catalog (Document.operations request.documents)).map
        fun built => ⟨built.1.models, built.2⟩ := by
  rw [analyze, prepare]
  cases request.schema with
  | none => rfl
  | some schema =>
      simp only [pure_bind]
      split
      · rfl
      · simp only [bind_assoc, pure_bind]
        rfl

/-- The result of an analysis, if the passes of each operation end within the allowance. -/
def analyzeWithin (request : AnalysisRequest) (allowance : Nat) :
    Option (Outcome DocumentModel) :=
  match request.prepare with
  | .error error => some (.error error)
  | .ok (environment, policy, catalog) =>
      (environment.completeAllWithin policy allowance catalog
        (Document.operations request.documents)).map
          (Except.map fun built => ⟨built.1.models, built.2⟩)

/-- What is read off an analysis whose operations are completed within an allowance. -/
theorem map_analyze_of_within {request : AnalysisRequest} {β : Type} {read : DocumentModel → β}
    {result : Outcome β} (allowance : Nat)
    (computed : (request.analyzeWithin allowance).map (Except.map read) = some result) :
    request.analyze.map read = result := by
  obtain ⟨outcome, analyzed, rfl⟩ := Option.map_eq_some_iff.mp computed
  rw [analyzeWithin] at analyzed
  rw [analyze_eq]
  cases prepared : request.prepare with
  | error error =>
      rw [prepared] at analyzed
      obtain rfl := Option.some.inj analyzed
      rfl
  | ok done =>
      rw [prepared] at analyzed
      rw [← Environment.map_buildOperations_of_within _ analyzed]
      rfl

end AnalysisRequest

end ResponseShape

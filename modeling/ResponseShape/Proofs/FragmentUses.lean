import ResponseShape.Proofs.Failures
import ResponseShape.Proofs.Walk

/-!
# Uses of fragments

A selection set for values of one object type is read by entering the fragments that apply to that
type. `Environment.Enters` says which selections are come to in this way and in which scope they
stand, and `Environment.Exposes` says it of a single selection. A fragment counts wherever it is
spread: both are about what is written, and not about the order in which it is walked.

A walk that refuses a type condition has come to a use of it, in the scope that the error names, and
the condition is indeed not admitted there (`Environment.refusesUse_collectFor`).
-/

set_option autoImplicit false

namespace ResponseShape

namespace Environment

/-! ## What is exposed -/

/-- Selections `body` in the scope `around` are come to from `items` in `scope` by entering fragments
that are not excluded and that apply to the type `runtime`. -/
inductive Enters (environment : Environment) (runtime scope : TypeDefinition)
    (items : List Selection) : TypeDefinition → List Selection → Prop where
  | start : Enters environment runtime scope items scope items
  | bare {around : TypeDefinition} {body inner : List Selection} {directives : List Directive}
      {position : Position} {span : Span} :
      Enters environment runtime scope items around body →
        .inline none directives position span inner ∈ body → isExcluded directives = false →
        Enters environment runtime scope items around inner
  | inline {around type : TypeDefinition} {body inner : List Selection} {name : String}
      {directives : List Directive} {position : Position} {span : Span} :
      Enters environment runtime scope items around body →
        .inline (some name) directives position span inner ∈ body →
        isExcluded directives = false → environment.schema.type? name = some type →
        type.appliesTo runtime = true → Enters environment runtime scope items type inner
  | spread {around type : TypeDefinition} {body : List Selection} {name : String}
      {directives : List Directive} {position : Position} {fragment : FragmentDefinition} :
      Enters environment runtime scope items around body →
        .spread name directives position ∈ body → isExcluded directives = false →
        environment.fragments.find? name = some fragment →
        environment.schema.type? fragment.condition = some type →
        type.appliesTo runtime = true → Enters environment runtime scope items type fragment.items

/-- The selection stands in selections that are come to, in their scope. -/
def Exposes (environment : Environment) (runtime scope : TypeDefinition) (items : List Selection)
    (entry : ScopedSelection) : Prop :=
  ∃ body, environment.Enters runtime scope items entry.scope body ∧ entry.selection ∈ body

/-- The selection is a use of a fragment with the condition, and it is not excluded. -/
inductive Uses (environment : Environment) (condition : String) (position : Position) :
    Selection → Prop where
  | inline {directives : List Directive} {span : Span} {items : List Selection} :
      isExcluded directives = false →
        Uses environment condition position (.inline (some condition) directives position span items)
  | spread {name : String} {directives : List Directive} {fragment : FragmentDefinition} :
      isExcluded directives = false → environment.fragments.find? name = some fragment →
        fragment.condition = condition →
        Uses environment condition position (.spread name directives position)

variable {environment : Environment} {runtime scope around type : TypeDefinition}
  {items : List Selection}

theorem Enters.exposes {body : List Selection}
    (enters : environment.Enters runtime scope items around body) :
    ∀ entry ∈ ScopedSelection.inScope around body, environment.Exposes runtime scope items entry := by
  intro entry member
  obtain ⟨selection, isItem, rfl⟩ := List.mem_map.mp member
  exact ⟨body, enters, isItem⟩

/-- What is inside an inline fragment is exposed when the fragment is and applies. -/
theorem Exposes.inside_inline {condition : Option String} {directives : List Directive}
    {position : Position} {span : Span} {inner : List Selection}
    (exposed : environment.Exposes runtime scope items
      ⟨around, .inline condition directives position span inner⟩)
    (included : isExcluded directives = false)
    (admitted : environment.AdmitsInline condition around type)
    (applies : type.appliesTo runtime = true) :
    environment.Enters runtime scope items type inner := by
  obtain ⟨body, enters, member⟩ := exposed
  cases condition with
  | none =>
      obtain rfl : type = around := admitted
      exact .bare enters member included
  | some name => exact .inline enters member included admitted.1 applies

/-- What is inside a named fragment is exposed when a spread of it is and the fragment applies. -/
theorem Exposes.inside_spread {name : String} {directives : List Directive} {position : Position}
    {fragment : FragmentDefinition}
    (exposed : environment.Exposes runtime scope items ⟨around, .spread name directives position⟩)
    (included : isExcluded directives = false)
    (found : environment.fragments.find? name = some fragment)
    (admitted : environment.Admits fragment.condition around type)
    (applies : type.appliesTo runtime = true) :
    environment.Enters runtime scope items type fragment.items := by
  obtain ⟨body, enters, member⟩ := exposed
  exact .spread enters member included found admitted.1 applies

theorem exposes_append {first second : List ScopedSelection}
    (earlier : ∀ entry ∈ first, environment.Exposes runtime scope items entry)
    (later : ∀ entry ∈ second, environment.Exposes runtime scope items entry) :
    ∀ entry ∈ first ++ second, environment.Exposes runtime scope items entry := by
  intro entry member
  rcases List.mem_append.mp member with here | there
  · exact earlier entry here
  · exact later entry there

/-- What is come to from some of the selections is come to from all of them. -/
theorem Enters.of_subset {others body : List Selection}
    (enters : environment.Enters runtime scope others around body) (subset : others ⊆ items) :
    ∃ more, environment.Enters runtime scope items around more ∧ body ⊆ more := by
  induction enters with
  | start => exact ⟨items, .start, subset⟩
  | bare _ member included ih =>
      obtain ⟨more, enters, wider⟩ := ih
      exact ⟨_, .bare enters (wider member) included, List.Subset.refl _⟩
  | inline _ member included known applies ih =>
      obtain ⟨more, enters, wider⟩ := ih
      exact ⟨_, .inline enters (wider member) included known applies, List.Subset.refl _⟩
  | spread _ member included found known applies ih =>
      obtain ⟨more, enters, wider⟩ := ih
      exact ⟨_, .spread enters (wider member) included found known applies, List.Subset.refl _⟩

/-- Exposed selections stay exposed when siblings are added or change places. -/
theorem Exposes.of_subset {others : List Selection} {entry : ScopedSelection}
    (exposed : environment.Exposes runtime scope others entry) (subset : others ⊆ items) :
    environment.Exposes runtime scope items entry := by
  obtain ⟨body, enters, member⟩ := exposed
  obtain ⟨more, entersMore, wider⟩ := enters.of_subset subset
  exact ⟨more, entersMore, wider member⟩

/-! ## Uses that are refused -/

open Outcome

/-- If the error refuses a condition, then a use of the condition was exposed at that place, in a
scope of that name in which the condition is not admitted. -/
def RefusesUse (environment : Environment) (runtime scope : TypeDefinition)
    (items : List Selection) (error : AnalysisError) : Prop :=
  ∀ condition parent path position, error = .unknownTypeCondition condition parent path position →
    ∃ entry, environment.Exposes runtime scope items entry ∧
      environment.Uses condition position entry.selection ∧ entry.scope.name = parent ∧
      ∀ type, ¬ environment.Admits condition entry.scope type

theorem refusesUse_meet (groups : FieldGroups) (path : Path) (node : FieldNode) :
    FailsWith (environment.RefusesUse runtime scope items) (groups.meet path node) := by
  apply failsWith_update
  intro present
  cases present with
  | none => exact failsWith_ok node
  | some first =>
      rw [FieldNode.mergeAt]
      cases first.conflict? node with
      | none => exact failsWith_ok _
      | some conflict =>
          apply failsWith_error
          intro condition parent path position same
          cases same

/-- Resolving a condition fails in one way only. -/
theorem resolveCondition_eq_error {condition : String} {path : Path} {position : Position}
    {error : AnalysisError}
    (failed : environment.resolveCondition condition scope path position = .error error) :
    error = .unknownTypeCondition condition scope.name path position := by
  rw [resolveCondition] at failed
  split at failed
  · exact (Except.error.inj failed).symm
  · split at failed
    · cases failed
    · exact (Except.error.inj failed).symm

theorem refusesUse_resolveCondition {selection : Selection} {condition : String}
    {position : Position}
    (exposed : environment.Exposes runtime scope items ⟨around, selection⟩)
    (used : environment.Uses condition position selection) (path : Path) :
    FailsWith (environment.RefusesUse runtime scope items)
      (environment.resolveCondition condition around path position) := by
  intro error failed name parent place spot same
  have refused := (resolveCondition_eq_error failed).symm.trans same
  obtain ⟨rfl, rfl, _, rfl⟩ := AnalysisError.unknownTypeCondition.inj refused
  refine ⟨⟨around, selection⟩, exposed, used, rfl, ?_⟩
  intro type admitted
  rw [resolveCondition_eq_ok_iff.mpr admitted] at failed
  cases failed

theorem refusesUse_inlineScope {condition : Option String} {directives : List Directive}
    {position : Position} {span : Span} {inner : List Selection}
    (exposed : environment.Exposes runtime scope items
      ⟨around, .inline condition directives position span inner⟩)
    (included : isExcluded directives = false) (path : Path) :
    FailsWith (environment.RefusesUse runtime scope items)
      (environment.inlineScope condition around path position) := by
  cases condition with
  | none => exact failsWith_ok around
  | some name => exact refusesUse_resolveCondition exposed (.inline included) path

/-- **Walking what is exposed refuses uses that are exposed.** -/
theorem refusesUse_gather (path : Path) (gathering : Gathering) (agenda : List ScopedSelection)
    (exposed : ∀ entry ∈ agenda, environment.Exposes runtime scope items entry) :
    FailsWith (environment.RefusesUse runtime scope items)
      (environment.gather runtime path gathering agenda) := by
  -- Errors arise at the head of the agenda. The selections of a fragment that is entered are exposed
  -- because the use of the fragment is.
  fun_induction gather environment runtime path gathering agenda with
  | case1 gathering => exact failsWith_ok gathering
  | case3 _ _ _ _ _ _ _ error failed => exact failsWith_error (refusesUse_meet _ _ _ error failed)
  | case6 _ _ _ _ _ _ _ _ included error failed =>
      have here := exposed _ List.mem_cons_self
      have refused := refusesUse_inlineScope here (Bool.not_eq_true _ ▸ included) path
      exact failsWith_error (refused error failed)
  | case7 _ _ _ _ _ _ _ _ included type resolved applies ih =>
      obtain ⟨here, later⟩ := List.forall_mem_cons.mp exposed
      apply ih
      have entered := here.inside_inline (Bool.not_eq_true _ ▸ included)
        (inlineScope_eq_ok_iff.mp resolved) applies
      exact exposes_append entered.exposes later
  | case11 =>
      apply failsWith_error
      intro condition parent path position same
      cases same
  | case12 _ _ _ _ _ _ included _ fragment found error failed =>
      have here := exposed _ List.mem_cons_self
      have refused := refusesUse_resolveCondition here
        (.spread (Bool.not_eq_true _ ▸ included) found rfl) path
      exact failsWith_error (refused error failed)
  | case13 _ _ _ _ _ _ included _ fragment found type resolved applies ih =>
      obtain ⟨here, later⟩ := List.forall_mem_cons.mp exposed
      apply ih
      have entered := here.inside_spread (Bool.not_eq_true _ ▸ included) found
        (resolveCondition_eq_ok_iff.mp resolved) applies
      exact exposes_append entered.exposes later
  | case2 _ _ _ _ _ _ _ ih | case4 _ _ _ _ _ _ _ _ _ ih | case5 _ _ _ _ _ _ _ _ _ ih
  | case8 _ _ _ _ _ _ _ _ _ _ _ _ ih | case9 _ _ _ _ _ _ _ ih | case10 _ _ _ _ _ _ _ _ ih
  | case14 _ _ _ _ _ _ _ _ _ _ _ _ _ ih =>
      exact ih (List.forall_mem_cons.mp exposed).2

/-- **A condition that is reported was used**, in the scope that is reported and at that place. -/
theorem refusesUse_collectFor (runtime scope : TypeDefinition) (items : List Selection)
    (path : Path) :
    FailsWith (environment.RefusesUse runtime scope items)
      (environment.collectFor runtime scope items path) := by
  apply FailsWith.bind
  · exact refusesUse_gather path _ _ Enters.start.exposes
  · intro gathering _
    apply failsWith_mapM
    intro node _
    rw [selectField]
    split
    · apply failsWith_error
      intro condition parent path position same
      cases same
    · exact failsWith_ok _

end Environment

end ResponseShape

import ResponseShape.Proofs.Chains
import ResponseShape.Proofs.PlainForm

/-!
# Nested walks come to an end

Collecting can be written as a walk that calls itself for the selections of every fragment that it
enters, with a list of the names that were spread so far (`FragmentMap.walkWithin`). Such calls
nest into each other: a spread leads to a body that may be larger than the selections around it and
may contain the same spread again, and nothing is known about the fragments. So the nesting is
given an allowance, and a walk that uses it up has no result.

The allowance need not be larger than the selections and the bodies of all fragments together
(`FragmentMap.allowance`). The selections of an inline fragment are fewer than those around it, a
body takes its size from the fragments that have not been spread yet, and a name that was spread
stays so. With this allowance every walk has a result, and does what the walk over an agenda does
(`FragmentMap.returns_walkWithin`). So collecting comes to an end for any fragments, those that
spread each other in a circle included, and on each object type it walks the body of a named
fragment once at most (`FragmentMap.collectWithin_returns`). Every environment is read against its
own table in this way (`FragmentMap.collectWithin_ofTable`).
-/

set_option autoImplicit false

namespace ResponseShape

/-- Fragments under the names by which they are spread. A fragment need not stand under its own
name. -/
structure FragmentMap where
  entries : List (String × FragmentDefinition)

/-- A walk so far: the fields it met, the names that were spread, the last one first, and the names
of the fragments whose bodies were walked, in their order. -/
structure NestedWalk where
  groups : FieldGroups
  spread : List String
  bodies : List String

namespace NestedWalk

def start : NestedWalk :=
  ⟨OrderedMap.empty, [], []⟩

/-- What the walk has met. -/
def gathering (walk : NestedWalk) : Gathering :=
  ⟨walk.groups, walk.spread⟩

end NestedWalk

namespace FragmentMap

/-- The fragment that stands under the name. -/
def get? (map : FragmentMap) (name : String) : Option FragmentDefinition :=
  map.entries.lookup name

/-- The fragments, each with the name under which it stands. -/
def table (map : FragmentMap) : FragmentTable :=
  ⟨map.entries.map (fun entry => { entry.2 with name := entry.1 })⟩

/-- What selections are read against when the map has the fragments. -/
def environment (map : FragmentMap) (schema : Schema) : Environment :=
  ⟨schema, map.table⟩

/-- Fragments under their own names. -/
def ofTable (table : FragmentTable) : FragmentMap :=
  ⟨table.fragments.map (fun fragment => (fragment.name, fragment))⟩

/-- Reading against a table of fragments is reading against a map. -/
theorem environment_ofTable (schema : Schema) (fragments : FragmentTable) :
    (ofTable fragments).environment schema = ⟨schema, fragments⟩ := by
  simp [environment, ofTable, table, Function.comp_def]

/-- A name finds the same body and the same condition in the table as in the map. -/
theorem find?_table (map : FragmentMap) (name : String) :
    map.table.find? name = (map.get? name).map (fun fragment => { fragment with name }) := by
  obtain ⟨entries⟩ := map
  induction entries with
  | nil => rfl
  | cons entry rest ih =>
      obtain ⟨key, fragment⟩ := entry
      simp only [table, FragmentTable.find?, get?, List.map_cons, List.find?_cons] at ih ⊢
      by_cases same : key = name
      · subst same
        simp
      · have apart : (name == key) = false := by simpa using Ne.symm same
        rw [List.lookup_cons, apart, show (key == name) = false by simpa using same]
        exact ih

theorem find?_environment {map : FragmentMap} (schema : Schema) {name : String}
    {fragment : FragmentDefinition} (found : map.get? name = some fragment) :
    (map.environment schema).fragments.find? name = some { fragment with name } := by
  rw [environment, find?_table, found]
  rfl

/-! ## The walk -/

section Walking

variable (map : FragmentMap) (schema : Schema) (runtime : TypeDefinition) (path : Path)

/-- Walks one selection, given how the selections inside a fragment are walked. -/
def walkItem
    (inside : TypeDefinition → List Selection → NestedWalk → Option (NestedWalk × Outcome Unit))
    (scope : TypeDefinition) :
    Selection → NestedWalk → Option (NestedWalk × Outcome Unit)
  | .field head span items, walk =>
      if isExcluded head.directives then some (walk, .ok ())
      else
        match walk.groups.meet path ⟨head, span, items⟩ with
        | .error error => some (walk, .error error)
        | .ok groups => some ({ walk with groups }, .ok ())
  | .inline condition directives position _ items, walk =>
      if isExcluded directives then some (walk, .ok ())
      else
        match (map.environment schema).inlineScope condition scope path position with
        | .error error => some (walk, .error error)
        | .ok type =>
            if type.appliesTo runtime then inside type items walk else some (walk, .ok ())
  | .spread name directives position, walk =>
      if isExcluded directives || walk.spread.contains name then some (walk, .ok ())
      else
        let noted := { walk with spread := name :: walk.spread }
        match map.get? name with
        | none => some (noted, .error (.unknownFragment name path position))
        | some fragment =>
            match (map.environment schema).resolveCondition fragment.condition scope path
                position with
            | .error error => some (noted, .error error)
            | .ok type =>
                if type.appliesTo runtime then
                  inside type fragment.items { noted with bodies := noted.bodies ++ [name] }
                else some (noted, .ok ())

/-- Walks selections in turn, up to the first that fails. -/
def walkAll (item : Selection → NestedWalk → Option (NestedWalk × Outcome Unit)) :
    List Selection → NestedWalk → Option (NestedWalk × Outcome Unit)
  | [], walk => some (walk, .ok ())
  | selection :: rest, walk => do
      let (next, outcome) ← item selection walk
      match outcome with
      | .error error => return (next, .error error)
      | .ok () => walkAll item rest next

/-- Walks the selections of one scope. Walks of the selections inside fragments nest into each
other, `depth` of them at most; there is no result when that is not enough. -/
def walkWithin : (depth : Nat) → TypeDefinition → List Selection → NestedWalk →
    Option (NestedWalk × Outcome Unit)
  | 0 => fun _ _ _ => none
  | depth + 1 => fun scope items walk =>
      walkAll (map.walkItem schema runtime path (walkWithin depth) scope) items walk

end Walking

/-- The fields that the selections select on values of the type `runtime`, and the names of the
fragments whose bodies were walked. -/
def collectForWithin (map : FragmentMap) (schema : Schema) (depth : Nat)
    (runtime scope : TypeDefinition) (items : List Selection) (path : Path) :
    Option (List String × Outcome (List SelectedField)) := do
  let (walk, outcome) ←
    map.walkWithin schema runtime path depth scope items NestedWalk.start
  let fields := outcome >>= fun _ =>
    walk.groups.values.mapM (Environment.selectField runtime path)
  return (walk.bodies, fields)

/-- The fields that the selections select on the type itself. -/
def collectOnWithin (map : FragmentMap) (schema : Schema) (depth : Nat) (type : TypeDefinition)
    (items : List Selection) (path : Path) :
    Option (List String × Outcome (List SelectedField)) :=
  map.collectForWithin schema depth type type items path

/-- The fields that the selections select on each of the types, up to the first on which they
cannot be collected, and for each of these types the names of the fragments whose bodies were
walked. -/
def collectEachWithin (map : FragmentMap) (schema : Schema) (depth : Nat)
    (type : TypeDefinition) (items : List Selection) (path : Path) :
    List TypeDefinition → Option (List (List String) × Outcome (List (Variant SelectedField)))
  | [] => some ([], .ok [])
  | runtime :: rest => do
      let (bodies, outcome) ← map.collectForWithin schema depth runtime type items path
      match outcome with
      | .error error => return ([bodies], .error error)
      | .ok fields =>
          let (others, variants) ← collectEachWithin map schema depth type items path rest
          return (bodies :: others, variants.map (⟨runtime.name, fields⟩ :: ·))

/-- The fields that the selections select on each possible type. -/
def collectWithin (map : FragmentMap) (schema : Schema) (depth : Nat) (type : TypeDefinition)
    (items : List Selection) (path : Path) :
    Option (List (List String) × Outcome (List (Variant SelectedField))) :=
  map.collectEachWithin schema depth type items path (schema.possibleTypes type)

/-- How deep walks of the selections can nest at most: there are no more nodes in the selections
and in the bodies of all fragments. -/
def allowance (map : FragmentMap) (items : List Selection) : Nat :=
  Selection.listSize items +
    map.entries.foldr (fun entry total => entry.2.size + total) 0 + 1

/-! ## What a walk does -/

variable {map : FragmentMap} {schema : Schema} {runtime scope : TypeDefinition} {path : Path}
  {before between after : NestedWalk} {outcome : Outcome Unit} {depth : Nat}
  {selection : Selection} {items rest : List Selection}

/-- No body was walked twice, and the bodies that were walked stand under names that were
spread. -/
structure Once (map : FragmentMap) (walk : NestedWalk) : Prop where
  distinct : walk.bodies.Nodup
  spread : ∀ name ∈ walk.bodies, name ∈ walk.spread
  known : ∀ name ∈ walk.bodies, (map.get? name).isSome = true

/-- The walk of the selections does what an agenda that starts with them does. It forgets no name
and walks no body twice. -/
structure Walked (map : FragmentMap) (schema : Schema) (runtime : TypeDefinition) (path : Path)
    (scope : TypeDefinition) (items : List Selection) (before after : NestedWalk)
    (outcome : Outcome Unit) : Prop where
  gathers : ∀ agenda,
    (map.environment schema).gather runtime path before.gathering
        (ScopedSelection.inScope scope items ++ agenda) =
      outcome >>= fun _ => (map.environment schema).gather runtime path after.gathering agenda
  spread : ∃ more, after.spread = more ++ before.spread
  once : map.Once before → map.Once after

theorem Walked.nil (walk : NestedWalk) :
    map.Walked schema runtime path scope [] walk walk (.ok ()) :=
  ⟨fun _ => rfl, ⟨[], rfl⟩, id⟩

/-- Selections are walked in turn. -/
theorem Walked.cons
    (first : map.Walked schema runtime path scope [selection] before between (.ok ()))
    (others : map.Walked schema runtime path scope rest between after outcome) :
    map.Walked schema runtime path scope (selection :: rest) before after outcome where
  gathers agenda := (first.gathers (ScopedSelection.inScope scope rest ++ agenda)).trans
    (others.gathers agenda)
  spread := by
    obtain ⟨more, earlier⟩ := first.spread
    obtain ⟨most, later⟩ := others.spread
    exact ⟨most ++ more, by rw [later, earlier, List.append_assoc]⟩
  once := others.once ∘ first.once

/-- Selections are not walked beyond the first that fails. -/
theorem Walked.cons_error {error : AnalysisError}
    (failed : map.Walked schema runtime path scope [selection] before after (.error error))
    (rest : List Selection) :
    map.Walked schema runtime path scope (selection :: rest) before after (.error error) :=
  { failed with
    gathers := fun agenda => failed.gathers (ScopedSelection.inScope scope rest ++ agenda) }

/-- The size of all fragments whose names were not spread. -/
def unspread (map : FragmentMap) (walk : NestedWalk) : Nat :=
  map.table.unmetWeight FragmentDefinition.size walk.spread

theorem Walked.unspread_le
    (walked : map.Walked schema runtime path scope items before after outcome) :
    map.unspread after ≤ map.unspread before := by
  obtain ⟨more, same⟩ := walked.spread
  rw [unspread, unspread, same]
  clear same
  induction more with
  | nil => exact Nat.le_refl _
  | cons name more ih => exact Nat.le_trans (FragmentTable.unmetWeight_cons_le _ _ _ name) ih

/-- A selection that only changes the fields was walked. -/
theorem Walked.of_groups {groups : FieldGroups}
    (gathers : ∀ agenda,
      (map.environment schema).gather runtime path before.gathering (⟨scope, selection⟩ :: agenda) =
        outcome >>= fun _ =>
          (map.environment schema).gather runtime path ⟨groups, before.spread⟩ agenda) :
    map.Walked schema runtime path scope [selection] before { before with groups } outcome :=
  ⟨gathers, ⟨[], rfl⟩, fun once => ⟨once.distinct, once.spread, once.known⟩⟩

/-- A spread that only notes its name was walked. -/
theorem Walked.of_noted {name : String}
    (gathers : ∀ agenda,
      (map.environment schema).gather runtime path before.gathering (⟨scope, selection⟩ :: agenda) =
        outcome >>= fun _ =>
          (map.environment schema).gather runtime path ⟨before.groups, name :: before.spread⟩
            agenda) :
    map.Walked schema runtime path scope [selection] before
      { before with spread := name :: before.spread } outcome :=
  ⟨gathers, ⟨[name], rfl⟩, fun once =>
    ⟨once.distinct, fun other isBody => List.mem_cons_of_mem _ (once.spread other isBody),
      once.known⟩⟩

/-- The walk that enters the body of a fragment. -/
def entering (walk : NestedWalk) (name : String) : NestedWalk :=
  ⟨walk.groups, name :: walk.spread, walk.bodies ++ [name]⟩

/-- **A body that is entered under a new name was not walked before.** -/
theorem Once.entering {name : String} {fragment : FragmentDefinition} (once : map.Once before)
    (fresh : name ∉ before.spread) (found : map.get? name = some fragment) :
    map.Once (entering before name) where
  distinct := by
    refine List.nodup_append.mpr ⟨once.distinct, by simp, ?_⟩
    rintro other isBody _ isName rfl
    rw [List.mem_singleton.mp isName] at isBody
    exact fresh (once.spread name isBody)
  spread other isBody := by
    rcases List.mem_append.mp isBody with earlier | isName
    · exact List.mem_cons_of_mem _ (once.spread other earlier)
    · rw [List.mem_singleton.mp isName]
      exact List.mem_cons_self
  known other isBody := by
    rcases List.mem_append.mp isBody with earlier | isName
    · exact once.known other earlier
    · rw [List.mem_singleton.mp isName, found]
      rfl

/-- **A spread whose body was walked under the new name was walked.** -/
theorem Walked.of_body {name : String} {fragment : FragmentDefinition} {type : TypeDefinition}
    {directives : List Directive} {position : Position} (included : isExcluded directives = false)
    (fresh : name ∉ before.spread) (found : map.get? name = some fragment)
    (resolved : (map.environment schema).resolveCondition fragment.condition scope path position =
      .ok type)
    (applies : type.appliesTo runtime = true)
    (body : map.Walked schema runtime path type fragment.items (entering before name) after
      outcome) :
    map.Walked schema runtime path scope [.spread name directives position] before after
      outcome where
  gathers agenda := by
    refine (Environment.gather_spread included fresh (find?_environment schema found)).trans ?_
    simp only [resolved, Except.bind, applies, if_true]
    exact body.gathers agenda
  spread := by
    obtain ⟨more, same⟩ := body.spread
    exact ⟨more ++ [name], by rw [same, entering, List.append_assoc, List.singleton_append]⟩
  once once := body.once (once.entering fresh found)

/-- The walk has a result. -/
def Returns (map : FragmentMap) (schema : Schema) (runtime : TypeDefinition) (path : Path)
    (scope : TypeDefinition) (items : List Selection) (before : NestedWalk)
    (result : Option (NestedWalk × Outcome Unit)) : Prop :=
  ∃ after outcome, result = some (after, outcome) ∧
    map.Walked schema runtime path scope items before after outcome

section Items

variable {directives : List Directive} {position : Position}

/-- A selection that is excluded is passed over. -/
theorem returns_excluded
    (inside : TypeDefinition → List Selection → NestedWalk → Option (NestedWalk × Outcome Unit))
    (excluded : isExcluded selection.directives = true) :
    map.Returns schema runtime path scope [selection] before
      (map.walkItem schema runtime path inside scope selection before) := by
  refine ⟨before, .ok (), ?_, .of_groups fun agenda => Environment.gather_excluded excluded⟩
  cases selection <;> simp_all [walkItem, Selection.directives]

theorem returns_field
    (inside : TypeDefinition → List Selection → NestedWalk → Option (NestedWalk × Outcome Unit))
    {head : FieldHead} {span : Span} (included : isExcluded head.directives = false) :
    map.Returns schema runtime path scope [.field head span items] before
      (map.walkItem schema runtime path inside scope (.field head span items) before) := by
  cases met : before.groups.meet path ⟨head, span, items⟩ with
  | error error =>
      refine ⟨before, .error error, by simp [walkItem, included, met], .of_groups fun agenda => ?_⟩
      refine (Environment.gather_field included).trans ?_
      rw [NestedWalk.gathering, met]
      rfl
  | ok groups =>
      refine ⟨{ before with groups }, .ok (), by simp [walkItem, included, met],
        .of_groups fun agenda => ?_⟩
      refine (Environment.gather_field included).trans ?_
      rw [NestedWalk.gathering, met]
      rfl

variable
  {inside : TypeDefinition → List Selection → NestedWalk → Option (NestedWalk × Outcome Unit)}
  (within : ∀ scope items before, Selection.listSize items + map.unspread before < depth →
    map.Returns schema runtime path scope items before (inside scope items before))

include within

/-- The selections of an inline fragment are fewer than those around it. -/
theorem returns_inline {condition : Option String} {span : Span}
    (included : isExcluded directives = false)
    (enough : Selection.listSize items + map.unspread before < depth) :
    map.Returns schema runtime path scope [.inline condition directives position span items] before
      (map.walkItem schema runtime path inside scope
        (.inline condition directives position span items) before) := by
  cases resolved : (map.environment schema).inlineScope condition scope path position with
  | error error =>
      refine ⟨before, .error error, by simp [walkItem, included, resolved],
        .of_groups fun agenda => ?_⟩
      refine (Environment.gather_inline included).trans ?_
      rw [resolved]
      rfl
  | ok type =>
      cases applies : type.appliesTo runtime with
      | false =>
          refine ⟨before, .ok (), by simp [walkItem, included, resolved, applies],
            .of_groups fun agenda => ?_⟩
          refine (Environment.gather_inline included).trans ?_
          simp only [resolved, Except.bind, applies]
          rfl
      | true =>
          obtain ⟨after, outcome, result, walked⟩ := within type items before enough
          refine ⟨after, outcome, by simp [walkItem, included, resolved, applies, result],
            fun agenda => ?_, walked.spread, walked.once⟩
          refine (Environment.gather_inline included).trans ?_
          simp only [resolved, Except.bind, applies, if_true]
          exact walked.gathers agenda

/-- A body that is entered under a new name has its size from the fragments that were not spread
before. -/
theorem returns_spread {name : String} (included : isExcluded directives = false)
    (enough : map.unspread before < depth) :
    map.Returns schema runtime path scope [.spread name directives position] before
      (map.walkItem schema runtime path inside scope (.spread name directives position)
        before) := by
  by_cases known : name ∈ before.spread
  · exact ⟨before, .ok (), by simp [walkItem, known],
      .of_groups fun agenda => Environment.gather_repeated included known⟩
  cases found : map.get? name with
  | none =>
      have undefined : (map.environment schema).fragments.find? name = none := by
        rw [environment, find?_table, found]
        rfl
      exact ⟨{ before with spread := name :: before.spread },
        .error (.unknownFragment name path position), by simp [walkItem, included, known, found],
        .of_noted fun agenda => Environment.gather_undefined included known undefined⟩
  | some fragment =>
      have defined := find?_environment schema found
      cases resolved : (map.environment schema).resolveCondition fragment.condition scope path
          position with
      | error error =>
          refine ⟨{ before with spread := name :: before.spread }, .error error,
            by simp [walkItem, included, known, found, resolved], .of_noted fun agenda => ?_⟩
          refine (Environment.gather_spread included known defined).trans ?_
          rw [resolved]
          rfl
      | ok type =>
          cases applies : type.appliesTo runtime with
          | false =>
              refine ⟨{ before with spread := name :: before.spread }, .ok (),
                by simp [walkItem, included, known, found, resolved, applies],
                .of_noted fun agenda => ?_⟩
              refine (Environment.gather_spread included known defined).trans ?_
              simp only [resolved, Except.bind, applies]
              rfl
          | true =>
              have less : Selection.listSize fragment.items + map.unspread (entering before name) <
                  depth := by
                have taken := FragmentTable.weight_add_unmetWeight_le FragmentDefinition.size
                  defined (by simpa using known)
                exact Nat.lt_of_le_of_lt taken enough
              obtain ⟨after, outcome, result, walked⟩ :=
                within type fragment.items (entering before name) less
              refine ⟨after, outcome, ?_,
                .of_body included known found resolved applies walked⟩
              rw [← result]
              simp [walkItem, included, known, found, resolved, applies, entering]

/-- **A selection is walked when the walks inside fragments have results.** -/
theorem returns_walkItem (scope : TypeDefinition)
    (enough : selection.size + map.unspread before ≤ depth) :
    map.Returns schema runtime path scope [selection] before
      (map.walkItem schema runtime path inside scope selection before) := by
  cases included : isExcluded selection.directives with
  | true => exact returns_excluded inside included
  | false =>
      cases selection with
      | field head span items => exact returns_field inside included
      | inline condition directives position span items =>
          rw [Selection.size] at enough
          exact returns_inline within included (by omega)
      | spread name directives position =>
          rw [Selection.size] at enough
          exact returns_spread within included (by omega)

/-- Selections are walked in turn. -/
theorem returns_walkAll (enough : Selection.listSize items + map.unspread before ≤ depth) :
    map.Returns schema runtime path scope items before
      (walkAll (map.walkItem schema runtime path inside scope) items before) := by
  induction items generalizing before with
  | nil => exact ⟨before, .ok (), rfl, .nil before⟩
  | cons selection rest ih =>
      rw [Selection.listSize] at enough
      have here : selection.size + map.unspread before ≤ depth := by omega
      obtain ⟨between, outcome, result, first⟩ := returns_walkItem within scope here
      cases outcome with
      | error error =>
          exact ⟨between, .error error, by simp [walkAll, result], first.cons_error rest⟩
      | ok =>
          have less : Selection.listSize rest + map.unspread between ≤ depth := by
            have smaller := first.unspread_le
            omega
          obtain ⟨after, outcome, results, others⟩ := ih less
          exact ⟨after, outcome, by simp [walkAll, result, results], first.cons others⟩

end Items

/-- **A walk has a result when it may nest as deep as there are nodes.** -/
theorem returns_walkWithin
    (enough : Selection.listSize items + map.unspread before < depth) :
    map.Returns schema runtime path scope items before
      (map.walkWithin schema runtime path depth scope items before) := by
  induction depth generalizing scope items before with
  | zero => cases enough
  | succ depth ih =>
      exact returns_walkAll (fun scope items before => ih) (Nat.le_of_lt_succ enough)

/-! ## Collecting -/

theorem unspread_start (map : FragmentMap) :
    map.unspread NestedWalk.start =
      map.entries.foldr (fun entry total => entry.2.size + total) 0 := by
  rw [unspread, FragmentTable.unmetWeight, table, List.foldr_map]
  rfl

/-- The bodies that were walked stand under different names. -/
def WalksOnce (map : FragmentMap) (bodies : List String) : Prop :=
  bodies.Nodup ∧ ∀ name ∈ bodies, (map.get? name).isSome = true

/-- **Collecting for one type returns.** -/
theorem collectForWithin_returns (map : FragmentMap) (schema : Schema)
    (runtime scope : TypeDefinition) (items : List Selection) (path : Path) (extra : Nat) :
    ∃ bodies, map.collectForWithin schema (map.allowance items + extra) runtime scope items path =
        some (bodies, (map.environment schema).collectFor runtime scope items path) ∧
      map.WalksOnce bodies := by
  have enough : Selection.listSize items + map.unspread NestedWalk.start <
      map.allowance items + extra := by
    rw [unspread_start, allowance]
    omega
  obtain ⟨after, outcome, result, walked⟩ : map.Returns schema runtime path scope items
      NestedWalk.start (map.walkWithin schema runtime path (map.allowance items + extra) scope
        items NestedWalk.start) := returns_walkWithin enough
  have once := walked.once ⟨List.nodup_nil, nofun, nofun⟩
  refine ⟨after.bodies, ?_, once.distinct, once.known⟩
  have gathered : (map.environment schema).gather runtime path Gathering.start
      (ScopedSelection.inScope scope items) = outcome >>= fun _ => .ok after.gathering := by
    have walkedAll := walked.gathers []
    rw [List.append_nil, Environment.gather] at walkedAll
    exact walkedAll
  rw [collectForWithin, result, Environment.collectFor, gathered]
  cases outcome <;> rfl

/-- Collecting for one type after the other returns. -/
theorem collectEachWithin_returns (map : FragmentMap) (schema : Schema) (type : TypeDefinition)
    (items : List Selection) (path : Path) (extra : Nat) (runtimes : List TypeDefinition) :
    ∃ walked, map.collectEachWithin schema (map.allowance items + extra) type items path runtimes =
        some (walked, runtimes.mapM fun runtime => do
          let fields ← (map.environment schema).collectFor runtime type items path
          return ⟨runtime.name, fields⟩) ∧
      ∀ bodies ∈ walked, map.WalksOnce bodies := by
  induction runtimes with
  | nil => exact ⟨[], rfl, nofun⟩
  | cons runtime rest ih =>
      obtain ⟨bodies, result, once⟩ :=
        collectForWithin_returns map schema runtime type items path extra
      obtain ⟨walked, results, each⟩ := ih
      rw [collectEachWithin, result, results, List.mapM_cons]
      cases (map.environment schema).collectFor runtime type items path with
      | error error => exact ⟨[bodies], rfl, List.forall_mem_singleton.mpr once⟩
      | ok fields =>
          refine ⟨bodies :: walked, ?_, List.forall_mem_cons.mpr ⟨once, each⟩⟩
          simp only [bind, Option.bind, Except.bind, pure, Except.pure, Except.map]

/-- **Collecting comes to an end for any fragments.** With an allowance that depends on the
selections and the fragments alone, the nested walks of a selection set on a type return what
collecting gives, on every possible type and on the type itself. On each of them, the body of a
named fragment is walked once at most. -/
theorem collectWithin_returns (map : FragmentMap) (schema : Schema) (type : TypeDefinition)
    (items : List Selection) (path : Path) (extra : Nat) :
    (∃ walked, map.collectWithin schema (map.allowance items + extra) type items path =
        some (walked, (map.environment schema).collect type items path) ∧
      ∀ bodies ∈ walked, map.WalksOnce bodies) ∧
    ∃ bodies, map.collectOnWithin schema (map.allowance items + extra) type items path =
        some (bodies, (map.environment schema).collectOn type items path) ∧
      map.WalksOnce bodies :=
  ⟨collectEachWithin_returns map schema type items path extra (schema.possibleTypes type),
    collectForWithin_returns map schema type type items path extra⟩

/-- **In every environment, collecting is what the nested walks over its table of fragments
return.** -/
theorem collectWithin_ofTable (environment : Environment) (type : TypeDefinition)
    (items : List Selection) (path : Path) (extra : Nat) :
    (∃ walked, (ofTable environment.fragments).collectWithin environment.schema
        ((ofTable environment.fragments).allowance items + extra) type items path =
          some (walked, environment.collect type items path) ∧
      ∀ bodies ∈ walked, (ofTable environment.fragments).WalksOnce bodies) ∧
    ∃ bodies, (ofTable environment.fragments).collectOnWithin environment.schema
        ((ofTable environment.fragments).allowance items + extra) type items path =
          some (bodies, environment.collectOn type items path) ∧
      (ofTable environment.fragments).WalksOnce bodies := by
  have each := collectEachWithin_returns (ofTable environment.fragments) environment.schema type
    items path extra (environment.schema.possibleTypes type)
  have own := collectForWithin_returns (ofTable environment.fragments) environment.schema type type
    items path extra
  rw [environment_ofTable] at each own
  exact ⟨each, own⟩

/-- Two fragments that spread each other, one of which spreads itself too. -/
example :
    let span : Span := ⟨⟨1, 1⟩, ⟨1, 1⟩⟩
    let map : FragmentMap := ⟨[
      ("Ying", ⟨"Ying", "Person", [], ⟨1, 1⟩, span,
        [.spread "Yang" [] ⟨1, 1⟩, .spread "Ying" [] ⟨1, 1⟩]⟩),
      ("Yang", ⟨"Yang", "Person", [], ⟨1, 1⟩, span,
        [.spread "Ying" [] ⟨1, 1⟩, Sample.pick "name" []]⟩)]⟩
    let items : List Selection := [.spread "Ying" [] ⟨1, 1⟩]
    (map.collectOnWithin Sample.petSchema (map.allowance items) Sample.personType items
      (Path.root "Q")).map Prod.fst = some ["Ying", "Yang"] := by
  decide +kernel

end FragmentMap

end ResponseShape

import ResponseShape.Proofs.Conditions

/-!
# Where fragments are checked

The condition of a fragment has to be possible in the scope in which the fragment is used. A walk
checks every use of an inline fragment, and of a named fragment the first spread that it comes to.
Later spreads of the name are passed over, whatever their scope is, so the walk of
`Sample.catsFirst` succeeds although it spreads a fragment on cats in what is selected on dogs, and
the same selections in the other order are refused (`Environment.not_checksUses_of_catsFirst`).

When a selection set is collected, every use that is exposed is checked in its scope, except for
later spreads of fragments that do not apply to the object type (`Environment.collect_checks`). When
a condition is reported, it is one that is exposed and not possible in its scope.
-/

set_option autoImplicit false

namespace ResponseShape

namespace Environment

/-! ## Checked uses -/

/-- If the selection is the use of a fragment and is not excluded, then the condition of the fragment
is admitted in the scope. -/
def Checks (environment : Environment) (scope : TypeDefinition) : Selection → Prop
  | .field _ _ _ => True
  | .inline condition directives _ _ _ =>
      isExcluded directives = false → ∃ type, environment.AdmitsInline condition scope type
  | .spread name directives _ =>
      isExcluded directives = false → ∃ fragment type,
        environment.fragments.find? name = some fragment ∧
          environment.Admits fragment.condition scope type

/-- Every use of a fragment that is exposed is checked in the scope in which it stands. -/
def ChecksUses (environment : Environment) (runtime scope : TypeDefinition)
    (items : List Selection) : Prop :=
  ∀ entry, environment.Exposes runtime scope items entry →
    environment.Checks entry.scope entry.selection

/-- A spread of the named fragment that is not excluded is exposed in the scope `around`. -/
def SpreadsIn (environment : Environment) (runtime scope : TypeDefinition) (items : List Selection)
    (name : String) (around : TypeDefinition) : Prop :=
  ∃ directives position, isExcluded directives = false ∧
    environment.Exposes runtime scope items ⟨around, .spread name directives position⟩

/-- The condition of every inline fragment is checked in its scope, and the condition of every named
fragment in one of the scopes in which it is spread. -/
structure ChecksOnce (environment : Environment) (runtime scope : TypeDefinition)
    (items : List Selection) : Prop where
  inline {around : TypeDefinition} {condition : Option String} {directives : List Directive}
    {position : Position} {span : Span} {inner : List Selection} :
    environment.Exposes runtime scope items
        ⟨around, .inline condition directives position span inner⟩ →
      isExcluded directives = false → ∃ type, environment.AdmitsInline condition around type
  spread {around : TypeDefinition} {name : String} :
    environment.SpreadsIn runtime scope items name around →
      ∃ fragment type first, environment.fragments.find? name = some fragment ∧
        environment.SpreadsIn runtime scope items name first ∧
        environment.Admits fragment.condition first type

/-- Each fragment that does not apply to the type `runtime` is spread in one scope only. -/
def SpreadsOthersOnce (environment : Environment) (runtime scope : TypeDefinition)
    (items : List Selection) : Prop :=
  ∀ name fragment type, environment.fragments.find? name = some fragment →
    environment.schema.type? fragment.condition = some type → type.appliesTo runtime = false →
      ∀ around other, environment.SpreadsIn runtime scope items name around →
        environment.SpreadsIn runtime scope items name other → around = other

variable {environment : Environment} {runtime scope around type : TypeDefinition}
  {items body inner : List Selection} {agenda : List ScopedSelection}
  {spread after : List String} {nodes : List FieldNode}

theorem Uses.not_checks {condition : String} {position : Position} {selection : Selection}
    (used : environment.Uses condition position selection)
    (refused : ∀ type, ¬ environment.Admits condition around type) :
    ¬ environment.Checks around selection := by
  intro checks
  cases used with
  | inline included =>
      obtain ⟨type, admitted⟩ := checks included
      exact refused type admitted
  | spread included found named =>
      obtain ⟨fragment, type, known, admitted⟩ := checks included
      obtain rfl := Option.some.inj (found.symm.trans known)
      exact refused type (named ▸ admitted)

/-! ## What a walk checks -/

/-- Fragments that were spread stay spread. -/
theorem Walk.subset (walk : Walk environment runtime agenda spread nodes after) :
    spread ⊆ after := by
  induction walk with
  | nil => exact List.Subset.refl _
  | excluded _ _ ih | field _ _ ih | inlinePassed _ _ _ _ ih | spreadRepeated _ _ _ ih => exact ih
  | inlineEntered _ _ _ _ _ inside outside => exact List.Subset.trans inside outside
  | spreadEntered _ _ _ _ _ _ _ inside outside =>
      exact List.Subset.trans (List.subset_cons_self _ _) (List.Subset.trans inside outside)
  | spreadPassed _ _ _ _ _ _ ih => exact List.Subset.trans (List.subset_cons_self _ _) ih

/-- The selections are walked in the scope, in a walk in which at most the fragments `after` are
spread. -/
def Walked (environment : Environment) (runtime : TypeDefinition) (after : List String)
    (scope : TypeDefinition) (items : List Selection) : Prop :=
  ∃ before nodes between,
    Walk environment runtime (ScopedSelection.inScope scope items) before nodes between ∧
      between ⊆ after

namespace Walked

theorem mono {more : List String} (walked : environment.Walked runtime after scope items)
    (wider : after ⊆ more) : environment.Walked runtime more scope items := by
  obtain ⟨before, nodes, between, walk, within⟩ := walked
  exact ⟨before, nodes, between, walk, List.Subset.trans within wider⟩

/-- Each of the selections is walked. -/
theorem exists_of_mem (walked : environment.Walked runtime after scope items)
    {selection : Selection} (member : selection ∈ items) :
    ∃ before nodes between, Walk environment runtime [⟨scope, selection⟩] before nodes between ∧
      between ⊆ after := by
  obtain ⟨before, nodes, last, walk, within⟩ := walked
  obtain ⟨left, right, rfl⟩ := List.append_of_mem member
  have parted : ScopedSelection.inScope scope (left ++ selection :: right) =
      ScopedSelection.inScope scope left ++
        ([⟨scope, selection⟩] ++ ScopedSelection.inScope scope right) := by
    simp [ScopedSelection.inScope]
  rw [parted] at walk
  obtain ⟨_, middle, _, _, later, _⟩ := Walk.append_iff.mp walk
  obtain ⟨here, between, _, walked, rest, _⟩ := Walk.append_iff.mp later
  exact ⟨middle, here, between, walked, List.Subset.trans rest.subset within⟩

/-- Inline fragments are checked, and walked when they apply. -/
theorem inline (walked : environment.Walked runtime after scope items)
    {condition : Option String} {directives : List Directive} {position : Position} {span : Span}
    (member : .inline condition directives position span inner ∈ items)
    (included : isExcluded directives = false) :
    ∃ type, environment.AdmitsInline condition scope type ∧
      (type.appliesTo runtime = true → environment.Walked runtime after type inner) := by
  obtain ⟨before, nodes, between, walk, within⟩ := walked.exists_of_mem member
  cases walk with
  | excluded isExcluded _ => simp [Selection.directives, included] at isExcluded
  | inlineEntered _ admitted _ inside outside =>
      exact ⟨_, admitted, fun _ => ⟨_, _, _, inside, List.Subset.trans outside.subset within⟩⟩
  | inlinePassed _ admitted passes _ =>
      exact ⟨_, admitted, fun applies => by simp [passes] at applies⟩

/-- Fragments whose spreads are walked are spread. -/
theorem mem_of_spread (walked : environment.Walked runtime after scope items) {name : String}
    {directives : List Directive} {position : Position}
    (member : .spread name directives position ∈ items)
    (included : isExcluded directives = false) : name ∈ after := by
  obtain ⟨before, nodes, between, walk, within⟩ := walked.exists_of_mem member
  apply within
  cases walk with
  | excluded isExcluded _ => simp [Selection.directives, included] at isExcluded
  | spreadRepeated _ known tail => exact tail.subset known
  | spreadEntered _ _ _ _ _ inside outside =>
      exact outside.subset (inside.subset List.mem_cons_self)
  | spreadPassed _ _ _ _ _ tail => exact tail.subset List.mem_cons_self

end Walked

/-- The first spread of a named fragment was checked in its scope, and the fragment was walked if it
applies. -/
structure CheckedFirst (environment : Environment) (runtime scope : TypeDefinition)
    (items : List Selection) (after : List String) (name : String) (fragment : FragmentDefinition)
    (type first : TypeDefinition) : Prop where
  found : environment.fragments.find? name = some fragment
  spread : environment.SpreadsIn runtime scope items name first
  admitted : environment.Admits fragment.condition first type
  walked : type.appliesTo runtime = true → environment.Walked runtime after type fragment.items

theorem CheckedFirst.mono {more : List String} {name : String} {fragment : FragmentDefinition}
    {first : TypeDefinition}
    (checked : environment.CheckedFirst runtime scope items after name fragment type first)
    (wider : after ⊆ more) :
    environment.CheckedFirst runtime scope items more name fragment type first :=
  { checked with walked := fun applies => (checked.walked applies).mono wider }

/-- **Every fragment that is spread in a walk was checked at a spread that is exposed.** -/
theorem Walk.exists_checkedFirst (walk : Walk environment runtime agenda spread nodes after)
    (exposed : ∀ entry ∈ agenda, environment.Exposes runtime scope items entry) :
    ∀ name ∈ after, name ∈ spread ∨ ∃ fragment type first,
      environment.CheckedFirst runtime scope items after name fragment type first := by
  -- A name is spread by the rest of the walk, inside the fragment, or by the selection itself.
  induction walk with
  | nil => exact fun name member => .inl member
  | excluded _ _ ih | field _ _ ih | inlinePassed _ _ _ _ ih | spreadRepeated _ _ _ ih =>
      exact ih (List.forall_mem_cons.mp exposed).2
  | inlineEntered included admitted applies _ outside ihInside ihOutside =>
      obtain ⟨here, later⟩ := List.forall_mem_cons.mp exposed
      intro name member
      rcases ihOutside later name member with before | checked
      · have entered := here.inside_inline included admitted applies
        rcases ihInside entered.exposes name before with known | ⟨_, _, _, checked⟩
        · exact .inl known
        · exact .inr ⟨_, _, _, checked.mono outside.subset⟩
      · exact .inr checked
  | spreadEntered included _ found admitted applies inside outside ihInside ihOutside =>
      obtain ⟨here, later⟩ := List.forall_mem_cons.mp exposed
      intro name member
      rcases ihOutside later name member with before | checked
      · have entered := here.inside_spread included found admitted applies
        rcases ihInside entered.exposes name before with known | ⟨_, _, _, checked⟩
        · rcases List.mem_cons.mp known with rfl | known
          · exact .inr ⟨_, _, _, found, ⟨_, _, included, here⟩, admitted,
              fun _ => ⟨_, _, _, inside, outside.subset⟩⟩
          · exact .inl known
        · exact .inr ⟨_, _, _, checked.mono outside.subset⟩
      · exact .inr checked
  | spreadPassed included _ found admitted passes _ ih =>
      obtain ⟨here, later⟩ := List.forall_mem_cons.mp exposed
      intro name member
      rcases ih later name member with known | checked
      · rcases List.mem_cons.mp known with rfl | known
        · exact .inr ⟨_, _, _, found, ⟨_, _, included, here⟩, admitted,
            fun applies => by simp [passes] at applies⟩
        · exact .inl known
      · exact .inr checked

section Whole

variable (walk : Walk environment runtime (ScopedSelection.inScope scope items) [] nodes after)
  (applies : scope.appliesTo runtime = true)

include walk

theorem exists_checkedFirst_of_mem {name : String} (member : name ∈ after) :
    ∃ fragment type first,
      environment.CheckedFirst runtime scope items after name fragment type first :=
  (walk.exists_checkedFirst Enters.start.exposes name member).resolve_left List.not_mem_nil

include applies

/-- **Whatever is come to was walked**, in the scope in which it is come to. -/
theorem walked_of_enters (enters : environment.Enters runtime scope items around body) :
    around.appliesTo runtime = true ∧ environment.Walked runtime after around body := by
  -- The scope applies to the object type all along, so bare inline fragments are walked, too.
  induction enters with
  | start => exact ⟨applies, _, _, _, walk, List.Subset.refl _⟩
  | bare _ member included ih =>
      obtain ⟨around, walked⟩ := ih
      obtain ⟨type, rfl, inside⟩ := walked.inline member included
      exact ⟨around, inside around⟩
  | inline _ member included known here ih =>
      obtain ⟨type, admitted, inside⟩ := ih.2.inline member included
      obtain rfl := Option.some.inj (known.symm.trans admitted.1)
      exact ⟨here, inside here⟩
  | spread _ member included found known here ih =>
      obtain ⟨fragment, type, first, checked⟩ :=
        exists_checkedFirst_of_mem walk (ih.2.mem_of_spread member included)
      obtain rfl := Option.some.inj (found.symm.trans checked.found)
      obtain rfl := Option.some.inj (known.symm.trans checked.admitted.1)
      exact ⟨here, checked.walked here⟩

/-- **A walk checks everything once.** -/
theorem checksOnce_of_walk : environment.ChecksOnce runtime scope items where
  inline := by
    rintro around condition directives position span inner ⟨body, enters, member⟩ included
    obtain ⟨type, admitted, _⟩ := (walked_of_enters walk applies enters).2.inline member included
    exact ⟨type, admitted⟩
  spread := by
    rintro around name ⟨directives, position, included, body, enters, member⟩
    have walked := (walked_of_enters walk applies enters).2
    obtain ⟨fragment, type, first, checked⟩ :=
      exists_checkedFirst_of_mem walk (walked.mem_of_spread member included)
    exact ⟨fragment, type, first, checked.found, checked.spread, checked.admitted⟩

end Whole

/-! ## Selection sets that are collected -/

/-- A fragment that applies is admitted wherever it is spread. -/
theorem SpreadsIn.admits (distinct : (environment.schema.types.map TypeDefinition.name).Nodup)
    (isScope : scope ∈ environment.schema.types)
    (possible : runtime ∈ environment.schema.possibleTypes scope) {name condition : String}
    (spreads : environment.SpreadsIn runtime scope items name around)
    (known : environment.schema.type? condition = some type)
    (applies : type.appliesTo runtime = true) : environment.Admits condition around type := by
  obtain ⟨_, _, _, _, enters, _⟩ := spreads
  have object := Schema.isObject_of_mem_possibleTypes distinct isScope possible
  exact admits_of_appliesTo distinct object (enters.possible distinct object possible) known applies

/-- All uses are checked, if each fragment that does not apply is spread in one scope. -/
theorem ChecksOnce.checksUses
    (distinct : (environment.schema.types.map TypeDefinition.name).Nodup)
    (isScope : scope ∈ environment.schema.types)
    (possible : runtime ∈ environment.schema.possibleTypes scope)
    (checks : environment.ChecksOnce runtime scope items)
    (once : environment.SpreadsOthersOnce runtime scope items) :
    environment.ChecksUses runtime scope items := by
  rintro ⟨around, selection⟩ exposed
  cases selection with
  | field => trivial
  | inline => exact checks.inline exposed
  | spread name directives position =>
      intro included
      have spreads : environment.SpreadsIn runtime scope items name around :=
        ⟨directives, position, included, exposed⟩
      obtain ⟨fragment, type, first, found, spreadsFirst, admitted⟩ := checks.spread spreads
      refine ⟨fragment, type, found, ?_⟩
      cases applies : type.appliesTo runtime with
      | true => exact spreads.admits distinct isScope possible admitted.1 applies
      | false =>
          obtain rfl := once name fragment type found admitted.1 applies around first spreads
            spreadsFirst
          exact admitted

theorem checksOnce_of_collect {path : Path} {variants : List (Variant SelectedField)}
    (collected : environment.collect type items path = .ok variants)
    (possible : runtime ∈ environment.schema.possibleTypes type) :
    environment.ChecksOnce runtime type items := by
  obtain ⟨variant, _, _, collectedFor⟩ :=
    exists_right_of_mem (collect_eq_ok_iff.mp collected) possible
  obtain ⟨nodes, after, walk, _⟩ := collectFor_eq_ok_iff.mp collectedFor
  exact checksOnce_of_walk walk (Schema.appliesTo_of_mem_possibleTypes possible)

open Outcome in
/-- A selection set fails to be collected for one of the possible types. -/
theorem exists_collectFor_of_error {path : Path} {error : AnalysisError}
    (failed : environment.collect type items path = .error error) :
    ∃ runtime ∈ environment.schema.possibleTypes type,
      environment.collectFor runtime type items path = .error error := by
  have each : FailsWith (fun error => ∃ runtime ∈ environment.schema.possibleTypes type,
      environment.collectFor runtime type items path = .error error)
      (environment.collect type items path) := by
    apply failsWith_mapM
    intro runtime possible
    apply FailsWith.bind
    · intro error failed
      exact ⟨runtime, possible, failed⟩
    · intro fields _
      exact failsWith_ok _
  exact each error failed

/-- A condition that is reported is one that is not checked. -/
theorem exists_unchecked_of_refused {path place : Path} {condition parent : String}
    {position : Position}
    (failed : environment.collect type items path =
      .error (.unknownTypeCondition condition parent place position)) :
    ∃ runtime ∈ environment.schema.possibleTypes type, ∃ entry,
      environment.Exposes runtime type items entry ∧
        environment.Uses condition position entry.selection ∧ entry.scope.name = parent ∧
        ¬ environment.Checks entry.scope entry.selection := by
  obtain ⟨runtime, possible, failedFor⟩ := exists_collectFor_of_error failed
  obtain ⟨entry, exposed, used, named, refused⟩ :=
    refusesUse_collectFor runtime type items path _ failedFor condition parent place position rfl
  exact ⟨runtime, possible, entry, exposed, used, named, used.not_checks refused⟩

/-- **What is checked when a selection set is collected.** When it is, then for each object type
everything was checked once, and a fragment that applies to the object type is admitted in all scopes
in which it is spread. So every use is checked if each fragment that does not apply is spread in one
scope only; no condition is then reported for the same selections in another order.

When a condition is reported, then for some object type a use of it is exposed at that place, in a
scope of the name that is reported, and it does not pass the check. -/
theorem collect_checks (environment : Environment) (type : TypeDefinition)
    (items : List Selection) (path : Path) :
    (∀ variants, environment.collect type items path = .ok variants →
      (∀ runtime ∈ environment.schema.possibleTypes type,
        environment.ChecksOnce runtime type items) ∧
      ((environment.schema.types.map TypeDefinition.name).Nodup →
        type ∈ environment.schema.types →
        (∀ runtime ∈ environment.schema.possibleTypes type, ∀ name around fragment named,
          environment.SpreadsIn runtime type items name around →
          environment.fragments.find? name = some fragment →
          environment.schema.type? fragment.condition = some named →
          named.appliesTo runtime = true → environment.Admits fragment.condition around named) ∧
        ((∀ runtime ∈ environment.schema.possibleTypes type,
            environment.SpreadsOthersOnce runtime type items) →
          (∀ runtime ∈ environment.schema.possibleTypes type,
            environment.ChecksUses runtime type items) ∧
          ∀ others, others ⊆ items → ∀ condition parent place position,
            environment.collect type others path ≠
              .error (.unknownTypeCondition condition parent place position)))) ∧
    ∀ condition parent place position,
      environment.collect type items path =
          .error (.unknownTypeCondition condition parent place position) →
        ∃ runtime ∈ environment.schema.possibleTypes type, ∃ entry,
          environment.Exposes runtime type items entry ∧
            environment.Uses condition position entry.selection ∧ entry.scope.name = parent ∧
            ¬ environment.Checks entry.scope entry.selection := by
  refine ⟨?_, fun condition parent place position => exists_unchecked_of_refused⟩
  intro variants collected
  refine ⟨fun runtime => checksOnce_of_collect collected, ?_⟩
  intro distinct isType
  constructor
  · intro runtime possible name around fragment named spreads _ known applies
    exact spreads.admits distinct isType possible known applies
  · intro once
    have checks : ∀ runtime ∈ environment.schema.possibleTypes type,
        environment.ChecksUses runtime type items := by
      intro runtime possible
      have checksOnce := checksOnce_of_collect collected possible
      exact checksOnce.checksUses distinct isType possible (once runtime possible)
    refine ⟨checks, ?_⟩
    intro others subset condition parent place position failed
    obtain ⟨runtime, possible, entry, exposed, _, _, unchecked⟩ := exists_unchecked_of_refused failed
    exact unchecked (checks runtime possible entry (exposed.of_subset subset))

end Environment

/-! ## Cats among dogs -/

namespace Sample

/-- What is selected on cats is spread on pets, and then again on dogs. -/
def catsFirst : List Selection :=
  [.spread "OfCat" [] ⟨1, 1⟩,
    onType "Dog" [.spread "OfCat" [] ⟨1, 1⟩, pick "owner" [pick "name" []]]]

end Sample

open Sample in
/-- **A use that is not checked.** What is selected on cats is spread on pets and then on dogs, and
selections are collected although no dog is a cat. In the other order they are refused. -/
theorem Environment.not_checksUses_of_catsFirst :
    (∃ variants, petEnvironment.collect petType catsFirst ⟨["Q", "pet"]⟩ = .ok variants) ∧
    (∃ runtime ∈ petEnvironment.schema.possibleTypes petType,
      ¬ petEnvironment.ChecksUses runtime petType catsFirst) ∧
    petEnvironment.collect petType catsFirst.reverse ⟨["Q", "pet"]⟩ =
      .error (.unknownTypeCondition "Cat" "Dog" ⟨["Q", "pet"]⟩ ⟨1, 1⟩) := by
  have onDog : petEnvironment.AdmitsInline (some "Dog") petType dogType := ⟨rfl, rfl, rfl⟩
  have onCat : petEnvironment.Admits "Cat" petType catType := ⟨rfl, rfl, rfl⟩
  refine ⟨?_, ?_, ?_⟩
  · have walkDog : petEnvironment.Walk dogType (ScopedSelection.inScope petType catsFirst) []
        ([dogOwner.node] ++ []) ["OfCat"] :=
      .spreadPassed rfl List.not_mem_nil rfl onCat rfl
        (.inlineEntered rfl onDog rfl
          (.spreadRepeated rfl List.mem_cons_self (.field rfl (.nil _))) (.nil _))
    have walkCat : petEnvironment.Walk catType (ScopedSelection.inScope petType catsFirst) []
        ([catOwner.node] ++ []) ["OfCat"] :=
      .spreadEntered rfl List.not_mem_nil rfl onCat rfl (.field rfl (.nil _))
        (.inlinePassed rfl onDog rfl (.nil _))
    exact ⟨[⟨"Dog", [dogOwner]⟩, ⟨"Cat", [catOwner]⟩], collect_eq_ok_iff.mpr
      (.cons ⟨rfl, collectFor_of_walk walkDog rfl⟩
        (.cons ⟨rfl, collectFor_of_walk walkCat rfl⟩ .nil))⟩
  · refine ⟨dogType, List.mem_cons_self, ?_⟩
    intro checks
    have entered : petEnvironment.Enters dogType petType catsFirst dogType
        [.spread "OfCat" [] ⟨1, 1⟩, pick "owner" [pick "name" []]] :=
      .inline .start (List.mem_cons_of_mem _ List.mem_cons_self) rfl rfl rfl
    obtain ⟨fragment, type, found, known, _, overlaps⟩ :=
      checks ⟨dogType, .spread "OfCat" [] ⟨1, 1⟩⟩ ⟨_, entered, List.mem_cons_self⟩ rfl
    obtain rfl := Option.some.inj found
    obtain rfl := Option.some.inj known
    cases overlaps
  · have refused : petEnvironment.gather dogType ⟨["Q", "pet"]⟩ Gathering.start
        (ScopedSelection.inScope petType catsFirst.reverse) =
          .error (.unknownTypeCondition "Cat" "Dog" ⟨["Q", "pet"]⟩ ⟨1, 1⟩) := by
      change petEnvironment.gather _ _ _ (⟨petType, onType "Dog" _⟩ :: _) = _
      have applies : dogType.appliesTo dogType = true := rfl
      rw [onType, gather_inline rfl, inlineScope_eq_ok_iff.mpr onDog, Except.bind, if_pos applies]
      change petEnvironment.gather _ _ _ (⟨dogType, .spread "OfCat" [] ⟨1, 1⟩⟩ :: _) = _
      rw [gather_spread rfl List.not_mem_nil rfl]
      rfl
    change List.mapM _ (dogType :: _) = _
    rw [List.mapM_cons, collectFor, refused]
    rfl

end ResponseShape

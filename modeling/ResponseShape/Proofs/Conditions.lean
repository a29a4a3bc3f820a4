import ResponseShape.Proofs.Chains
import ResponseShape.Proofs.EnumLinks
import ResponseShape.Proofs.FragmentUses
import ResponseShape.Proofs.WellTyped

/-!
# Type conditions and possible types

Three notions say how types are related: whether a fragment on a type applies to an object type
(`TypeDefinition.appliesTo`), which object types a value of a type can have
(`Schema.possibleTypes`), and whether a value can be of two types (`Schema.overlap`). In a schema
with distinct type names they are one. A type applies to exactly its possible types
(`Schema.appliesTo_iff_mem_possibleTypes`), and two types overlap when they have one name or apply to
one object type (`Schema.overlap_iff_exists_appliesTo`).

When selections are collected for an object type, fragments are entered whose conditions apply to
it, so the object type is a possible type of every scope that is entered
(`Environment.Enters.possible`). A condition that applies to it therefore overlaps the scope, and is
never refused (`Environment.agrees_conditions`).
-/

set_option autoImplicit false

namespace ResponseShape

/-! ## One relation between types -/

namespace Schema

variable {schema : Schema} {type runtime : TypeDefinition}

/-- Only composite types have possible types. -/
theorem isComposite_of_mem_possibleTypes (possible : runtime ∈ schema.possibleTypes type) :
    type.isComposite = true := by
  rw [possibleTypes] at possible
  rw [TypeDefinition.isComposite, TypeDefinition.kind]
  cases content : type.content with
  | object | interface | union => rfl
  | scalar | enum | inputObject => simp [content] at possible

/-- Types with a possible type in common overlap. -/
theorem overlap_of_mem_possibleTypes {left right : TypeDefinition}
    (isLeft : runtime ∈ schema.possibleTypes left)
    (isRight : runtime ∈ schema.possibleTypes right) : schema.overlap left right = true := by
  simp only [overlap, Bool.or_eq_true, List.any_eq_true]
  exact .inr ⟨runtime, isLeft, runtime, isRight, beq_self_eq_true _⟩

variable (distinct : (schema.types.map TypeDefinition.name).Nodup)

include distinct

theorem isObject_of_mem_possibleTypes (isType : type ∈ schema.types)
    (possible : runtime ∈ schema.possibleTypes type) : runtime.isObject = true := by
  rw [TypeDefinition.isObject, beq_iff_eq]
  cases content : type.content with
  | interface =>
      exact kind_of_mem_possibleTypes possible (.inl (by rw [TypeDefinition.kind, content]; rfl))
  | union =>
      exact kind_of_mem_possibleTypes possible (.inr (by rw [TypeDefinition.kind, content]; rfl))
  | object =>
      rw [possibleTypes, content] at possible
      have found : schema.type? type.name = some runtime := Option.mem_toList.mp possible
      obtain rfl := Option.some.inj ((type?_of_mem_types distinct isType).symm.trans found)
      rw [TypeDefinition.kind, content]
      rfl
  | scalar | enum | inputObject => simp [possibleTypes, content] at possible

/-- **A type applies to exactly its possible types.** -/
theorem appliesTo_iff_mem_possibleTypes (isType : type ∈ schema.types)
    (isRuntime : runtime ∈ schema.types) (object : runtime.isObject = true) :
    type.appliesTo runtime = true ↔ runtime ∈ schema.possibleTypes type := by
  refine ⟨?_, appliesTo_of_mem_possibleTypes⟩
  intro applies
  have found := type?_of_mem_types distinct isRuntime
  rcases Bool.or_eq_true_iff.mp applies with same | above
  · obtain rfl := List.inj_on_of_nodup_map distinct isType isRuntime (beq_iff_eq.mp same)
    rw [TypeDefinition.isObject, TypeDefinition.kind] at object
    cases content : type.content with
    | object => simp [possibleTypes, content, found]
    | scalar | interface | union | enum | inputObject =>
        simp [content, TypeContent.kind] at object
  · rw [TypeDefinition.kind] at above
    cases content : type.content with
    | interface =>
        simp only [content, TypeContent.kind] at above
        simp [possibleTypes, content, isRuntime, object, above]
    | union members =>
        simp only [content, TypeContent.kind] at above
        simp only [possibleTypes, content, List.mem_filterMap]
        refine ⟨runtime.name, ?_, by simp [found, object]⟩
        simpa [TypeDefinition.hasMember, TypeDefinition.members, content] using above
    | scalar | object | enum | inputObject => simp [content, TypeContent.kind] at above

theorem mem_possibleTypes_of_type? {name : String} (found : schema.type? name = some type)
    (isRuntime : runtime ∈ schema.types) (object : runtime.isObject = true)
    (applies : type.appliesTo runtime = true) : runtime ∈ schema.possibleTypes type :=
  (appliesTo_iff_mem_possibleTypes distinct (mem_types_of_type? found) isRuntime object).mp applies

/-- **Types overlap when they have one name or apply to one object type.** -/
theorem overlap_iff_exists_appliesTo {left right : TypeDefinition} (isLeft : left ∈ schema.types)
    (isRight : right ∈ schema.types) :
    schema.overlap left right = true ↔ left.name = right.name ∨
      ∃ object ∈ schema.types, object.isObject = true ∧ left.appliesTo object = true ∧
        right.appliesTo object = true := by
  constructor
  · intro overlaps
    simp only [overlap, Bool.or_eq_true, beq_iff_eq, List.any_eq_true] at overlaps
    rcases overlaps with named | ⟨object, ofLeft, other, ofRight, same⟩
    · exact .inl named
    · have isObject := mem_types_of_mem_possibleTypes ofLeft
      obtain rfl := List.inj_on_of_nodup_map distinct
        (mem_types_of_mem_possibleTypes ofRight) isObject same
      exact .inr ⟨other, isObject, isObject_of_mem_possibleTypes distinct isLeft ofLeft,
        appliesTo_of_mem_possibleTypes ofLeft, appliesTo_of_mem_possibleTypes ofRight⟩
  · rintro (named | ⟨object, isObject, kind, ofLeft, ofRight⟩)
    · simp [overlap, named]
    · have inLeft := (appliesTo_iff_mem_possibleTypes distinct isLeft isObject kind).mp ofLeft
      have inRight := (appliesTo_iff_mem_possibleTypes distinct isRight isObject kind).mp ofRight
      exact overlap_of_mem_possibleTypes inLeft inRight

end Schema

/-! ## Scopes that are entered -/

namespace Environment

variable {environment : Environment} {runtime scope : TypeDefinition} {items : List Selection}

section Distinct

variable (distinct : (environment.schema.types.map TypeDefinition.name).Nodup)
  (object : runtime.isObject = true)

include distinct object

/-- **The object type is a possible type of every scope that is entered for it.** -/
theorem Enters.possible (possible : runtime ∈ environment.schema.possibleTypes scope)
    {around : TypeDefinition} {body : List Selection}
    (enters : environment.Enters runtime scope items around body) :
    runtime ∈ environment.schema.possibleTypes around := by
  have isRuntime := Schema.mem_types_of_mem_possibleTypes possible
  induction enters with
  | start => exact possible
  | bare _ _ _ ih => exact ih
  | inline _ _ _ known applies _ =>
      exact Schema.mem_possibleTypes_of_type? distinct known isRuntime object applies
  | spread _ _ _ _ known applies _ =>
      exact Schema.mem_possibleTypes_of_type? distinct known isRuntime object applies

/-- A condition that applies to a possible type of the scope is admitted in the scope. -/
theorem admits_of_appliesTo (possible : runtime ∈ environment.schema.possibleTypes scope)
    {condition : String} {type : TypeDefinition}
    (known : environment.schema.type? condition = some type)
    (applies : type.appliesTo runtime = true) : environment.Admits condition scope type := by
  have isRuntime := Schema.mem_types_of_mem_possibleTypes possible
  have ofType := Schema.mem_possibleTypes_of_type? distinct known isRuntime object applies
  exact ⟨known, Schema.isComposite_of_mem_possibleTypes ofType,
    Schema.overlap_of_mem_possibleTypes ofType possible⟩

end Distinct

/-! ## What a refused condition says -/

/-- A composite condition is refused in a scope that it does not overlap, and for no other reason. -/
theorem resolveCondition_refuses_iff {condition : String} {type : TypeDefinition}
    (known : environment.schema.type? condition = some type) (composite : type.isComposite = true)
    (path : Path) (position : Position) :
    environment.resolveCondition condition scope path position =
        .error (.unknownTypeCondition condition scope.name path position) ↔
      environment.schema.overlap type scope = false := by
  rw [resolveCondition]
  cases overlaps : environment.schema.overlap type scope <;> simp [known, composite, overlaps]

/-- **A condition that is reported does not apply.** -/
theorem not_applies_of_refused
    (distinct : (environment.schema.types.map TypeDefinition.name).Nodup)
    (object : runtime.isObject = true)
    (possible : runtime ∈ environment.schema.possibleTypes scope) {path place : Path}
    {condition parent : String} {position : Position}
    (failed : environment.collectFor runtime scope items path =
      .error (.unknownTypeCondition condition parent place position))
    {type : TypeDefinition} (known : environment.schema.type? condition = some type) :
    type.appliesTo runtime = false := by
  obtain ⟨entry, ⟨body, enters, _⟩, _, _, refused⟩ :=
    refusesUse_collectFor runtime scope items path _ failed condition parent place position rfl
  rw [← Bool.not_eq_true]
  intro applies
  have inside := enters.possible distinct object possible
  exact refused type (admits_of_appliesTo distinct object inside known applies)

/-- **Conditions, possible types and overlap agree.** In a schema with distinct type names:

* a type applies to an object type exactly when the object type is one of its possible types;
* when a selection set is collected for a possible type of its type, that object type is a possible
  type of every scope that is entered, a condition that applies to it is accepted in each of these
  scopes, and a condition that is reported as refused does not apply to it;
* a composite condition is refused in a scope exactly when the two types have different names and
  no object type is one that both apply to. -/
theorem agrees_conditions (environment : Environment)
    (distinct : (environment.schema.types.map TypeDefinition.name).Nodup) :
    (∀ type ∈ environment.schema.types, ∀ runtime ∈ environment.schema.types,
      runtime.isObject = true →
        (type.appliesTo runtime = true ↔ runtime ∈ environment.schema.possibleTypes type)) ∧
    (∀ type ∈ environment.schema.types, ∀ runtime ∈ environment.schema.possibleTypes type,
      ∀ items,
        (∀ around body, environment.Enters runtime type items around body →
          runtime ∈ environment.schema.possibleTypes around ∧
          ∀ condition named path position, environment.schema.type? condition = some named →
            named.appliesTo runtime = true →
              environment.resolveCondition condition around path position = .ok named) ∧
        ∀ path condition parent place position,
          environment.collectFor runtime type items path =
              .error (.unknownTypeCondition condition parent place position) →
            ∀ named, environment.schema.type? condition = some named →
              named.appliesTo runtime = false) ∧
    ∀ condition type, environment.schema.type? condition = some type →
      type.isComposite = true → ∀ scope ∈ environment.schema.types, ∀ path position,
        (environment.resolveCondition condition scope path position =
            .error (.unknownTypeCondition condition scope.name path position) ↔
          type.name ≠ scope.name ∧ ∀ object ∈ environment.schema.types,
            object.isObject = true →
              ¬ (type.appliesTo object = true ∧ scope.appliesTo object = true)) := by
  refine ⟨?_, ?_, ?_⟩
  · intro type isType runtime isRuntime object
    exact Schema.appliesTo_iff_mem_possibleTypes distinct isType isRuntime object
  · intro type isType runtime possible items
    have object := Schema.isObject_of_mem_possibleTypes distinct isType possible
    constructor
    · intro around body enters
      have inAround := enters.possible distinct object possible
      refine ⟨inAround, ?_⟩
      intro condition named path position known applies
      have admitted := admits_of_appliesTo distinct object inAround known applies
      exact resolveCondition_eq_ok_iff.mpr admitted
    · intro path condition parent place position failed named known
      exact not_applies_of_refused distinct object possible failed known
  · intro condition type known composite scope isScope path position
    have isType := Schema.mem_types_of_type? known
    rw [resolveCondition_refuses_iff known composite, ← Bool.not_eq_true,
      Schema.overlap_iff_exists_appliesTo distinct isType isScope]
    simp only [not_or, not_exists, not_and]

open Sample in
/-- Cats are not dogs, so what is selected on cats is refused in what is selected on dogs. What is
selected on pets is never refused for dogs. -/
theorem agrees_conditions_of_pets :
    (petEnvironment.schema.types.map TypeDefinition.name).Nodup ∧
    petEnvironment.resolveCondition "Cat" (objectType "Dog" [declare "owner" "Person"]) ⟨["Q", "pet"]⟩
        ⟨1, 1⟩ = .error (.unknownTypeCondition "Cat" "Dog" ⟨["Q", "pet"]⟩ ⟨1, 1⟩) ∧
    ∀ items path parent place position,
      petEnvironment.collectFor (objectType "Dog" [declare "owner" "Person"]) petType items path ≠
        .error (.unknownTypeCondition "Pet" parent place position) := by
  have distinct : (petEnvironment.schema.types.map TypeDefinition.name).Nodup := by decide
  obtain ⟨_, walked, refused⟩ := agrees_conditions petEnvironment distinct
  refine ⟨distinct, ?_, ?_⟩
  · have dog : objectType "Dog" [declare "owner" "Person"] ∈ petEnvironment.schema.types := by
      simp [petEnvironment, petSchema, Schema.types]
    refine (refused "Cat" (objectType "Cat" [declare "owner" "Person"]) rfl rfl _ dog _ _).mpr ?_
    decide
  · intro items path parent place position failed
    have pet : petType ∈ petEnvironment.schema.types := by
      simp [petEnvironment, petSchema, Schema.types]
    have dog : objectType "Dog" [declare "owner" "Person"] ∈
        petEnvironment.schema.possibleTypes petType := List.mem_cons_self
    have passes := (walked petType pet _ dog items).2 path "Pet" parent place position failed
      petType rfl
    cases passes

end Environment

end ResponseShape

import ResponseShape.Visit.Document

/-!
# What a visit passes on

Every part of a visit leaves the types in effect as it found them, and keeps what the observer's
notes keep (`Visit.Keeps`, `Observer.keeps_visitSelection`). What the observer keeps may depend on
a property of the types in effect, provided that going inside a construct keeps the property
(`TypeScopes.ClosedInside`). So a visit of a whole document passes
on what it notes on each selection in it (`Observer.Reaches`), and the selection is visited in the
scope that stands around it: the root type of an operation, the type of a fragment's condition, or
the named type of the field around it.
-/

set_option autoImplicit false

namespace ResponseShape

/-! ## Folds whose steps are related -/

section Folds

variable {α β : Type} {R : β → β → Prop} {f : β → α → β}

theorem related_foldl (refl : ∀ state, R state state)
    (trans : ∀ {first second third}, R first second → R second third → R first third)
    (step : ∀ state item, R state (f state item)) (items : List α) (state : β) :
    R state (items.foldl f state) := by
  induction items generalizing state with
  | nil => exact refl state
  | cons item rest ih => exact trans (step state item) (ih (f state item))

/-- A fold takes each item from a state that is related to the first, and the state after the item
is related to the last. -/
theorem exists_related_of_mem (refl : ∀ state, R state state)
    (trans : ∀ {first second third}, R first second → R second third → R first third)
    (step : ∀ state item, R state (f state item)) {items : List α} {item : α}
    (member : item ∈ items) (state : β) :
    ∃ before, R state before ∧ R (f before item) (items.foldl f state) := by
  obtain ⟨front, back, rfl⟩ := List.append_of_mem member
  refine ⟨front.foldl f state, related_foldl refl trans step front state, ?_⟩
  rw [List.foldl_append, List.foldl_cons]
  exact related_foldl refl trans step back _

end Folds

/-- Going inside a construct leads from allowed types in effect to allowed ones. -/
structure TypeScopes.ClosedInside (schema : Schema) (allowed : TypeScopes → Prop) : Prop where
  withType : ∀ (scopes : TypeScopes) (name : Option String), allowed scopes →
    allowed { scopes with types := name.bind schema.type? :: scopes.types }
  withParent : ∀ scopes : TypeScopes, allowed scopes →
    allowed { scopes with parents := scopes.type? :: scopes.parents }
  withInput : ∀ (scopes : TypeScopes) (type : Option TypeRef), allowed scopes →
    allowed { scopes with
      inputs := type.bind (fun reference => schema.type? reference.namedType) :: scopes.inputs
      literals := type :: scopes.literals }

theorem TypeScopes.closedInside_true (schema : Schema) : ClosedInside schema (fun _ => True) where
  withType _ _ := id
  withParent _ := id
  withInput _ _ := id

variable {σ : Type} {allowed : TypeScopes → Prop} {holds : σ → Prop}

namespace Visit

/-- The types in effect are the same after, and if they are allowed, what holds of the notes before
still holds. -/
structure Keeps (allowed : TypeScopes → Prop) (holds : σ → Prop) (before after : Visit σ) :
    Prop where
  scopes : after.scopes = before.scopes
  noted : allowed before.scopes → holds before.noted → holds after.noted

namespace Keeps

variable {schema : Schema} {visit : Visit σ} {inside : Visit σ → Visit σ}

theorem refl (visit : Visit σ) : visit.Keeps allowed holds visit :=
  ⟨rfl, fun _ => id⟩

theorem trans {first second third : Visit σ} (before : first.Keeps allowed holds second)
    (after : second.Keeps allowed holds third) : first.Keeps allowed holds third :=
  ⟨after.scopes.trans before.scopes,
    fun here held => after.noted (before.scopes ▸ here) (before.noted here held)⟩

theorem note {observe : TypeScopes → σ → σ}
    (keeps : ∀ scopes noted, allowed scopes → holds noted → holds (observe scopes noted))
    (visit : Visit σ) : visit.Keeps allowed holds (visit.note observe) :=
  ⟨rfl, keeps visit.scopes visit.noted⟩

/-- What was pushed is popped again. -/
theorem withType (closed : TypeScopes.ClosedInside schema allowed)
    (keeps : ∀ visit : Visit σ, visit.Keeps allowed holds (inside visit))
    (name : Option String) (visit : Visit σ) :
    visit.Keeps allowed holds (visit.withType schema name inside) := by
  have within := keeps
    { visit with
      scopes := { visit.scopes with types := name.bind schema.type? :: visit.scopes.types } }
  refine ⟨?_, fun here => within.noted (closed.withType visit.scopes name here)⟩
  simp only [Visit.withType, within.scopes, List.tail_cons]

theorem withParent (closed : TypeScopes.ClosedInside schema allowed)
    (keeps : ∀ visit : Visit σ, visit.Keeps allowed holds (inside visit))
    (visit : Visit σ) : visit.Keeps allowed holds (visit.withParent inside) := by
  have within := keeps
    { visit with
      scopes := { visit.scopes with parents := visit.scopes.type? :: visit.scopes.parents } }
  refine ⟨?_, fun here => within.noted (closed.withParent visit.scopes here)⟩
  simp only [Visit.withParent, within.scopes, List.tail_cons]

theorem withInput (closed : TypeScopes.ClosedInside schema allowed)
    (keeps : ∀ visit : Visit σ, visit.Keeps allowed holds (inside visit))
    (type : Option TypeRef) (visit : Visit σ) :
    visit.Keeps allowed holds (visit.withInput schema type inside) := by
  have within := keeps
    { visit with
      scopes :=
        { visit.scopes with
          inputs :=
            type.bind (fun reference => schema.type? reference.namedType) :: visit.scopes.inputs
          literals := type :: visit.scopes.literals } }
  refine ⟨?_, fun here => within.noted (closed.withInput visit.scopes type here)⟩
  simp only [Visit.withInput, within.scopes, List.tail_cons]

end Keeps

end Visit

namespace Observer

/-- Whatever the observer notes where the types in effect are allowed, it keeps what holds of the
notes. -/
structure Keeps (observer : Observer σ) (schema : Schema) (allowed : TypeScopes → Prop)
    (holds : σ → Prop) : Prop where
  closed : TypeScopes.ClosedInside schema allowed
  onVariable : ∀ definition scopes noted, allowed scopes → holds noted →
    holds (observer.onVariable definition scopes noted)
  onArgument : ∀ argument scopes noted, allowed scopes → holds noted →
    holds (observer.onArgument argument scopes noted)
  onField : ∀ node scopes noted, allowed scopes → holds noted →
    holds (observer.onField node scopes noted)
  onObjectField : ∀ name value scopes noted, allowed scopes → holds noted →
    holds (observer.onObjectField name value scopes noted)

variable {observer : Observer σ} {schema : Schema}

/-! ## Visits keep what the observer keeps -/

mutual

theorem keeps_visitValue (keeps : observer.Keeps schema allowed holds) :
    ∀ (value : Value) (visit : Visit σ),
      visit.Keeps allowed holds (observer.visitValue schema value visit)
  | .list items, visit => by
      rw [visitValue]
      exact .withInput keeps.closed (keeps_visitItems keeps items) _ visit
  | .object fields, visit => by
      rw [visitValue]
      exact keeps_visitFields keeps fields visit
  | .null, visit | .variable _, visit | .int _, visit | .float _, visit | .string _, visit
  | .boolean _, visit | .enum _, visit => by
      rw [visitValue]
      exact .refl visit

theorem keeps_visitItems (keeps : observer.Keeps schema allowed holds) :
    ∀ (items : List Value) (visit : Visit σ),
      visit.Keeps allowed holds (observer.visitItems schema items visit)
  | [], visit => by
      rw [visitItems]
      exact .refl visit
  | item :: rest, visit => by
      rw [visitItems]
      exact (keeps_visitValue keeps item visit).trans
        (keeps_visitItems keeps rest _)

theorem keeps_visitFields (keeps : observer.Keeps schema allowed holds) :
    ∀ (fields : List (String × Value)) (visit : Visit σ),
      visit.Keeps allowed holds (observer.visitFields schema fields visit)
  | [], visit => by
      rw [visitFields]
      exact .refl visit
  | (name, value) :: rest, visit => by
      rw [visitFields]
      have here : ∀ visit : Visit σ, visit.Keeps allowed holds
          (observer.visitValue schema value (visit.note (observer.onObjectField name value))) :=
        fun visit => (Visit.Keeps.note (keeps.onObjectField name value) visit).trans
          (keeps_visitValue keeps value _)
      exact (Visit.Keeps.withInput keeps.closed here _ visit).trans (keeps_visitFields keeps rest _)

end

theorem keeps_visitArguments (keeps : observer.Keeps schema allowed holds)
    (declared : Option (List InputValueDefinition)) (arguments : List Argument)
    (visit : Visit σ) :
    visit.Keeps allowed holds (observer.visitArguments schema declared arguments visit) := by
  rw [visitArguments]
  refine related_foldl .refl .trans (fun visit argument => ?_) arguments visit
  rw [visitArgument]
  refine .withInput keeps.closed (fun inside => ?_) _ visit
  exact (Visit.Keeps.note (keeps.onArgument argument) inside).trans
    (keeps_visitValue keeps argument.value _)

theorem keeps_visitDirectives (keeps : observer.Keeps schema allowed holds)
    (directives : List Directive) (visit : Visit σ) :
    visit.Keeps allowed holds (observer.visitDirectives schema directives visit) := by
  rw [visitDirectives]
  refine related_foldl .refl .trans (fun visit directive => ?_) directives visit
  exact keeps_visitArguments keeps _ directive.arguments visit

theorem keeps_visitVariables (keeps : observer.Keeps schema allowed holds)
    (definitions : List VariableDefinition) (visit : Visit σ) :
    visit.Keeps allowed holds (observer.visitVariables schema definitions visit) := by
  rw [visitVariables]
  refine related_foldl .refl .trans (fun visit definition => ?_) definitions visit
  refine .withInput keeps.closed (fun inside => ?_) _ visit
  refine (Visit.Keeps.note (keeps.onVariable definition) inside).trans ?_
  cases definition.default? with
  | none => exact .refl _
  | some value => exact keeps_visitValue keeps value _

theorem visitSelection_field (observer : Observer σ) (schema : Schema) (head : FieldHead)
    (span : Span) (items : List Selection) (visit : Visit σ) {definition : Option FieldDefinition}
    (same : visit.scopes.parent?.bind (fun parent => parent.field? head.name) = definition) :
    observer.visitSelection schema (.field head span items) visit =
      visit.withType schema (definition.map (fun field => field.type.namedType))
        (fun inside => (observer.visitDirectives schema head.directives
          (observer.visitArguments schema (definition.map FieldDefinition.arguments) head.arguments
            (inside.note (observer.onField ⟨head, span, items⟩)))).withParent
          (fun within => observer.visitSelections schema items within)) := by
  rw [visitSelection, same]

theorem visitSelection_inline (observer : Observer σ) (schema : Schema)
    (condition : Option String) (directives : List Directive) (position : Position) (span : Span)
    (items : List Selection) (visit : Visit σ) :
    observer.visitSelection schema (.inline condition directives position span items) visit =
      visit.withType schema (condition.or (visit.scopes.type?.map TypeDefinition.name))
        (fun inside => (observer.visitDirectives schema directives inside).withParent
          (fun within => observer.visitSelections schema items within)) := by
  cases condition <;> rw [visitSelection] <;> rfl

mutual

theorem keeps_visitSelection (keeps : observer.Keeps schema allowed holds) :
    ∀ (selection : Selection) (visit : Visit σ),
      visit.Keeps allowed holds (observer.visitSelection schema selection visit)
  | .field head span items, visit => by
      rw [visitSelection_field _ _ _ _ _ _ rfl]
      refine .withType keeps.closed (fun inside => ?_) _ visit
      refine (Visit.Keeps.note (keeps.onField ⟨head, span, items⟩) inside).trans ?_
      exact (keeps_visitArguments keeps _ head.arguments _).trans
        ((keeps_visitDirectives keeps head.directives _).trans
          (.withParent keeps.closed (keeps_visitSelections keeps items) _))
  | .spread _ directives _, visit => by
      rw [visitSelection]
      exact keeps_visitDirectives keeps directives visit
  | .inline _ directives _ _ items, visit => by
      rw [visitSelection_inline]
      refine .withType keeps.closed (fun inside => ?_) _ visit
      refine (keeps_visitDirectives keeps directives inside).trans ?_
      exact .withParent keeps.closed (keeps_visitSelections keeps items) _

theorem keeps_visitSelections (keeps : observer.Keeps schema allowed holds) :
    ∀ (items : List Selection) (visit : Visit σ),
      visit.Keeps allowed holds (observer.visitSelections schema items visit)
  | [], visit => by
      rw [visitSelections]
      exact .refl visit
  | selection :: rest, visit => by
      rw [visitSelections]
      exact (keeps_visitSelection keeps selection visit).trans
        (keeps_visitSelections keeps rest _)

end

theorem keeps_visitDefinition (keeps : observer.Keeps schema allowed holds)
    (definition : Definition) (visit : Visit σ) :
    visit.Keeps allowed holds (observer.visitDefinition schema definition visit) := by
  cases definition with
  | operation operation =>
      rw [visitDefinition, visitOperation]
      refine .withType keeps.closed (fun inside => ?_) _ visit
      refine (keeps_visitDirectives keeps operation.directives inside).trans ?_
      refine (keeps_visitVariables keeps operation.variableDefinitions _).trans ?_
      exact .withParent keeps.closed (keeps_visitSelections keeps operation.items) _
  | fragment fragment =>
      rw [visitDefinition, visitFragment]
      refine .withType keeps.closed (fun inside => ?_) _ visit
      refine (keeps_visitDirectives keeps fragment.directives inside).trans ?_
      exact .withParent keeps.closed (keeps_visitSelections keeps fragment.items) _

theorem keeps_visitDocument (keeps : observer.Keeps schema allowed holds)
    (document : Document) (visit : Visit σ) :
    visit.Keeps allowed holds (observer.visitDocument schema document visit) :=
  related_foldl .refl .trans
    (fun visit definition => keeps_visitDefinition keeps definition visit) document visit

/-! ## What is noted on a selection -/

/-- The selection is visited in the scope, and what holds of the notes then holds of the final
ones. -/
def Reaches (observer : Observer σ) (schema : Schema) (holds : σ → Prop) (final : σ)
    (scope : TypeDefinition) (selection : Selection) : Prop :=
  ∃ visit : Visit σ, visit.scopes.type? = some scope ∧ visit.scopes.parent? = some scope ∧
    (holds (observer.visitSelection schema selection visit).noted → holds final)

variable {final : σ} {scope type : TypeDefinition} {items : List Selection}
  {selection : Selection}

theorem visitSelections_eq_foldl (observer : Observer σ) (schema : Schema)
    (items : List Selection) (visit : Visit σ) :
    observer.visitSelections schema items visit =
      items.foldl (fun visit selection => observer.visitSelection schema selection visit)
        visit := by
  induction items generalizing visit with
  | nil => rw [visitSelections, List.foldl_nil]
  | cons selection rest ih => rw [visitSelections, List.foldl_cons, ih]

/-- A selection of a set is visited in the scope of the set. -/
theorem reaches_of_visitSelections (keeps : observer.Keeps schema (fun _ => True) holds) {visit : Visit σ}
    (isType : visit.scopes.type? = some scope) (member : selection ∈ items)
    (passes : holds (observer.visitSelections schema items
      ⟨{ visit.scopes with parents := visit.scopes.type? :: visit.scopes.parents },
        visit.noted⟩).noted → holds final) :
    observer.Reaches schema holds final scope selection := by
  rw [visitSelections_eq_foldl] at passes
  obtain ⟨before, earlier, later⟩ := exists_related_of_mem .refl .trans
    (fun visit selection => keeps_visitSelection keeps selection visit) member
    (⟨{ visit.scopes with parents := visit.scopes.type? :: visit.scopes.parents }, visit.noted⟩ :
      Visit σ)
  refine ⟨before, ?_, ?_, fun held => passes (later.noted trivial held)⟩
  · rw [earlier.scopes]
    exact isType
  · rw [earlier.scopes]
    exact isType

namespace Reaches

/-- A field of the scope is noted with its declared type in effect. -/
theorem exists_onField (keeps : observer.Keeps schema (fun _ => True) holds) {head : FieldHead} {span : Span}
    (reaches : observer.Reaches schema holds final scope (.field head span items))
    {declaration : FieldDefinition} (declared : scope.field? head.name = some declaration) :
    ∃ scopes noted, scopes.type? = schema.type? declaration.type.namedType ∧
      (holds (observer.onField ⟨head, span, items⟩ scopes noted) → holds final) := by
  obtain ⟨visit, _, isParent, passes⟩ := reaches
  have definition : visit.scopes.parent?.bind (fun parent => parent.field? head.name) =
      some declaration := by
    rw [isParent]
    exact declared
  rw [visitSelection_field _ _ _ _ _ _ definition] at passes
  refine ⟨{ visit.scopes with
      types := schema.type? declaration.type.namedType :: visit.scopes.types },
    visit.noted, rfl, fun held => passes ?_⟩
  · have afterArguments := keeps_visitArguments keeps (some declaration.arguments)
      head.arguments
    have afterDirectives := keeps_visitDirectives keeps head.directives
    have afterItems : ∀ visit : Visit σ, visit.Keeps (fun _ => True) holds
        (visit.withParent (fun within => observer.visitSelections schema items within)) :=
      .withParent keeps.closed (keeps_visitSelections keeps items)
    exact ((afterArguments _).trans ((afterDirectives _).trans (afterItems _))).noted trivial held

/-- The selections of a field of the scope are visited at its declared type. -/
theorem field (keeps : observer.Keeps schema (fun _ => True) holds) {head : FieldHead} {span : Span}
    (reaches : observer.Reaches schema holds final scope (.field head span items))
    {declaration : FieldDefinition} (declared : scope.field? head.name = some declaration)
    (found : schema.type? declaration.type.namedType = some type) (member : selection ∈ items) :
    observer.Reaches schema holds final type selection := by
  obtain ⟨visit, _, isParent, passes⟩ := reaches
  have definition : visit.scopes.parent?.bind (fun parent => parent.field? head.name) =
      some declaration := by
    rw [isParent]
    exact declared
  rw [visitSelection_field _ _ _ _ _ _ definition] at passes
  refine reaches_of_visitSelections keeps ?_ member passes
  rw [(keeps_visitDirectives keeps head.directives _).scopes,
    (keeps_visitArguments keeps _ head.arguments _).scopes]
  exact found

/-- The selections of an inline fragment are visited at the type of its condition, or in the scope
of the fragment. -/
theorem inline (keeps : observer.Keeps schema (fun _ => True) holds) {condition : Option String}
    {directives : List Directive} {position : Position} {span : Span}
    (reaches : observer.Reaches schema holds final scope
      (.inline condition directives position span items))
    (found : schema.type? (condition.getD scope.name) = some type) (member : selection ∈ items) :
    observer.Reaches schema holds final type selection := by
  obtain ⟨visit, isType, _, passes⟩ := reaches
  rw [visitSelection_inline, isType] at passes
  refine reaches_of_visitSelections keeps ?_ member passes
  rw [(keeps_visitDirectives keeps directives _).scopes]
  cases condition with
  | none => exact found
  | some name => exact found

end Reaches

/-! ## What is noted on a document -/

theorem reaches_of_visitOperation (keeps : observer.Keeps schema (fun _ => True) holds) {operation : OperationDefinition}
    {visit : Visit σ}
    (found : (schema.rootName? operation.kind).bind schema.type? = some type)
    (passes : holds (observer.visitOperation schema operation visit).noted → holds final)
    (member : selection ∈ operation.items) :
    observer.Reaches schema holds final type selection := by
  refine reaches_of_visitSelections keeps ?_ member passes
  rw [(keeps_visitVariables keeps operation.variableDefinitions _).scopes,
    (keeps_visitDirectives keeps operation.directives _).scopes]
  exact found

theorem reaches_of_visitFragment (keeps : observer.Keeps schema (fun _ => True) holds) {fragment : FragmentDefinition}
    {visit : Visit σ} (found : schema.type? fragment.condition = some type)
    (passes : holds (observer.visitFragment schema fragment visit).noted → holds final)
    (member : selection ∈ fragment.items) :
    observer.Reaches schema holds final type selection := by
  refine reaches_of_visitSelections keeps ?_ member passes
  rw [(keeps_visitDirectives keeps fragment.directives _).scopes]
  exact found

/-- **What a visit notes on a definition is passed on through all documents.** -/
theorem exists_visitDefinition (keeps : observer.Keeps schema (fun _ => True) holds) (noted : σ)
    {documents : List Document} {document : Document} (isDocument : document ∈ documents)
    {definition : Definition} (member : definition ∈ document) :
    ∃ visit, holds (observer.visitDefinition schema definition visit).noted →
      holds (documents.foldl (observer.notesOn schema) noted) := by
  obtain ⟨before, _, after⟩ := exists_related_of_mem
    (R := fun before after => holds before → holds after) (fun _ => id)
    (fun first second => second ∘ first)
    (fun noted document => (keeps_visitDocument keeps document ⟨.empty, noted⟩).noted trivial)
    isDocument noted
  obtain ⟨visit, _, later⟩ := exists_related_of_mem Visit.Keeps.refl Visit.Keeps.trans
    (fun visit definition => keeps_visitDefinition keeps definition visit) member
    (⟨TypeScopes.empty, before⟩ : Visit σ)
  exact ⟨visit, fun held => after (later.noted trivial held)⟩

end Observer

end ResponseShape

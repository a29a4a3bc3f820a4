import ResponseShape.Proofs.UsedNames

/-!
# What a visit observes

A visit keeps the types in effect on stacks. What an observer is told can be read off a document
without any stack: the reading passes the types in effect down (`Scope`), lists what is met with the
types in effect there (`Observation`), and never has anything to pop.

The visit of each part of a document calls hooks for the listed observations in turn, the same for
all observers, and leaves the types in effect as they were (`Visit.Calls`). So an observer that
looks at the innermost types only (`Observer.ofStep`) notes in a visit what it notes when it is told
the listed observations in turn (`Observer.notesOn_ofStep`).

An inline fragment without a condition looks its type up again by its name. That the reading can
leave the type alone there is because types in effect are found by their names (`Scope.Known`).
-/

set_option autoImplicit false

namespace ResponseShape

/-! ## Scopes -/

/-- The types in effect at one place: the type of the innermost construct, the type on which fields
are looked up, and the type at which an input value is read, resolved and as it was written. -/
structure Scope where
  type : Option TypeDefinition
  parent : Option TypeDefinition
  input : Option TypeDefinition
  literal : Option TypeRef

namespace Scope

variable {schema : Schema} {scope : Scope}

/-- No types in effect. -/
def empty : Scope :=
  ⟨none, none, none, none⟩

/-- Inside a construct of the type. -/
def atType (scope : Scope) (type : Option TypeDefinition) : Scope :=
  { scope with type }

/-- Inside a definition that starts at the type of the given name. -/
def ofName (schema : Schema) (name : Option String) : Scope :=
  empty.atType (name.bind schema.type?)

/-- The declaration of a field of the type on which fields are looked up. -/
def declaration? (scope : Scope) (head : FieldHead) : Option FieldDefinition :=
  scope.parent.bind (fun parent => parent.field? head.name)

/-- Inside a field, at its named type. -/
def inField (scope : Scope) (schema : Schema) (head : FieldHead) : Scope :=
  scope.atType (((scope.declaration? head).map (fun field => field.type.namedType)).bind
    schema.type?)

/-- Inside an inline fragment, at the type of its condition if it has one. -/
def inFragment (scope : Scope) (schema : Schema) (condition : Option String) : Scope :=
  scope.atType (condition.elim scope.type schema.type?)

/-- Inside a selection set of the present construct. -/
def selecting (scope : Scope) : Scope :=
  { scope with parent := scope.type }

/-- Inside an input value that is read at the type. -/
def reading (scope : Scope) (schema : Schema) (reference : Option TypeRef) : Scope :=
  { scope with
    input := reference.bind (fun reference => schema.type? reference.namedType)
    literal := reference }

/-- The type of the innermost construct is found by its name. -/
def Known (schema : Schema) (scope : Scope) : Prop :=
  ∀ type, scope.type = some type → schema.type? type.name = some type

theorem known_atType (scope : Scope) (name : Option String) :
    (scope.atType (name.bind schema.type?)).Known schema := by
  intro type found
  obtain ⟨name, _, found⟩ := Option.bind_eq_some_iff.mp found
  exact Schema.name_of_type? found ▸ found

/-- A fragment without a condition stays at the type, which is found again by its name. -/
theorem Known.inFragment_eq (known : scope.Known schema) (condition : Option String) :
    scope.inFragment schema condition =
      scope.atType ((condition.or (scope.type.map TypeDefinition.name)).bind schema.type?) := by
  cases condition with
  | some name => rfl
  | none =>
      refine congrArg scope.atType ?_
      cases here : scope.type with
      | none => rfl
      | some type => exact (known type here).symm

end Scope

/-- The innermost types in effect. -/
def TypeScopes.top (scopes : TypeScopes) : Scope :=
  ⟨scopes.type?, scopes.parent?, scopes.input?, scopes.literal?⟩

/-! ## Observations -/

/-- What an observer is told about. -/
inductive Observed where
  | variable (definition : VariableDefinition)
  | argument (argument : Argument)
  | field (node : FieldNode)
  | objectField (name : String) (value : Value)

/-- What is met in a document, with the types in effect there. -/
structure Observation where
  observed : Observed
  scope : Scope

/-- The observer that is told observations and takes a step at each of them. -/
def Observer.ofStep {σ : Type} (step : Observation → σ → σ) : Observer σ where
  onVariable definition scopes := step ⟨.variable definition, scopes.top⟩
  onArgument argument scopes := step ⟨.argument argument, scopes.top⟩
  onField node scopes := step ⟨.field node, scopes.top⟩
  onObjectField name value scopes := step ⟨.objectField name value, scopes.top⟩

namespace Value

mutual

/-- What is met in a value. -/
def observations (schema : Schema) (scope : Scope) : Value → List Observation
  | .list items =>
      itemsObservations schema (scope.reading schema (scope.literal.bind TypeRef.item?)) items
  | .object fields => fieldsObservations schema scope fields
  | .null | .variable _ | .int _ | .float _ | .string _ | .boolean _ | .enum _ => []

/-- What is met in the items of a list. -/
def itemsObservations (schema : Schema) (scope : Scope) : List Value → List Observation
  | [] => []
  | item :: rest => observations schema scope item ++ itemsObservations schema scope rest

/-- What is met in the fields of an object value. -/
def fieldsObservations (schema : Schema) (scope : Scope) :
    List (String × Value) → List Observation
  | [] => []
  | (name, value) :: rest =>
      let inside := scope.reading schema
        ((scope.input.bind (fun type => type.inputField? name)).map InputValueDefinition.type)
      ⟨.objectField name value, inside⟩ :: observations schema inside value ++
        fieldsObservations schema scope rest

end

end Value

/-- The declared type of an argument, given the declared arguments. -/
def Argument.declaredType? (declared : Option (List InputValueDefinition)) (argument : Argument) :
    Option TypeRef :=
  (declared.bind (fun definitions =>
    definitions.find? (fun definition => definition.name == argument.name))).map
      InputValueDefinition.type

/-- What is met at an argument. -/
def Argument.observations (schema : Schema) (declared : Option (List InputValueDefinition))
    (scope : Scope) (argument : Argument) : List Observation :=
  let inside := scope.reading schema (argument.declaredType? declared)
  ⟨.argument argument, inside⟩ :: argument.value.observations schema inside

/-- What is met at the arguments of a directive. -/
def Directive.observations (schema : Schema) (scope : Scope) (directive : Directive) :
    List Observation :=
  directive.arguments.flatMap
    (Argument.observations schema (schema.directiveArguments? directive.name) scope)

/-- What is met at a variable and in its default value. -/
def VariableDefinition.observations (schema : Schema) (scope : Scope)
    (definition : VariableDefinition) : List Observation :=
  let inside := scope.reading schema (some definition.type)
  ⟨.variable definition, inside⟩ ::
    definition.default?.elim [] (Value.observations schema inside)

namespace Selection

mutual

/-- What is met in a selection. -/
def observations (schema : Schema) (scope : Scope) : Selection → List Observation
  | .field head span items =>
      let inside := scope.inField schema head
      ⟨.field ⟨head, span, items⟩, inside⟩ ::
        (head.arguments.flatMap (Argument.observations schema
            ((scope.declaration? head).map FieldDefinition.arguments) inside) ++
          (head.directives.flatMap (Directive.observations schema inside) ++
            listObservations schema inside.selecting items))
  | .spread _ directives _ => directives.flatMap (Directive.observations schema scope)
  | .inline condition directives _ _ items =>
      let inside := scope.inFragment schema condition
      directives.flatMap (Directive.observations schema inside) ++
        listObservations schema inside.selecting items

/-- What is met in a list of selections. -/
def listObservations (schema : Schema) (scope : Scope) : List Selection → List Observation
  | [] => []
  | selection :: rest => observations schema scope selection ++ listObservations schema scope rest

end

end Selection

/-- What is met in a definition. -/
def Definition.observations (schema : Schema) : Definition → List Observation
  | .operation definition =>
      let inside := Scope.ofName schema (schema.rootName? definition.kind)
      definition.directives.flatMap (Directive.observations schema inside) ++
        (definition.variableDefinitions.flatMap (VariableDefinition.observations schema inside) ++
          Selection.listObservations schema inside.selecting definition.items)
  | .fragment definition =>
      let inside := Scope.ofName schema (some definition.condition)
      definition.directives.flatMap (Directive.observations schema inside) ++
        Selection.listObservations schema inside.selecting definition.items

/-- What is met in a document. -/
def Document.observations (schema : Schema) (document : Document) : List Observation :=
  document.flatMap (Definition.observations schema)

/-! ## Visits make calls -/

/-- A call of a hook: what the observer is told about, and the types in effect at the time. -/
structure Call where
  observed : Observed
  scopes : TypeScopes

/-- What an observer of the innermost types sees of the call. -/
def Call.observation (call : Call) : Observation :=
  ⟨call.observed, call.scopes.top⟩

namespace Observer

variable {σ : Type}

/-- The hook for what is met. -/
def hook (observer : Observer σ) : Observed → TypeScopes → σ → σ
  | .variable definition => observer.onVariable definition
  | .argument argument => observer.onArgument argument
  | .field node => observer.onField node
  | .objectField name value => observer.onObjectField name value

/-- What is noted after the call. -/
def answer (observer : Observer σ) (noted : σ) (call : Call) : σ :=
  observer.hook call.observed call.scopes noted

theorem answer_ofStep (step : Observation → σ → σ) :
    (ofStep step).answer = fun noted call => step call.observation noted := by
  funext noted call
  obtain ⟨observed, scopes⟩ := call
  cases observed <;> rfl

end Observer

namespace Visit

variable {σ : Type} {schema : Schema} {step : Observation → σ → σ} {scope : Scope}
  {first second observations : List Observation} {observed : Observed}
  {act act' before after : (σ : Type) → Observer σ → Visit σ → Visit σ}

/-- Where the innermost types are those of the scope, the part of a visit takes the steps of the
observations in turn, and leaves the types in effect as they are. -/
def Notes (step : Observation → σ → σ) (scope : Scope) (observations : List Observation)
    (act : Visit σ → Visit σ) : Prop :=
  ∀ visit : Visit σ, visit.scopes.top = scope → act visit =
    ⟨visit.scopes, observations.foldl (fun noted observation => step observation noted) visit.noted⟩

/-- Where the innermost types are those of the scope, the part of a visit calls hooks for the
observations in turn, the same whoever observes, and leaves the types in effect as they are. -/
def Calls (scope : Scope) (observations : List Observation)
    (act : (σ : Type) → Observer σ → Visit σ → Visit σ) : Prop :=
  ∀ scopes : TypeScopes, scopes.top = scope → ∃ calls : List Call,
    calls.map Call.observation = observations ∧
      ∀ (σ : Type) (observer : Observer σ) (noted : σ),
        act σ observer ⟨scopes, noted⟩ = ⟨scopes, calls.foldl observer.answer noted⟩

namespace Calls

theorem nil (scope : Scope) : Calls scope [] (fun _ _ visit => visit) :=
  fun _ _ => ⟨[], rfl, fun _ _ _ => rfl⟩

/-- What a part of a visit calls is determined by what it does where the scope is in effect. -/
theorem congr (same : ∀ (σ : Type) (observer : Observer σ) (visit : Visit σ),
      visit.scopes.top = scope → act' σ observer visit = act σ observer visit)
    (calls : Calls scope observations act) : Calls scope observations act' := by
  intro scopes here
  obtain ⟨made, seen, visited⟩ := calls scopes here
  refine ⟨made, seen, fun σ observer noted => ?_⟩
  rw [same σ observer ⟨scopes, noted⟩ here, visited]

/-- **Parts of a visit follow each other.** -/
theorem append (earlier : Calls scope first before) (later : Calls scope second after) :
    Calls scope (first ++ second)
      (fun σ observer visit => after σ observer (before σ observer visit)) := by
  intro scopes here
  obtain ⟨made, seen, visited⟩ := earlier scopes here
  obtain ⟨made', seen', visited'⟩ := later scopes here
  refine ⟨made ++ made', ?_, fun σ observer noted => ?_⟩
  · rw [List.map_append, seen, seen']
  · change after σ observer (before σ observer ⟨scopes, noted⟩) = _
    rw [visited, visited', List.foldl_append]

/-- The hook is called for what is met here. -/
theorem note (scope : Scope) (observed : Observed) :
    Calls scope [⟨observed, scope⟩]
      (fun _ observer visit => visit.note (observer.hook observed)) := by
  rintro scopes rfl
  exact ⟨[⟨observed, scopes⟩], rfl, fun _ _ _ => rfl⟩

theorem cons (later : Calls scope observations after) :
    Calls scope (⟨observed, scope⟩ :: observations)
      (fun σ observer visit => after σ observer (visit.note (observer.hook observed))) :=
  (note scope observed).append later

theorem foldl {α : Type} {visitItem : (σ : Type) → Observer σ → Visit σ → α → Visit σ}
    {observe : α → List Observation}
    (each : ∀ item,
      Calls scope (observe item) (fun σ observer visit => visitItem σ observer visit item))
    (items : List α) :
    Calls scope (items.flatMap observe)
      (fun σ observer visit => items.foldl (visitItem σ observer) visit) := by
  induction items with
  | nil => exact nil scope
  | cons item rest ih => exact (each item).append ih

/-- What was pushed is popped again. -/
theorem withType (name : Option String)
    (inside : Calls (scope.atType (name.bind schema.type?)) observations act) :
    Calls scope observations
      (fun σ observer visit => Visit.withType schema name (act σ observer) visit) := by
  rintro scopes rfl
  obtain ⟨made, seen, visited⟩ :=
    inside { scopes with types := name.bind schema.type? :: scopes.types } rfl
  refine ⟨made, seen, fun σ observer noted => ?_⟩
  simp only [Visit.withType, visited, List.tail_cons]

theorem withParent (inside : Calls scope.selecting observations act) :
    Calls scope observations
      (fun σ observer visit => Visit.withParent (act σ observer) visit) := by
  rintro scopes rfl
  obtain ⟨made, seen, visited⟩ :=
    inside { scopes with parents := scopes.type? :: scopes.parents } rfl
  refine ⟨made, seen, fun σ observer noted => ?_⟩
  simp only [Visit.withParent, visited, List.tail_cons]

theorem withInput (type : Option TypeRef)
    (inside : Calls (scope.reading schema type) observations act) :
    Calls scope observations
      (fun σ observer visit => Visit.withInput schema type (act σ observer) visit) := by
  rintro scopes rfl
  obtain ⟨made, seen, visited⟩ := inside
    { scopes with
      inputs := type.bind (fun reference => schema.type? reference.namedType) :: scopes.inputs
      literals := type :: scopes.literals } rfl
  refine ⟨made, seen, fun σ observer noted => ?_⟩
  simp only [Visit.withInput, visited, List.tail_cons]

/-- An observer that looks at the innermost types only notes the observations. -/
theorem notes (calls : Calls scope observations act) (step : Observation → σ → σ) :
    Notes step scope observations (act σ (.ofStep step)) := by
  rintro ⟨scopes, noted⟩ here
  obtain ⟨made, rfl, visited⟩ := calls scopes here
  rw [visited, List.foldl_map, Observer.answer_ofStep]

end Calls

end Visit

namespace Observer

variable {σ : Type} {schema : Schema}

open Visit (Calls)

/-! ### Values -/

mutual

theorem calls_visitValue : ∀ (value : Value) (scope : Scope),
    Calls scope (value.observations schema scope)
      (fun _ observer visit => observer.visitValue schema value visit)
  | .list items, scope => by
      rw [Value.observations]
      refine .congr (fun σ observer visit here => ?_) (.withInput _ (calls_visitItems items _))
      have type : visit.scopes.literal?.bind TypeRef.item? = scope.literal.bind TypeRef.item? :=
        congrArg (fun scope => scope.literal.bind TypeRef.item?) here
      rw [visitValue, type]
  | .object fields, scope => by
      rw [Value.observations]
      refine .congr (fun σ observer visit _ => ?_) (calls_visitFields fields scope)
      rw [visitValue]
  | .null, scope | .variable _, scope | .int _, scope | .float _, scope | .string _, scope
  | .boolean _, scope | .enum _, scope => by
      rw [Value.observations]
      refine .congr (fun σ observer visit _ => ?_) (.nil scope)
      rw [visitValue]

theorem calls_visitItems : ∀ (items : List Value) (scope : Scope),
    Calls scope (Value.itemsObservations schema scope items)
      (fun _ observer visit => observer.visitItems schema items visit)
  | [], scope => by
      rw [Value.itemsObservations]
      refine .congr (fun σ observer visit _ => ?_) (.nil scope)
      rw [visitItems]
  | item :: rest, scope => by
      rw [Value.itemsObservations]
      refine .congr (fun σ observer visit _ => ?_)
        ((calls_visitValue item scope).append (calls_visitItems rest scope))
      rw [visitItems]

theorem calls_visitFields : ∀ (fields : List (String × Value)) (scope : Scope),
    Calls scope (Value.fieldsObservations schema scope fields)
      (fun _ observer visit => observer.visitFields schema fields visit)
  | [], scope => by
      rw [Value.fieldsObservations]
      refine .congr (fun σ observer visit _ => ?_) (.nil scope)
      rw [visitFields]
  | (name, value) :: rest, scope => by
      rw [Value.fieldsObservations]
      refine .congr (fun σ observer visit here => ?_)
        ((Calls.withInput _ (.cons (calls_visitValue value _))).append
          (calls_visitFields rest scope))
      have type : visit.scopes.input?.bind (fun type => type.inputField? name) =
          scope.input.bind (fun type => type.inputField? name) :=
        congrArg (fun scope => scope.input.bind (fun type => type.inputField? name)) here
      rw [visitFields, type]
      rfl

end

/-! ### Arguments, directives and variables -/

theorem calls_visitArgument (declared : Option (List InputValueDefinition)) (argument : Argument)
    (scope : Scope) :
    Calls scope (argument.observations schema declared scope)
      (fun _ observer visit => observer.visitArgument schema declared argument visit) :=
  Calls.withInput _ (.cons (calls_visitValue argument.value _))

theorem calls_visitArguments (declared : Option (List InputValueDefinition))
    (arguments : List Argument) (scope : Scope) :
    Calls scope (arguments.flatMap (Argument.observations schema declared scope))
      (fun _ observer visit => observer.visitArguments schema declared arguments visit) :=
  Calls.foldl (fun argument => calls_visitArgument declared argument scope) arguments

theorem calls_visitDirectives (directives : List Directive) (scope : Scope) :
    Calls scope (directives.flatMap (Directive.observations schema scope))
      (fun _ observer visit => observer.visitDirectives schema directives visit) := by
  have each : ∀ directive : Directive, Calls scope (directive.observations schema scope)
      (fun _ observer visit => observer.visitArguments schema
        (schema.directiveArguments? directive.name) directive.arguments visit) :=
    fun directive => calls_visitArguments _ directive.arguments scope
  exact Calls.foldl each directives

theorem calls_visitDefault (default? : Option Value) (scope : Scope) :
    Calls scope (default?.elim [] (Value.observations schema scope))
      (fun _ observer visit => match default? with
        | none => visit
        | some value => observer.visitValue schema value visit) := by
  cases default? with
  | none => exact .nil scope
  | some value => exact calls_visitValue value scope

theorem calls_visitVariable (definition : VariableDefinition) (scope : Scope) :
    Calls scope (definition.observations schema scope)
      (fun _ observer visit => observer.visitVariable schema definition visit) :=
  Calls.withInput _ (.cons (calls_visitDefault definition.default? _))

theorem calls_visitVariables (definitions : List VariableDefinition) (scope : Scope) :
    Calls scope (definitions.flatMap (VariableDefinition.observations schema scope))
      (fun _ observer visit => observer.visitVariables schema definitions visit) :=
  Calls.foldl (fun definition => calls_visitVariable definition scope) definitions

/-! ### Selections -/

mutual

theorem calls_visitSelection : ∀ (selection : Selection) (scope : Scope), scope.Known schema →
    Calls scope (selection.observations schema scope)
      (fun _ observer visit => observer.visitSelection schema selection visit)
  | .field head span items, scope, _ => by
      have inside : (scope.inField schema head).Known schema := scope.known_atType _
      rw [Selection.observations]
      refine .congr (fun σ observer visit here => ?_)
        (Calls.withType _ (.cons ((calls_visitArguments _ head.arguments _).append
          ((calls_visitDirectives head.directives _).append
            (.withParent (calls_visitSelections items _ inside))))))
      have declaration : visit.scopes.parent?.bind (fun parent => parent.field? head.name) =
          scope.declaration? head :=
        congrArg (fun scope => scope.declaration? head) here
      rw [visitSelection_field _ _ _ _ _ _ declaration]
      rfl
  | .spread _ directives _, scope, _ => by
      rw [Selection.observations]
      refine .congr (fun σ observer visit _ => ?_) (calls_visitDirectives directives scope)
      rw [visitSelection]
  | .inline condition directives _ _ items, scope, known => by
      have inside : (scope.atType ((condition.or (scope.type.map TypeDefinition.name)).bind
          schema.type?)).Known schema := scope.known_atType _
      rw [Selection.observations, known.inFragment_eq]
      refine .congr (fun σ observer visit here => ?_)
        (Calls.withType _ ((calls_visitDirectives directives _).append
          (.withParent (calls_visitSelections items _ inside))))
      have name : condition.or (visit.scopes.type?.map TypeDefinition.name) =
          condition.or (scope.type.map TypeDefinition.name) :=
        congrArg (fun scope => condition.or (scope.type.map TypeDefinition.name)) here
      rw [visitSelection_inline, name]

theorem calls_visitSelections : ∀ (items : List Selection) (scope : Scope), scope.Known schema →
    Calls scope (Selection.listObservations schema scope items)
      (fun _ observer visit => observer.visitSelections schema items visit)
  | [], scope, _ => by
      rw [Selection.listObservations]
      refine .congr (fun σ observer visit _ => ?_) (.nil scope)
      rw [visitSelections]
  | selection :: rest, scope, known => by
      rw [Selection.listObservations]
      refine .congr (fun σ observer visit _ => ?_)
        ((calls_visitSelection selection scope known).append
          (calls_visitSelections rest scope known))
      rw [visitSelections]

end

/-! ### Documents -/

/-- An operation is visited at its root type, wherever the visit comes from. -/
theorem calls_visitOperation (operation : OperationDefinition) (scope inside : Scope)
    (here : inside = scope.atType ((schema.rootName? operation.kind).bind schema.type?)) :
    Calls scope (operation.directives.flatMap (Directive.observations schema inside) ++
        (operation.variableDefinitions.flatMap (VariableDefinition.observations schema inside) ++
          Selection.listObservations schema inside.selecting operation.items))
      (fun _ observer visit => observer.visitOperation schema operation visit) := by
  have known : inside.Known schema := here ▸ scope.known_atType _
  subst here
  exact Calls.withType _ ((calls_visitDirectives operation.directives _).append
    ((calls_visitVariables operation.variableDefinitions _).append
      (.withParent (calls_visitSelections operation.items _ known))))

/-- A fragment is visited at the type of its condition, wherever the visit comes from. -/
theorem calls_visitFragment (fragment : FragmentDefinition) (scope inside : Scope)
    (here : inside = scope.atType (schema.type? fragment.condition)) :
    Calls scope (fragment.directives.flatMap (Directive.observations schema inside) ++
        Selection.listObservations schema inside.selecting fragment.items)
      (fun _ observer visit => observer.visitFragment schema fragment visit) := by
  have known : inside.Known schema := here ▸ scope.known_atType (some fragment.condition)
  subst here
  exact Calls.withType (some fragment.condition)
    ((calls_visitDirectives fragment.directives _).append
      (.withParent (calls_visitSelections fragment.items _ known)))

theorem calls_visitDefinition (definition : Definition) :
    Calls .empty (definition.observations schema)
      (fun _ observer visit => observer.visitDefinition schema definition visit) := by
  cases definition with
  | operation operation => exact calls_visitOperation operation .empty _ rfl
  | fragment fragment => exact calls_visitFragment fragment .empty _ rfl

/-- **An observer that looks at the innermost types only notes what is read off the document**, in
the same order. -/
theorem notesOn_ofStep (step : Observation → σ → σ) (noted : σ) (document : Document) :
    (ofStep step).notesOn schema noted document =
      (document.observations schema).foldl (fun noted observation => step observation noted)
        noted := by
  have calls : Calls .empty (document.observations schema)
      (fun _ observer visit => observer.visitDocument schema document visit) :=
    Calls.foldl (fun definition => calls_visitDefinition definition) document
  exact congrArg Visit.noted (calls.notes step ⟨TypeScopes.empty, noted⟩ rfl)

/-- Documents are read one after the other. -/
theorem foldl_notesOn_ofStep (step : Observation → σ → σ) (noted : σ)
    (documents : List Document) :
    documents.foldl ((ofStep step).notesOn schema) noted =
      (documents.flatMap (Document.observations schema)).foldl
        (fun noted observation => step observation noted) noted := by
  induction documents generalizing noted with
  | nil => rfl
  | cons document rest ih =>
      rw [List.foldl_cons, notesOn_ofStep, ih, List.flatMap_cons, List.foldl_append]

end Observer

end ResponseShape

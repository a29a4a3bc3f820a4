import ResponseShape.Proofs.Observations

/-!
# Hooks are called in static scopes

A visit looks up types on four stacks. What a hook finds on them is determined by where the hook is
called in the document, and can be said without stacks (`Sighting`): a field is seen on the type of
the selection set around it, which is the root type or the condition of the definition, or the
condition of the innermost inline fragment that has one, or the type of the field around it. A
variable, an argument or a field of an object value is seen at its declared type, which is found by
descending through the fields of input objects and the items of lists. Where a name leads nowhere,
nothing is seen.

`Document.sightings` reads this off a document and passes down one type only: the type of the
selection set, or the declared type of the value. The visit makes the same calls whoever observes,
they are those that are read off, and the stacks are left as they were
(`Observer.exists_calls_visitDocument`).

The calls come in the order of the document, in which object values keep their fields by name, but
for the directives of an operation: these are written behind its variables and visited before them
(`Observer.not_calls_as_written`).
-/

set_option autoImplicit false

namespace ResponseShape

/-! ## What hooks see -/

/-- The type that is named by a written type. -/
def Schema.named (schema : Schema) (declared : Option TypeRef) : Option TypeDefinition :=
  declared.bind (fun reference => schema.type? reference.namedType)

/-- What a hook is called for, and the types that it is to see: for a field the type on which it is
looked up and its own type, for everything else the type that was declared for it, as it was written
and resolved. -/
inductive Sighting where
  | field (node : FieldNode) (parent type : Option TypeDefinition)
  | variable (definition : VariableDefinition) (declared : Option TypeRef)
      (type : Option TypeDefinition)
  | argument (argument : Argument) (declared : Option TypeRef) (type : Option TypeDefinition)
  | objectField (name : String) (value : Value) (declared : Option TypeRef)
      (type : Option TypeDefinition)

/-- The part of an observation that belongs to what is observed. -/
def Observation.sighting (observation : Observation) : Sighting :=
  let scope := observation.scope
  match observation.observed with
  | .field node => .field node scope.parent scope.type
  | .variable definition => .variable definition scope.literal scope.input
  | .argument argument => .argument argument scope.literal scope.input
  | .objectField name value => .objectField name value scope.literal scope.input

/-- What the hook finds on top of the stacks when it is called. -/
def Call.sighting (call : Call) : Sighting :=
  let scopes := call.scopes
  match call.observed with
  | .field node => .field node scopes.parent? scopes.type?
  | .variable definition => .variable definition scopes.literal? scopes.input?
  | .argument argument => .argument argument scopes.literal? scopes.input?
  | .objectField name value => .objectField name value scopes.literal? scopes.input?

theorem Call.sighting_observation (call : Call) : call.observation.sighting = call.sighting := by
  obtain ⟨observed, scopes⟩ := call
  cases observed <;> rfl

/-! ## Reading sightings off a document -/

namespace Value

mutual

/-- What is seen in a value of the declared type. -/
def sightings (schema : Schema) (declared : Option TypeRef) : Value → List Sighting
  | .list items => itemsSightings schema (declared.bind TypeRef.item?) items
  | .object fields => fieldsSightings schema (schema.named declared) fields
  | .null | .variable _ | .int _ | .float _ | .string _ | .boolean _ | .enum _ => []

/-- What is seen in the items of a list that are of the declared type. -/
def itemsSightings (schema : Schema) (declared : Option TypeRef) : List Value → List Sighting
  | [] => []
  | item :: rest => sightings schema declared item ++ itemsSightings schema declared rest

/-- What is seen in the fields of an object value of the type. -/
def fieldsSightings (schema : Schema) (type : Option TypeDefinition) :
    List (String × Value) → List Sighting
  | [] => []
  | (name, value) :: rest =>
      let declared := (type.bind (fun type => type.inputField? name)).map InputValueDefinition.type
      .objectField name value declared (schema.named declared) ::
        (sightings schema declared value ++ fieldsSightings schema type rest)

end

end Value

/-- What is seen at an argument, given the declared arguments. -/
def Argument.sightings (schema : Schema) (definitions : Option (List InputValueDefinition))
    (argument : Argument) : List Sighting :=
  let declared := argument.declaredType? definitions
  .argument argument declared (schema.named declared) :: argument.value.sightings schema declared

/-- What is seen at the arguments of a directive. -/
def Directive.sightings (schema : Schema) (directive : Directive) : List Sighting :=
  directive.arguments.flatMap
    (Argument.sightings schema (schema.directiveArguments? directive.name))

/-- What is seen at a variable and in its default value. -/
def VariableDefinition.sightings (schema : Schema) (definition : VariableDefinition) :
    List Sighting :=
  .variable definition (some definition.type) (schema.type? definition.type.namedType) ::
    definition.default?.elim [] (Value.sightings schema (some definition.type))

namespace Selection

mutual

/-- What is seen in a selection of a selection set of the given type. -/
def sightings (schema : Schema) (parent : Option TypeDefinition) : Selection → List Sighting
  | .field head span items =>
      let definition := parent.bind (fun parent => parent.field? head.name)
      let type := schema.named (definition.map FieldDefinition.type)
      .field ⟨head, span, items⟩ parent type ::
        (head.arguments.flatMap
            (Argument.sightings schema (definition.map FieldDefinition.arguments)) ++
          (head.directives.flatMap (Directive.sightings schema) ++
            listSightings schema type items))
  | .spread _ directives _ => directives.flatMap (Directive.sightings schema)
  | .inline condition directives _ _ items =>
      directives.flatMap (Directive.sightings schema) ++
        listSightings schema (condition.elim parent schema.type?) items

/-- What is seen in the selections of a selection set of the given type. -/
def listSightings (schema : Schema) (parent : Option TypeDefinition) :
    List Selection → List Sighting
  | [] => []
  | selection :: rest => sightings schema parent selection ++ listSightings schema parent rest

end

end Selection

/-- What is seen at the directives of an operation. -/
def OperationDefinition.directiveSightings (schema : Schema) (operation : OperationDefinition) :
    List Sighting :=
  operation.directives.flatMap (Directive.sightings schema)

/-- What is seen at the variables of an operation. -/
def OperationDefinition.variableSightings (schema : Schema) (operation : OperationDefinition) :
    List Sighting :=
  operation.variableDefinitions.flatMap (VariableDefinition.sightings schema)

/-- What is seen in the selections of an operation, which starts at its root type. -/
def OperationDefinition.itemSightings (schema : Schema) (operation : OperationDefinition) :
    List Sighting :=
  Selection.listSightings schema ((schema.rootName? operation.kind).bind schema.type?)
    operation.items

/-- What is seen in a fragment, which starts at the type of its condition. -/
def FragmentDefinition.sightings (schema : Schema) (fragment : FragmentDefinition) :
    List Sighting :=
  fragment.directives.flatMap (Directive.sightings schema) ++
    Selection.listSightings schema (schema.type? fragment.condition) fragment.items

/-- What is seen in a definition: in an operation the directives are seen first, then the
variables. -/
def Definition.sightings (schema : Schema) : Definition → List Sighting
  | .operation definition =>
      definition.directiveSightings schema ++
        (definition.variableSightings schema ++ definition.itemSightings schema)
  | .fragment definition => definition.sightings schema

/-- What is seen in a document. -/
def Document.sightings (schema : Schema) (document : Document) : List Sighting :=
  document.flatMap (Definition.sightings schema)

/-! ## Observations are sightings -/

variable {schema : Schema}

namespace Value

mutual

theorem map_observations : ∀ (value : Value) (scope : Scope),
    scope.input = schema.named scope.literal →
      (value.observations schema scope).map Observation.sighting =
        value.sightings schema scope.literal
  | .list items, scope, _ => by
      rw [observations, sightings]
      exact map_itemsObservations items _ rfl
  | .object fields, scope, resolved => by
      rw [observations, sightings, ← resolved]
      exact map_fieldsObservations fields scope
  | .null, _, _ | .variable _, _, _ | .int _, _, _ | .float _, _, _ | .string _, _, _
  | .boolean _, _, _ | .enum _, _, _ => by
      rw [observations, sightings, List.map_nil]

theorem map_itemsObservations : ∀ (items : List Value) (scope : Scope),
    scope.input = schema.named scope.literal →
      (itemsObservations schema scope items).map Observation.sighting =
        itemsSightings schema scope.literal items
  | [], _, _ => by rw [itemsObservations, itemsSightings, List.map_nil]
  | item :: rest, scope, resolved => by
      rw [itemsObservations, itemsSightings, List.map_append, map_observations item scope resolved,
        map_itemsObservations rest scope resolved]

theorem map_fieldsObservations : ∀ (fields : List (String × Value)) (scope : Scope),
    (fieldsObservations schema scope fields).map Observation.sighting =
      fieldsSightings schema scope.input fields
  | [], _ => by rw [fieldsObservations, fieldsSightings, List.map_nil]
  | (name, value) :: rest, scope => by
      have inside := map_observations value (scope.reading schema
        ((scope.input.bind (fun type => type.inputField? name)).map InputValueDefinition.type)) rfl
      rw [fieldsObservations, fieldsSightings, List.map_append, List.map_cons, inside,
        map_fieldsObservations rest scope]
      rfl

end

end Value

theorem Argument.map_observations (definitions : Option (List InputValueDefinition))
    (scope : Scope) (argument : Argument) :
    (argument.observations schema definitions scope).map Observation.sighting =
      argument.sightings schema definitions := by
  have inside := argument.value.map_observations
    (scope.reading schema (argument.declaredType? definitions)) rfl
  rw [observations, sightings, List.map_cons, inside]
  rfl

theorem Argument.map_flatMap_observations (definitions : Option (List InputValueDefinition))
    (scope : Scope) (arguments : List Argument) :
    (arguments.flatMap (Argument.observations schema definitions scope)).map
        Observation.sighting = arguments.flatMap (Argument.sightings schema definitions) := by
  rw [List.map_flatMap]
  exact congrArg arguments.flatMap (funext fun argument => argument.map_observations _ scope)

theorem Directive.map_flatMap_observations (scope : Scope) (directives : List Directive) :
    (directives.flatMap (Directive.observations schema scope)).map Observation.sighting =
      directives.flatMap (Directive.sightings schema) := by
  rw [List.map_flatMap]
  exact congrArg directives.flatMap
    (funext fun directive => Argument.map_flatMap_observations _ scope directive.arguments)

theorem VariableDefinition.map_observations (scope : Scope) (definition : VariableDefinition) :
    (definition.observations schema scope).map Observation.sighting =
      definition.sightings schema := by
  have inside := fun value : Value =>
    value.map_observations (scope.reading schema (some definition.type)) rfl
  rw [observations, sightings, List.map_cons]
  refine congrArg₂ List.cons rfl ?_
  cases definition.default? with
  | none => rfl
  | some value => exact inside value

theorem VariableDefinition.map_flatMap_observations (scope : Scope)
    (definitions : List VariableDefinition) :
    (definitions.flatMap (VariableDefinition.observations schema scope)).map
        Observation.sighting = definitions.flatMap (VariableDefinition.sightings schema) := by
  rw [List.map_flatMap]
  exact congrArg definitions.flatMap (funext fun definition => definition.map_observations scope)

/-- Inside a field the type is the one that its definition names. -/
theorem Scope.type_inField (scope : Scope) (head : FieldHead) :
    (scope.inField schema head).type =
      schema.named ((scope.declaration? head).map FieldDefinition.type) := by
  rw [inField, atType, Schema.named]
  cases scope.declaration? head <;> rfl

namespace Selection

mutual

/-- In a selection set, whose type is the type around it, what is observed in a selection is what is
to be seen in it. -/
theorem map_observations : ∀ (selection : Selection) (scope : Scope),
    scope.type = scope.parent →
      (selection.observations schema scope).map Observation.sighting =
        selection.sightings schema scope.parent
  | .field head span items, scope, _ => by
      -- the type inside the field is seen at the field, and is the parent of what it selects
      have type : (scope.inField schema head).type =
          schema.named ((scope.declaration? head).map FieldDefinition.type) :=
        scope.type_inField head
      have here : Observation.sighting ⟨.field ⟨head, span, items⟩, scope.inField schema head⟩ =
          .field ⟨head, span, items⟩ scope.parent
            (schema.named ((scope.declaration? head).map FieldDefinition.type)) :=
        congrArg (Sighting.field _ _) type
      have below : (listObservations schema (scope.inField schema head).selecting items).map
            Observation.sighting =
          listSightings schema
            (schema.named ((scope.declaration? head).map FieldDefinition.type)) items :=
        (map_listObservations items (scope.inField schema head).selecting rfl).trans
          (congrArg (fun parent => listSightings schema parent items) type)
      rw [observations, sightings, List.map_cons, here, List.map_append, List.map_append,
        Argument.map_flatMap_observations, Directive.map_flatMap_observations, below]
      rfl
  | .spread _ directives _, scope, _ => by
      rw [observations, sightings]
      exact Directive.map_flatMap_observations scope directives
  | .inline condition directives _ _ items, scope, selecting => by
      rw [observations, sightings, List.map_append, Directive.map_flatMap_observations,
        map_listObservations items (scope.inFragment schema condition).selecting rfl,
        ← selecting]
      rfl

theorem map_listObservations : ∀ (items : List Selection) (scope : Scope),
    scope.type = scope.parent →
      (listObservations schema scope items).map Observation.sighting =
        listSightings schema scope.parent items
  | [], _, _ => by rw [listObservations, listSightings, List.map_nil]
  | selection :: rest, scope, selecting => by
      rw [listObservations, listSightings, List.map_append,
        map_observations selection scope selecting, map_listObservations rest scope selecting]

end

end Selection

/-! ## Visits call hooks for sightings -/

namespace Observer

open Visit (Calls)

/-- Wherever the visit comes from, what is observed in a definition is what is to be seen in it. -/
theorem exists_calls_visitDefinition (definition : Definition) (scope : Scope) :
    ∃ observations, observations.map Observation.sighting = definition.sightings schema ∧
      Calls scope observations
        (fun _ observer visit => observer.visitDefinition schema definition visit) := by
  cases definition with
  | operation operation =>
      refine ⟨_, ?_, calls_visitOperation operation scope _ rfl⟩
      rw [List.map_append, List.map_append, Directive.map_flatMap_observations,
        VariableDefinition.map_flatMap_observations, Selection.map_listObservations _ _ rfl]
      rfl
  | fragment fragment =>
      refine ⟨_, ?_, calls_visitFragment fragment scope _ rfl⟩
      rw [List.map_append, Directive.map_flatMap_observations,
        Selection.map_listObservations _ _ rfl]
      rfl

/-- **Hooks are called in static scopes.** From whatever types in effect a document is visited, the
calls are the same for all observers. They are made for what is read off the document, in this
order, and find the types on top of the stacks that are read off for them; and after the visit the
stacks are as they were. -/
theorem exists_calls_visitDocument (schema : Schema) (document : Document) (scopes : TypeScopes) :
    ∃ calls : List Call, calls.map Call.sighting = document.sightings schema ∧
      ∀ (σ : Type) (observer : Observer σ) (noted : σ),
        observer.visitDocument schema document ⟨scopes, noted⟩ =
          ⟨scopes, calls.foldl observer.answer noted⟩ := by
  choose observe seen visited using
    fun definition => @exists_calls_visitDefinition schema definition scopes.top
  obtain ⟨calls, observed, made⟩ := Calls.foldl visited document scopes rfl
  refine ⟨calls, ?_, made⟩
  have same : calls.map Call.sighting =
      (calls.map Call.observation).map Observation.sighting := by
    rw [List.map_map]
    exact congrArg calls.map (funext fun call => call.sighting_observation.symm)
  rw [same, observed, List.map_flatMap]
  exact congrArg document.flatMap (funext seen)

end Observer

/-! ## The order of the document -/

/-- What is seen in a definition, in the order in which its parts are written. The fields of object
values come in the order of their names. -/
def Definition.writtenSightings (schema : Schema) : Definition → List Sighting
  | .operation definition =>
      definition.variableSightings schema ++
        (definition.directiveSightings schema ++ definition.itemSightings schema)
  | .fragment definition => definition.sightings schema

/-- What is seen in a document, definition by definition in the order in which they are written. The
fields of object values come in the order of their names. -/
def Document.writtenSightings (schema : Schema) (document : Document) : List Sighting :=
  document.flatMap (Definition.writtenSightings schema)

/-- **The order is that of the document**, with the fields of object values in the order of their
names, if no operation has variables and directives with arguments both. -/
theorem Document.sightings_eq_writtenSightings {document : Document}
    (apart : ∀ operation, .operation operation ∈ document →
      operation.variableDefinitions = [] ∨
        ∀ directive ∈ operation.directives, directive.arguments = []) :
    document.sightings schema = document.writtenSightings schema := by
  refine List.flatMap_congr fun definition member => ?_
  cases definition with
  | operation operation =>
      rw [Definition.sightings, Definition.writtenSightings]
      rcases apart operation member with noVariables | noArguments
      · rw [OperationDefinition.variableSightings, noVariables, List.flatMap_nil,
          List.nil_append, List.nil_append]
      · have nothing : operation.directiveSightings schema = [] :=
          List.flatMap_eq_nil_iff.mpr fun directive isDirective => by
            rw [Directive.sightings, noArguments directive isDirective, List.flatMap_nil]
        rw [nothing, List.nil_append, List.nil_append]
  | fragment fragment => rfl

namespace Sample

/-- A directive on operations takes a level, and a field a color. -/
def logSchema : Schema :=
  ⟨[.directive ⟨"log", [⟨"level", .named "Level", none, none, []⟩]⟩,
    .type ⟨"Level", none, [], .enum [⟨"LOW", none, []⟩]⟩,
    .type ⟨"Color", none, [], .enum [⟨"RED", none, []⟩]⟩,
    .type ⟨"Query", none, [], .object []
      [⟨"paints", .named "Int", none, [⟨"color", .named "Color", none, none, []⟩], []⟩]⟩]⟩

/-- A query with a variable and a directive behind it. -/
def logQuery : OperationDefinition :=
  ⟨.query, some "Q", ⟨1, 1⟩, [⟨"color", .named "Color", none⟩],
    [⟨"log", [⟨"level", .enum "LOW"⟩], ⟨1, 25⟩⟩], ⟨⟨1, 42⟩, ⟨1, 69⟩⟩,
    [.field ⟨none, "paints", [⟨"color", .variable "color"⟩], [], ⟨1, 44⟩⟩ ⟨⟨0, 0⟩, ⟨0, 0⟩⟩ []]⟩

end Sample

/-- Whether a variable is seen. -/
def Sighting.isVariable : Sighting → Bool
  | .variable _ _ _ => true
  | .field _ _ _ | .argument _ _ _ | .objectField _ _ _ _ => false

namespace Observer

open Sample

/-- **The directives of an operation are visited before its variables**, although they are written
behind them. -/
theorem not_calls_as_written : ¬ ∃ calls : List Call,
    calls.map Call.sighting = Document.writtenSightings logSchema [.operation logQuery] ∧
      ∀ (σ : Type) (observer : Observer σ) (noted : σ),
        observer.visitDocument logSchema [.operation logQuery] ⟨TypeScopes.empty, noted⟩ =
          ⟨TypeScopes.empty, calls.foldl observer.answer noted⟩ := by
  rintro ⟨calls, seen, visited⟩
  let recorder : Observer (List Bool) :=
    ofStep (fun observation noted => noted ++ [observation.sighting.isVariable])
  have recorded : calls.foldl recorder.answer [] =
      (calls.map Call.sighting).map Sighting.isVariable := by
    rw [answer_ofStep, ← List.flatMap_eq_foldl, ← List.map_eq_flatMap, List.map_map]
    exact congrArg calls.map
      (funext fun call => congrArg Sighting.isVariable call.sighting_observation)
  have made := congrArg Visit.noted (visited _ recorder [])
  rw [recorded, seen] at made
  revert made
  decide +kernel

end Observer

end ResponseShape

import ResponseShape.Proofs.Observations

/-!
# Types that documents need

Which types of a schema documents need can be said without visiting anything: the types of their
variables, the declared types of the arguments that are supplied where they are declared, and the
enums that their fields give (`Document.Needs`). Fields are looked up on the scope in which they
stand (`Document.Stands`). From the types that are needed others are reached, because an input
object needs the types of its fields (`Schema.Reaches`).

A visit records no type that is not reached (`Document.sound_of_mem_observations`): what it meets
inside values is read at the types of fields of input objects that are reached, and where a value is
not of its type, nothing is recorded. Every type that is needed is recorded outside all object
values (`Document.Needs.exists_observation`).
-/

set_option autoImplicit false

namespace ResponseShape

/-! ## What documents need -/

namespace Document

/-- The selection stands in the scope, the type on which its fields are looked up: the root type of
the operation, the type of the condition of the fragment or inline fragment, or the named type of
the field around it. An inline fragment without a condition stays in its scope. Where the type is
not known there is none. -/
inductive Stands (schema : Schema) (documents : List Document) :
    Option TypeDefinition → Selection → Prop where
  | operation {document : Document} {operation : OperationDefinition} {selection : Selection} :
      document ∈ documents → .operation operation ∈ document → selection ∈ operation.items →
        Stands schema documents ((schema.rootName? operation.kind).bind schema.type?) selection
  | fragment {document : Document} {fragment : FragmentDefinition} {selection : Selection} :
      document ∈ documents → .fragment fragment ∈ document → selection ∈ fragment.items →
        Stands schema documents (schema.type? fragment.condition) selection
  | field {scope : Option TypeDefinition} {head : FieldHead} {span : Span}
      {items : List Selection} {selection : Selection} :
      Stands schema documents scope (.field head span items) → selection ∈ items →
        Stands schema documents
          (((scope.bind (fun scope => scope.field? head.name)).map
            (fun declaration => declaration.type.namedType)).bind schema.type?) selection
  | inline {scope : Option TypeDefinition} {condition : Option String}
      {directives : List Directive} {position : Position} {span : Span} {items : List Selection}
      {selection : Selection} :
      Stands schema documents scope (.inline condition directives position span items) →
        selection ∈ items →
        Stands schema documents (condition.elim scope schema.type?) selection

/-- The directive occurs in the documents: on an operation, on a fragment or on a selection. -/
inductive Carries (schema : Schema) (documents : List Document) : Directive → Prop where
  | operation {document : Document} {operation : OperationDefinition} {directive : Directive} :
      document ∈ documents → .operation operation ∈ document →
        directive ∈ operation.directives → Carries schema documents directive
  | fragment {document : Document} {fragment : FragmentDefinition} {directive : Directive} :
      document ∈ documents → .fragment fragment ∈ document →
        directive ∈ fragment.directives → Carries schema documents directive
  | selection {scope : Option TypeDefinition} {selection : Selection} {directive : Directive} :
      Stands schema documents scope selection → directive ∈ selection.directives →
        Carries schema documents directive

/-- The documents need the type: it is the type of a variable, the declared type of an argument of
a field of its scope or of a directive, or an enum that a field of its scope gives. -/
inductive Needs (schema : Schema) (documents : List Document) : TypeDefinition → Prop where
  | ofVariable {document : Document} {operation : OperationDefinition}
      {definition : VariableDefinition} {type : TypeDefinition} :
      document ∈ documents → .operation operation ∈ document →
        definition ∈ operation.variableDefinitions →
        schema.type? definition.type.namedType = some type → Needs schema documents type
  | ofArgument {scope type : TypeDefinition} {head : FieldHead} {span : Span}
      {items : List Selection} {declaration : FieldDefinition} {argument : Argument}
      {reference : TypeRef} :
      Stands schema documents (some scope) (.field head span items) →
        scope.field? head.name = some declaration → argument ∈ head.arguments →
        argument.declaredType? (some declaration.arguments) = some reference →
        schema.type? reference.namedType = some type → Needs schema documents type
  | ofDirective {directive : Directive} {declared : List InputValueDefinition} {argument : Argument}
      {reference : TypeRef} {type : TypeDefinition} :
      Carries schema documents directive →
        schema.directiveArguments? directive.name = some declared →
        argument ∈ directive.arguments →
        argument.declaredType? (some declared) = some reference →
        schema.type? reference.namedType = some type → Needs schema documents type
  | ofField {scope type : TypeDefinition} {head : FieldHead} {span : Span}
      {items : List Selection} {declaration : FieldDefinition} :
      Stands schema documents (some scope) (.field head span items) →
        scope.field? head.name = some declaration →
        schema.type? declaration.type.namedType = some type → type.kind = .enum →
        Needs schema documents type

theorem Needs.known {schema : Schema} {documents : List Document} {type : TypeDefinition}
    (needs : Needs schema documents type) : schema.type? type.name = some type := by
  cases needs with
  | ofVariable _ _ _ found => exact Schema.name_of_type? found ▸ found
  | ofArgument _ _ _ _ found => exact Schema.name_of_type? found ▸ found
  | ofDirective _ _ _ _ found => exact Schema.name_of_type? found ▸ found
  | ofField _ _ found _ => exact Schema.name_of_type? found ▸ found

end Document

/-- The type is reached from the roots: it is a root, or the type of a field of an input object that
is reached. -/
inductive Schema.Reaches (schema : Schema) (roots : TypeDefinition → Prop) :
    TypeDefinition → Prop where
  | root {type : TypeDefinition} : roots type → Reaches schema roots type
  | field {type other : TypeDefinition} {field : InputValueDefinition} :
      Reaches schema roots type → field ∈ type.inputFields →
        schema.type? field.type.namedType = some other → Reaches schema roots other

theorem Schema.Reaches.known {schema : Schema} {roots : TypeDefinition → Prop}
    {type : TypeDefinition} (reaches : schema.Reaches roots type)
    (known : ∀ root, roots root → schema.type? root.name = some root) :
    schema.type? type.name = some type := by
  cases reaches with
  | root isRoot => exact known type isRoot
  | field _ _ found => exact Schema.name_of_type? found ▸ found

/-! ## What is recorded of an observation -/

namespace Observation

/-- The type that is recorded: where input is read its type, at a field the enum that it gives. -/
def recorded? (observation : Observation) : Option TypeDefinition :=
  match observation.observed with
  | .variable _ | .argument _ | .objectField _ _ => observation.scope.input
  | .field _ => observation.scope.type.filter (fun type => type.kind == .enum)

/-- The type that is recorded when object values are not looked into. -/
def outlined? (observation : Observation) : Option TypeDefinition :=
  match observation.observed with
  | .objectField _ _ => none
  | .variable _ | .argument _ | .field _ => observation.recorded?

/-- What is recorded is reached. -/
def Sound (schema : Schema) (roots : TypeDefinition → Prop) (observation : Observation) : Prop :=
  ∀ type, observation.recorded? = some type → schema.Reaches roots type

end Observation

/-! ## What a visit records is reached -/

theorem TypeRef.namedType_of_item? {reference item : TypeRef}
    (isItem : reference.item? = some item) : item.namedType = reference.namedType := by
  induction reference with
  | named _ => cases isItem
  | list _ _ => rw [Option.some.inj isItem, namedType]
  | nonNull _ ih => exact ih isItem

section Sound

variable {schema : Schema} {roots : TypeDefinition → Prop}

/-- Input is read at a type that is reached, and that the written type names. -/
structure Scope.ReadsReached (schema : Schema) (roots : TypeDefinition → Prop) (scope : Scope) :
    Prop where
  resolved : scope.input = scope.literal.bind (fun reference => schema.type? reference.namedType)
  reached : ∀ type, scope.input = some type → schema.Reaches roots type

namespace Scope.ReadsReached

variable {scope : Scope}

theorem reading (scope : Scope) {reference : Option TypeRef}
    (reached : ∀ written type, reference = some written →
      schema.type? written.namedType = some type → schema.Reaches roots type) :
    (scope.reading schema reference).ReadsReached schema roots := by
  refine ⟨rfl, fun type found => ?_⟩
  obtain ⟨written, same, found⟩ := Option.bind_eq_some_iff.mp found
  exact reached written type same found

/-- Items of a list are read at the named type of the list. -/
theorem item (reads : scope.ReadsReached schema roots) :
    (scope.reading schema (scope.literal.bind TypeRef.item?)).ReadsReached schema roots := by
  refine reading scope fun written type same found => reads.reached type ?_
  obtain ⟨list, literal, isItem⟩ := Option.bind_eq_some_iff.mp same
  rw [reads.resolved, literal, Option.bind_some, ← TypeRef.namedType_of_item? isItem, found]

/-- Fields of an object value are read at the types of the input object's fields. -/
theorem field (reads : scope.ReadsReached schema roots) (name : String) :
    (scope.reading schema ((scope.input.bind (fun type => type.inputField? name)).map
      InputValueDefinition.type)).ReadsReached schema roots := by
  refine reading scope fun written type same found => ?_
  obtain ⟨declaration, declared, rfl⟩ := Option.map_eq_some_iff.mp same
  obtain ⟨input, isInput, isField⟩ := Option.bind_eq_some_iff.mp declared
  exact .field (reads.reached input isInput) (List.mem_of_find?_eq_some isField) found

end Scope.ReadsReached

mutual

theorem Value.sound_observations : ∀ (value : Value) (scope : Scope),
    scope.ReadsReached schema roots →
      ∀ observation ∈ value.observations schema scope, observation.Sound schema roots
  | .list items, scope, reads => by
      rw [observations]
      exact sound_itemsObservations items _ reads.item
  | .object fields, scope, reads => by
      rw [observations]
      exact sound_fieldsObservations fields scope reads
  | .null, _, _ | .variable _, _, _ | .int _, _, _ | .float _, _, _ | .string _, _, _
  | .boolean _, _, _ | .enum _, _, _ => by
      rw [observations]
      exact fun _ => nofun

theorem Value.sound_itemsObservations : ∀ (items : List Value) (scope : Scope),
    scope.ReadsReached schema roots →
      ∀ observation ∈ itemsObservations schema scope items, observation.Sound schema roots
  | [], _, _ => by
      rw [itemsObservations]
      exact fun _ => nofun
  | item :: rest, scope, reads => by
      rw [itemsObservations]
      refine List.forall_mem_append.mpr ⟨?_, ?_⟩
      · exact sound_observations item scope reads
      · exact sound_itemsObservations rest scope reads

theorem Value.sound_fieldsObservations : ∀ (fields : List (String × Value)) (scope : Scope),
    scope.ReadsReached schema roots →
      ∀ observation ∈ fieldsObservations schema scope fields, observation.Sound schema roots
  | [], _, _ => by
      rw [fieldsObservations]
      exact fun _ => nofun
  | (name, value) :: rest, scope, reads => by
      rw [fieldsObservations]
      have here := reads.field name
      refine List.forall_mem_append.mpr ⟨List.forall_mem_cons.mpr ⟨here.reached, ?_⟩, ?_⟩
      · exact sound_observations value _ here
      · exact sound_fieldsObservations rest scope reads

end

/-- Arguments are read at the types that are declared for them. -/
theorem Argument.sound_observations {declared : Option (List InputValueDefinition)}
    {argument : Argument} (scope : Scope)
    (reached : ∀ reference type, argument.declaredType? declared = some reference →
      schema.type? reference.namedType = some type → roots type) :
    ∀ observation ∈ argument.observations schema declared scope,
      observation.Sound schema roots := by
  have reads : (scope.reading schema (argument.declaredType? declared)).ReadsReached schema roots :=
    .reading scope fun written type same found => .root (reached written type same found)
  exact List.forall_mem_cons.mpr ⟨reads.reached, argument.value.sound_observations _ reads⟩

end Sound

namespace Document

variable {schema : Schema} {documents : List Document}

theorem sound_of_mem_directive {directive : Directive} (carries : Carries schema documents directive)
    (scope : Scope) : ∀ observation ∈ directive.observations schema scope,
      observation.Sound schema (Needs schema documents) := by
  refine List.forall_mem_flatMap.mpr fun argument isArgument =>
    argument.sound_observations scope fun reference type declaredType found => ?_
  cases declared : schema.directiveArguments? directive.name with
  | none =>
      rw [declared] at declaredType
      cases declaredType
  | some arguments =>
      rw [declared] at declaredType
      exact .ofDirective carries declared isArgument declaredType found

theorem sound_of_mem_directives {directives : List Directive}
    (carries : ∀ directive ∈ directives, Carries schema documents directive) (scope : Scope) :
    ∀ observation ∈ directives.flatMap (Directive.observations schema scope),
      observation.Sound schema (Needs schema documents) :=
  List.forall_mem_flatMap.mpr fun directive isDirective =>
    sound_of_mem_directive (carries directive isDirective) scope

theorem sound_of_mem_variable {document : Document} {operation : OperationDefinition}
    (isDocument : document ∈ documents) (isOperation : .operation operation ∈ document)
    {definition : VariableDefinition} (isVariable : definition ∈ operation.variableDefinitions)
    (scope : Scope) : ∀ observation ∈ definition.observations schema scope,
      observation.Sound schema (Needs schema documents) := by
  have reads : (scope.reading schema (some definition.type)).ReadsReached schema
      (Needs schema documents) := by
    refine .reading scope fun written type same found => ?_
    obtain rfl := Option.some.inj same
    exact .root (.ofVariable isDocument isOperation isVariable found)
  refine List.forall_mem_cons.mpr ⟨reads.reached, ?_⟩
  cases definition.default? with
  | none => exact fun _ => nofun
  | some value => exact value.sound_observations _ reads

/-- At a field an enum is recorded when the field of the scope gives it. -/
theorem sound_field {scope : Scope} {head : FieldHead} {span : Span} {items : List Selection}
    (stands : Stands schema documents scope.parent (.field head span items))
    {type : TypeDefinition}
    (found : (scope.inField schema head).type = some type)
    (kind : type.kind = .enum) : Needs schema documents type := by
  obtain ⟨name, mapped, found⟩ := Option.bind_eq_some_iff.mp found
  obtain ⟨declaration, declared, rfl⟩ := Option.map_eq_some_iff.mp mapped
  obtain ⟨parent, isParent, declared⟩ := Option.bind_eq_some_iff.mp declared
  rw [isParent] at stands
  exact .ofField stands declared found kind

theorem sound_of_mem_arguments {scope : Scope} {head : FieldHead} {span : Span}
    {items : List Selection}
    (stands : Stands schema documents scope.parent (.field head span items)) (inside : Scope) :
    ∀ observation ∈ head.arguments.flatMap (Argument.observations schema
        ((scope.declaration? head).map FieldDefinition.arguments) inside),
      observation.Sound schema (Needs schema documents) := by
  refine List.forall_mem_flatMap.mpr fun argument isArgument =>
    argument.sound_observations inside fun reference type declaredType found => ?_
  cases declared : scope.declaration? head with
  | none =>
      rw [declared] at declaredType
      cases declaredType
  | some declaration =>
      rw [declared] at declaredType
      obtain ⟨parent, isParent, declared⟩ := Option.bind_eq_some_iff.mp declared
      rw [isParent] at stands
      exact .ofArgument stands declared isArgument declaredType found

mutual

/-- **What is met in a selection is recorded at reached types.** -/
theorem sound_of_mem_selection : ∀ (selection : Selection) (scope : Scope),
    scope.type = scope.parent → Stands schema documents scope.parent selection →
      ∀ observation ∈ selection.observations schema scope,
        observation.Sound schema (Needs schema documents)
  | .field head span items, scope, _, stands => by
      rw [Selection.observations]
      have inDirectives := sound_of_mem_directives
        (fun directive isDirective => .selection stands isDirective) (scope.inField schema head)
      have inItems := sound_of_mem_selections items (scope.inField schema head).selecting rfl
        (fun selection isItem => .field stands isItem)
      refine List.forall_mem_cons.mpr ⟨fun type recorded => ?_, List.forall_mem_append.mpr
        ⟨sound_of_mem_arguments stands _, List.forall_mem_append.mpr ⟨inDirectives, inItems⟩⟩⟩
      obtain ⟨found, kind⟩ := Option.filter_eq_some_iff.mp recorded
      exact .root (sound_field stands found (beq_iff_eq.mp kind))
  | .spread name directives position, scope, _, stands => by
      rw [Selection.observations]
      exact sound_of_mem_directives (fun directive isDirective => .selection stands isDirective) _
  | .inline condition directives position span items, scope, same, stands => by
      rw [Selection.observations]
      refine List.forall_mem_append.mpr ⟨?_, ?_⟩
      · exact sound_of_mem_directives (fun directive isDirective =>
          .selection stands isDirective) _
      · refine sound_of_mem_selections items _ rfl fun selection isItem => ?_
        have inside := Stands.inline stands isItem
        rw [← same] at inside
        exact inside

theorem sound_of_mem_selections : ∀ (items : List Selection) (scope : Scope),
    scope.type = scope.parent →
      (∀ selection ∈ items, Stands schema documents scope.parent selection) →
      ∀ observation ∈ Selection.listObservations schema scope items,
        observation.Sound schema (Needs schema documents)
  | [], _, _, _ => by
      rw [Selection.listObservations]
      exact fun _ => nofun
  | selection :: rest, scope, same, stands => by
      rw [Selection.listObservations]
      obtain ⟨here, later⟩ := List.forall_mem_cons.mp stands
      refine List.forall_mem_append.mpr ⟨?_, ?_⟩
      · exact sound_of_mem_selection selection scope same here
      · exact sound_of_mem_selections rest scope same later

end

/-- **What a visit records is reached from what the documents need.** -/
theorem sound_of_mem_observations {document : Document} (isDocument : document ∈ documents) :
    ∀ observation ∈ document.observations schema,
      observation.Sound schema (Needs schema documents) := by
  refine List.forall_mem_flatMap.mpr fun definition isDefinition => ?_
  cases definition with
  | operation operation =>
      refine List.forall_mem_append.mpr ⟨?_, List.forall_mem_append.mpr ⟨?_, ?_⟩⟩
      · exact sound_of_mem_directives (fun directive isDirective =>
          .operation isDocument isDefinition isDirective) _
      · exact List.forall_mem_flatMap.mpr fun definition isVariable =>
          sound_of_mem_variable isDocument isDefinition isVariable _
      · exact sound_of_mem_selections operation.items _ rfl fun selection isItem =>
          .operation isDocument isDefinition isItem
  | fragment fragment =>
      refine List.forall_mem_append.mpr ⟨?_, ?_⟩
      · exact sound_of_mem_directives (fun directive isDirective =>
          .fragment isDocument isDefinition isDirective) _
      · exact sound_of_mem_selections fragment.items _ rfl fun selection isItem =>
          .fragment isDocument isDefinition isItem

/-! ## What documents need is recorded -/

/-- The observations are made in the documents. -/
def Observes (schema : Schema) (documents : List Document) (observations : List Observation) :
    Prop :=
  ∀ observation ∈ observations, observation ∈ documents.flatMap (Document.observations schema)

theorem observes_definition {document : Document} {definition : Definition}
    (isDocument : document ∈ documents) (isDefinition : definition ∈ document) :
    Observes schema documents (definition.observations schema) := fun _ member =>
  List.mem_flatMap.mpr ⟨document, isDocument,
    List.mem_flatMap.mpr ⟨definition, isDefinition, member⟩⟩

theorem mem_listObservations {scope : Scope} {items : List Selection} {selection : Selection}
    (isItem : selection ∈ items) {observation : Observation}
    (member : observation ∈ selection.observations schema scope) :
    observation ∈ Selection.listObservations schema scope items := by
  induction items with
  | nil => cases isItem
  | cons first rest ih =>
      rw [Selection.listObservations]
      rcases List.mem_cons.mp isItem with rfl | later
      · exact List.mem_append_left _ member
      · exact List.mem_append_right _ (ih later)

/-- **Every selection is met in the scope in which it stands.** -/
theorem Stands.exists_observes {scope : Option TypeDefinition} {selection : Selection}
    (stands : Stands schema documents scope selection) :
    ∃ inside : Scope, inside.type = scope ∧ inside.parent = scope ∧
      Observes schema documents (selection.observations schema inside) := by
  induction stands with
  | @operation _ operation _ isDocument isDefinition isItem =>
      refine ⟨(Scope.ofName schema (schema.rootName? operation.kind)).selecting, rfl, rfl,
        fun observation member => ?_⟩
      refine observes_definition isDocument isDefinition observation ?_
      exact List.mem_append_right _ (List.mem_append_right _ (mem_listObservations isItem member))
  | @fragment _ fragment _ isDocument isDefinition isItem =>
      refine ⟨(Scope.ofName schema (some fragment.condition)).selecting, rfl, rfl,
        fun observation member => ?_⟩
      refine observes_definition isDocument isDefinition observation ?_
      exact List.mem_append_right _ (mem_listObservations isItem member)
  | @field _ head _ _ _ _ isItem ih =>
      obtain ⟨outside, _, rfl, observes⟩ := ih
      rw [Selection.observations] at observes
      refine ⟨(outside.inField schema head).selecting, rfl, rfl,
        fun observation member => observes observation ?_⟩
      refine List.mem_cons_of_mem _ (List.mem_append_right _ (List.mem_append_right _ ?_))
      exact mem_listObservations isItem member
  | @inline _ condition _ _ _ _ _ _ isItem ih =>
      obtain ⟨outside, rfl, _, observes⟩ := ih
      rw [Selection.observations] at observes
      refine ⟨(outside.inFragment schema condition).selecting, rfl, rfl,
        fun observation member => observes observation ?_⟩
      exact List.mem_append_right _ (mem_listObservations isItem member)

/-- Every directive is met somewhere. -/
theorem Carries.exists_observes {directive : Directive}
    (carries : Carries schema documents directive) :
    ∃ inside : Scope, Observes schema documents (directive.observations schema inside) := by
  have among : ∀ {directives : List Directive} {inside : Scope} {observation : Observation},
      directive ∈ directives → observation ∈ directive.observations schema inside →
        observation ∈ directives.flatMap (Directive.observations schema inside) :=
    fun isDirective member => List.mem_flatMap.mpr ⟨directive, isDirective, member⟩
  cases carries with
  | @operation _ operation _ isDocument isDefinition isDirective =>
      refine ⟨Scope.ofName schema (schema.rootName? operation.kind), fun observation member => ?_⟩
      refine observes_definition isDocument isDefinition observation ?_
      exact List.mem_append_left _ (among isDirective member)
  | @fragment _ fragment _ isDocument isDefinition isDirective =>
      refine ⟨Scope.ofName schema (some fragment.condition), fun observation member => ?_⟩
      refine observes_definition isDocument isDefinition observation ?_
      exact List.mem_append_left _ (among isDirective member)
  | @selection _ selection _ stands isDirective =>
      obtain ⟨outside, _, _, observes⟩ := stands.exists_observes
      cases selection with
      | field head span items =>
          rw [Selection.observations] at observes
          refine ⟨outside.inField schema head, fun observation member => observes observation ?_⟩
          refine List.mem_cons_of_mem _ (List.mem_append_right _ (List.mem_append_left _ ?_))
          exact among isDirective member
      | spread name directives position =>
          rw [Selection.observations] at observes
          exact ⟨outside, fun observation member =>
            observes observation (among isDirective member)⟩
      | inline condition directives position span items =>
          rw [Selection.observations] at observes
          refine ⟨outside.inFragment schema condition,
            fun observation member => observes observation ?_⟩
          exact List.mem_append_left _ (among isDirective member)

theorem outlined?_argument {argument : Argument} {declared : Option (List InputValueDefinition)}
    {reference : TypeRef} {type : TypeDefinition} (scope : Scope)
    (declaredType : argument.declaredType? declared = some reference)
    (found : schema.type? reference.namedType = some type) :
    ∃ observation ∈ argument.observations schema declared scope,
      observation.outlined? = some type := by
  refine ⟨_, List.mem_cons_self, ?_⟩
  change (argument.declaredType? declared).bind (fun reference => schema.type? reference.namedType) =
    some type
  rw [declaredType, Option.bind_some, found]

/-- **What documents need is recorded**, and not only inside object values. -/
theorem Needs.exists_observation {type : TypeDefinition} (needs : Needs schema documents type) :
    ∃ observation ∈ documents.flatMap (Document.observations schema),
      observation.outlined? = some type := by
  cases needs with
  | @ofVariable _ operation definition _ isDocument isDefinition isVariable found =>
      have observes : Observes schema documents
          (Definition.observations schema (.operation operation)) :=
        observes_definition isDocument isDefinition
      have inside : definition.observations schema
          (Scope.ofName schema (schema.rootName? operation.kind)) ⊆
            Definition.observations schema (.operation operation) := fun observation member =>
        List.mem_append_right _ (List.mem_append_left _
          (List.mem_flatMap.mpr ⟨definition, isVariable, member⟩))
      exact ⟨_, observes _ (inside List.mem_cons_self), found⟩
  | @ofArgument scope _ head _ _ declaration argument _ stands declared isArgument declaredType
      found =>
      obtain ⟨outside, _, isParent, observes⟩ := stands.exists_observes
      have isDeclared : outside.declaration? head = some declaration := by
        rw [Scope.declaration?, isParent, Option.bind_some, declared]
      rw [Selection.observations, isDeclared, Option.map_some] at observes
      obtain ⟨observation, member, outlined⟩ :=
        outlined?_argument (outside.inField schema head) declaredType found
      refine ⟨observation, observes observation ?_, outlined⟩
      refine List.mem_cons_of_mem _ (List.mem_append_left _ ?_)
      exact List.mem_flatMap.mpr ⟨argument, isArgument, member⟩
  | @ofDirective directive _ argument _ _ carries declared isArgument declaredType found =>
      obtain ⟨inside, observes⟩ := carries.exists_observes
      rw [Directive.observations, declared] at observes
      obtain ⟨observation, member, outlined⟩ := outlined?_argument inside declaredType found
      refine ⟨observation, observes observation ?_, outlined⟩
      exact List.mem_flatMap.mpr ⟨argument, isArgument, member⟩
  | @ofField scope _ head _ _ _ stands declared found kind =>
      obtain ⟨outside, _, isParent, observes⟩ := stands.exists_observes
      have gives : (outside.inField schema head).type = some type := by
        rw [Scope.inField, Scope.declaration?, isParent, Option.bind_some, declared]
        exact found
      rw [Selection.observations] at observes
      refine ⟨_, observes _ List.mem_cons_self, ?_⟩
      exact Option.filter_eq_some_iff.mpr ⟨gives, beq_iff_eq.mpr kind⟩

end Document

end ResponseShape

import ResponseShape.Visit.Scopes

/-!
# Visiting documents

A visit goes through a document from its beginning to its end and reports variables, arguments,
fields and the fields of object values to an observer, together with the types in effect there. The
observer notes what it wants; it cannot change the visit.

Definitions, selections, arguments and the items of lists are visited in the order in which they are
written. The fields of an object value are visited in the order of their names, in which object
values keep them, and the directives of an operation before its variables.

A field is looked up on the type of the selection set around it. The fields of a fragment belong
to the type of its condition; an inline fragment without a condition stays at the present type.
Arguments are read at the types that the field or the directive declares for them, items of a
list at the item type of the list, fields of an object value at the types of the input object's
fields. Spreads are not followed: fragments are visited where they are defined.
-/

set_option autoImplicit false

namespace ResponseShape

/-- What is noted at the places of a document, given the types in effect. -/
structure Observer (σ : Type) where
  onVariable : VariableDefinition → TypeScopes → σ → σ
  onArgument : Argument → TypeScopes → σ → σ
  onField : FieldNode → TypeScopes → σ → σ
  onObjectField : String → Value → TypeScopes → σ → σ

namespace Observer

variable {σ : Type}

/-! ## Input values -/

mutual

/-- Visits an input value. -/
def visitValue (observer : Observer σ) (schema : Schema) : Value → Visit σ → Visit σ
  | .list items, visit =>
      visit.withInput schema (visit.scopes.literal?.bind TypeRef.item?)
        (fun inside => visitItems observer schema items inside)
  | .object fields, visit => visitFields observer schema fields visit
  | .null, visit => visit
  | .variable _, visit => visit
  | .int _, visit => visit
  | .float _, visit => visit
  | .string _, visit => visit
  | .boolean _, visit => visit
  | .enum _, visit => visit

/-- Visits the items of a list. -/
def visitItems (observer : Observer σ) (schema : Schema) : List Value → Visit σ → Visit σ
  | [], visit => visit
  | item :: rest, visit =>
      visitItems observer schema rest (visitValue observer schema item visit)

/-- Visits the fields of an object value, in the order of their names. -/
def visitFields (observer : Observer σ) (schema : Schema) :
    List (String × Value) → Visit σ → Visit σ
  | [], visit => visit
  | (name, value) :: rest, visit =>
      let type := (visit.scopes.input?.bind (fun type => type.inputField? name)).map
        InputValueDefinition.type
      visitFields observer schema rest
        (visit.withInput schema type
          (fun inside =>
            visitValue observer schema value (inside.note (observer.onObjectField name value))))

end

/-! ## Arguments, directives and variables -/

/-- Visits an argument, given the declared arguments. -/
def visitArgument (observer : Observer σ) (schema : Schema)
    (declared : Option (List InputValueDefinition)) (argument : Argument) (visit : Visit σ) :
    Visit σ :=
  let definition := declared.bind
    (fun definitions => definitions.find? (fun definition => definition.name == argument.name))
  visit.withInput schema (definition.map InputValueDefinition.type)
    (fun inside =>
      observer.visitValue schema argument.value (inside.note (observer.onArgument argument)))

/-- Visits arguments in turn. -/
def visitArguments (observer : Observer σ) (schema : Schema)
    (declared : Option (List InputValueDefinition)) (arguments : List Argument)
    (visit : Visit σ) : Visit σ :=
  arguments.foldl (fun visit argument => observer.visitArgument schema declared argument visit)
    visit

/-- Visits the arguments of directives. -/
def visitDirectives (observer : Observer σ) (schema : Schema) (directives : List Directive)
    (visit : Visit σ) : Visit σ :=
  directives.foldl
    (fun visit directive =>
      observer.visitArguments schema (schema.directiveArguments? directive.name)
        directive.arguments visit)
    visit

/-- Visits a variable and its default value. -/
def visitVariable (observer : Observer σ) (schema : Schema) (definition : VariableDefinition)
    (visit : Visit σ) : Visit σ :=
  visit.withInput schema (some definition.type)
    (fun inside =>
      let inside := inside.note (observer.onVariable definition)
      match definition.default? with
      | none => inside
      | some value => observer.visitValue schema value inside)

/-- Visits variables in turn. -/
def visitVariables (observer : Observer σ) (schema : Schema)
    (definitions : List VariableDefinition) (visit : Visit σ) : Visit σ :=
  definitions.foldl (fun visit definition => observer.visitVariable schema definition visit)
    visit

/-! ## Selections -/

mutual

/-- Visits a selection. -/
def visitSelection (observer : Observer σ) (schema : Schema) : Selection → Visit σ → Visit σ
  | .field head span items, visit =>
      let definition := visit.scopes.parent?.bind (fun parent => parent.field? head.name)
      visit.withType schema (definition.map (fun field => field.type.namedType))
        (fun inside =>
          let inside := inside.note (observer.onField ⟨head, span, items⟩)
          let inside := observer.visitArguments schema
            (definition.map FieldDefinition.arguments) head.arguments inside
          let inside := observer.visitDirectives schema head.directives inside
          inside.withParent (fun within => visitSelections observer schema items within))
  | .spread _ directives _, visit => observer.visitDirectives schema directives visit
  | .inline condition directives _ _ items, visit =>
      let name :=
        match condition with
        | some name => some name
        | none => visit.scopes.type?.map TypeDefinition.name
      visit.withType schema name
        (fun inside =>
          let inside := observer.visitDirectives schema directives inside
          inside.withParent (fun within => visitSelections observer schema items within))

/-- Visits selections in turn. -/
def visitSelections (observer : Observer σ) (schema : Schema) :
    List Selection → Visit σ → Visit σ
  | [], visit => visit
  | selection :: rest, visit =>
      visitSelections observer schema rest (visitSelection observer schema selection visit)

end

/-! ## Definitions -/

/-- Visits an operation, at the root type of its kind. -/
def visitOperation (observer : Observer σ) (schema : Schema)
    (operation : OperationDefinition) (visit : Visit σ) : Visit σ :=
  visit.withType schema (schema.rootName? operation.kind)
    (fun inside =>
      let inside := observer.visitDirectives schema operation.directives inside
      let inside := observer.visitVariables schema operation.variableDefinitions inside
      inside.withParent (fun within => observer.visitSelections schema operation.items within))

/-- Visits a fragment, at the type of its condition. -/
def visitFragment (observer : Observer σ) (schema : Schema) (fragment : FragmentDefinition)
    (visit : Visit σ) : Visit σ :=
  visit.withType schema (some fragment.condition)
    (fun inside =>
      let inside := observer.visitDirectives schema fragment.directives inside
      inside.withParent (fun within => observer.visitSelections schema fragment.items within))

/-- Visits a definition. -/
def visitDefinition (observer : Observer σ) (schema : Schema) :
    Definition → Visit σ → Visit σ
  | .operation operation, visit => observer.visitOperation schema operation visit
  | .fragment fragment, visit => observer.visitFragment schema fragment visit

/-- Visits the definitions of a document in turn. -/
def visitDocument (observer : Observer σ) (schema : Schema) (document : Document)
    (visit : Visit σ) : Visit σ :=
  document.foldl (fun visit definition => observer.visitDefinition schema definition visit)
    visit

/-- What is noted in a document that is visited on its own, after `noted` was noted before. -/
def notesOn (observer : Observer σ) (schema : Schema) (noted : σ) (document : Document) : σ :=
  (observer.visitDocument schema document ⟨TypeScopes.empty, noted⟩).noted

end Observer

end ResponseShape

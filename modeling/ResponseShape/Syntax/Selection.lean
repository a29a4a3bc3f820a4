import ResponseShape.Syntax.Position
import ResponseShape.Syntax.Value

/-!
# Selections

What an operation or a fragment asks for: fields, spreads of named fragments and inline
fragments, nested to any depth. A field node is the part of a field that is carried along once
the field has been selected, its own selections included.

Nodes are compared as wholes (`FieldNode.equals`): names, arguments and directives in their
order, positions, spans and everything below take part.
-/

set_option autoImplicit false

namespace ResponseShape

/-- A directive on a part of a document or of a schema. -/
structure Directive where
  name : String
  arguments : List Argument
  position : Position

namespace Directive

/-- Equality of directives as they are written. -/
def equals (left right : Directive) : Bool :=
  left.name == right.name && Argument.listEquals left.arguments right.arguments &&
    left.position == right.position

/-- Equality of directive lists, directive by directive in their order. -/
def listEquals : List Directive → List Directive → Bool
  | [], [] => true
  | left :: lefts, right :: rights => left.equals right && listEquals lefts rights
  | _, _ => false

/-- The truth value that the directive gives literally for its first argument `if`. -/
def literalCondition? (directive : Directive) : Option Bool :=
  (directive.arguments.find? (fun argument => argument.name == "if")).bind
    (fun argument => argument.value.literalBool?)

/-- Whether the directive removes its selection whatever the variables are: a literally true
`@skip` or a literally false `@include`. -/
def excludes (directive : Directive) : Bool :=
  (directive.name == "skip" && directive.literalCondition? == some true) ||
    (directive.name == "include" && directive.literalCondition? == some false)

end Directive

/-- Whether one of the directives removes the selection that carries them. Conditions given as
variables are left to the time the operation is run. -/
def isExcluded (directives : List Directive) : Bool :=
  directives.any Directive.excludes

/-- What is written of a field before its own selections. -/
structure FieldHead where
  responseAlias : Option String
  name : String
  arguments : List Argument
  directives : List Directive
  position : Position

namespace FieldHead

/-- The key under which the field's value is found in the response. -/
def responseName (head : FieldHead) : String :=
  head.responseAlias.getD head.name

/-- Equality of field heads as they are written. -/
def equals (left right : FieldHead) : Bool :=
  left.responseAlias == right.responseAlias && left.name == right.name &&
    Argument.listEquals left.arguments right.arguments &&
    Directive.listEquals left.directives right.directives && left.position == right.position

end FieldHead

/-- One item of a selection set. -/
inductive Selection where
  | field (head : FieldHead) (span : Span) (items : List Selection)
  | spread (fragment : String) (directives : List Directive) (position : Position)
  | inline (condition : Option String) (directives : List Directive) (position : Position)
      (span : Span) (items : List Selection)

namespace Selection

mutual

/-- Equality of selections as they are written. -/
def equals : Selection → Selection → Bool
  | field leftHead leftSpan leftItems, field rightHead rightSpan rightItems =>
      leftHead.equals rightHead && leftSpan == rightSpan && listEquals leftItems rightItems
  | spread leftName leftDirectives leftPosition,
      spread rightName rightDirectives rightPosition =>
      leftName == rightName && Directive.listEquals leftDirectives rightDirectives &&
        leftPosition == rightPosition
  | inline leftCondition leftDirectives leftPosition leftSpan leftItems,
      inline rightCondition rightDirectives rightPosition rightSpan rightItems =>
      leftCondition == rightCondition && Directive.listEquals leftDirectives rightDirectives &&
        leftPosition == rightPosition && leftSpan == rightSpan && listEquals leftItems rightItems
  | _, _ => false

/-- Equality of lists of selections, item by item in their order. -/
def listEquals : List Selection → List Selection → Bool
  | [], [] => true
  | left :: lefts, right :: rights => left.equals right && listEquals lefts rights
  | _, _ => false

end

mutual

/-- The number of nodes of a selection, itself included. -/
def size : Selection → Nat
  | field _ _ items => listSize items + 1
  | spread _ _ _ => 1
  | inline _ _ _ _ items => listSize items + 1

/-- The number of nodes of a list of selections. -/
def listSize : List Selection → Nat
  | [] => 0
  | selection :: rest => selection.size + listSize rest

end

mutual

/-- How many fields stand inside each other at most, spreads not followed. -/
def fieldDepth : Selection → Nat
  | field _ _ items => listFieldDepth items + 1
  | spread _ _ _ => 0
  | inline _ _ _ _ items => listFieldDepth items

/-- How many fields of a list of selections stand inside each other at most. -/
def listFieldDepth : List Selection → Nat
  | [] => 0
  | selection :: rest => max selection.fieldDepth (listFieldDepth rest)

end

end Selection

/-- A selected field together with its own selections. -/
structure FieldNode where
  head : FieldHead
  span : Span
  items : List Selection

namespace FieldNode

/-- The key under which the field's value is found in the response. -/
def responseName (node : FieldNode) : String :=
  node.head.responseName

/-- Where the field was written. -/
def position (node : FieldNode) : Position :=
  node.head.position

/-- Equality of field nodes, everything below them included. -/
def equals (left right : FieldNode) : Bool :=
  left.head.equals right.head && left.span == right.span &&
    Selection.listEquals left.items right.items

end FieldNode

end ResponseShape

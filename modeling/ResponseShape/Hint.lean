import ResponseShape.Error

/-!
# Directives that shape models

A schema steers the models built from it by three directives. `@rename(name:)` gives the name to
use for a type, an enum value or an input field, `@serializationType(name:)` the representation
of an enum in transport, and `@enumValue(value:)` the literal of an enum value. Each may stand
at most once on one element and needs its string argument.
-/

set_option autoImplicit false

namespace ResponseShape

/-- A directive that shapes models. -/
inductive Hint where
  | rename
  | serializationType
  | enumValue
  deriving DecidableEq

namespace Hint

/-- The name of the directive. -/
def name : Hint → String
  | rename => "rename"
  | serializationType => "serializationType"
  | enumValue => "enumValue"

/-- The name of the directive's string argument. -/
def argument : Hint → String
  | rename | serializationType => "name"
  | enumValue => "value"

/-- The one directive of this name among the directives of an element. `location` says in words
which element it is. -/
def find? (hint : Hint) (directives : List Directive) (location : String) :
    Outcome (Option Directive) :=
  match directives.filter (fun directive => directive.name == hint.name) with
  | [] => .ok none
  | [directive] => .ok (some directive)
  | _ :: _ :: _ => .error (.duplicateDirective hint.name location)

/-- The first string given for the directive's argument. -/
def textOf? (hint : Hint) (directive : Directive) : Option String :=
  directive.arguments.findSome? fun argument =>
    match argument.value with
    | .string text => if argument.name == hint.argument then some text else none
    | _ => none

/-- The string that the directive gives to the element, if the directive is there. -/
def read (hint : Hint) (directives : List Directive) (location : String) :
    Outcome (Option String) := do
  match ← hint.find? directives location with
  | none => return none
  | some directive =>
      match hint.textOf? directive with
      | some text => return some text
      | none => throw (.invalidDirectiveArgument hint.name hint.argument location)

end Hint

end ResponseShape

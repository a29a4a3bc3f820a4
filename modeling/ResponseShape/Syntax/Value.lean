import ResponseShape.Syntax.Binary64

/-!
# Input values

The values that documents and schemas write for arguments, defaults and directives. The fields
of an object value are kept in the order of their names, one field a name
(`Value.ofFields`), so two objects that write the same fields in another order are the same
value.

`Value.equals` compares values as the program compares them, which differs from equality of the
data in one place: a float that is no number equals nothing, not even itself.
-/

set_option autoImplicit false

namespace ResponseShape

/-- An input value. -/
inductive Value where
  | null
  | variable (name : String)
  | int (number : Int)
  | float (number : Binary64)
  | string (text : String)
  | boolean (value : Bool)
  | enum (name : String)
  | list (items : List Value)
  | object (fields : List (String × Value))

namespace Value

/-- Puts a field among fields that stand in the order of their names. A field of the same name
is replaced. -/
def insertField (name : String) (value : Value) :
    List (String × Value) → List (String × Value)
  | [] => [(name, value)]
  | (other, otherValue) :: rest =>
      if name < other then (name, value) :: (other, otherValue) :: rest
      else if name = other then (name, value) :: rest
      else (other, otherValue) :: insertField name value rest

/-- The object with the given fields. Of several fields of one name the last counts. -/
def ofFields (fields : List (String × Value)) : Value :=
  object (fields.foldl (fun sorted field => insertField field.1 field.2 sorted) [])

/-- The truth value that is written literally, if one is. -/
def literalBool? : Value → Option Bool
  | boolean value => some value
  | _ => none

mutual

/-- Equality of values: the same kind and the same content, numbers compared as numbers. -/
def equals : Value → Value → Bool
  | .null, .null => true
  | .variable left, .variable right => left == right
  | .int left, .int right => left == right
  | .float left, .float right => left.equals right
  | .string left, .string right => left == right
  | .boolean left, .boolean right => left == right
  | .enum left, .enum right => left == right
  | .list left, .list right => itemsEqual left right
  | .object left, .object right => fieldsEqual left right
  | _, _ => false

/-- Equality of lists of values, item by item. -/
def itemsEqual : List Value → List Value → Bool
  | [], [] => true
  | left :: lefts, right :: rights => left.equals right && itemsEqual lefts rights
  | _, _ => false

/-- Equality of the fields of objects, name and value, in their order. -/
def fieldsEqual : List (String × Value) → List (String × Value) → Bool
  | [], [] => true
  | (leftName, left) :: lefts, (rightName, right) :: rights =>
      leftName == rightName && left.equals right && fieldsEqual lefts rights
  | _, _ => false

end

end Value

/-- A named value that is supplied to a field or to a directive. -/
structure Argument where
  name : String
  value : Value

namespace Argument

/-- Equality of name and value. -/
def equals (left right : Argument) : Bool :=
  left.name == right.name && left.value.equals right.value

/-- Equality of argument lists, argument by argument in their order. -/
def listEquals : List Argument → List Argument → Bool
  | [], [] => true
  | left :: lefts, right :: rights => left.equals right && listEquals lefts rights
  | _, _ => false

/-- Whether two argument lists agree in any order: they are as long as each other, and every
argument of the first is found in the second. -/
def agree (left right : List Argument) : Bool :=
  left.length == right.length &&
    left.all (fun argument => right.any (fun other => argument.equals other))

end Argument

end ResponseShape

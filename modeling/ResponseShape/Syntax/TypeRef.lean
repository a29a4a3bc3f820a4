/-!
# References to types

A type reference names a type of the schema, possibly under lists and non-null marks. Every
reference has one innermost name (`TypeRef.namedType`) and one written form
(`TypeRef.render`). Marks may be nested in any order, a mark on a marked type included.
-/

set_option autoImplicit false

namespace ResponseShape

/-- A type as it is referred to by fields, arguments and variables. -/
inductive TypeRef where
  | named (name : String)
  | list (item : TypeRef)
  | nonNull (inner : TypeRef)
  deriving DecidableEq

namespace TypeRef

/-- The name below all lists and marks. -/
def namedType : TypeRef → String
  | named name => name
  | list item => item.namedType
  | nonNull inner => inner.namedType

/-- The written form: brackets around the items of a list, an exclamation mark after a type
that is not null. -/
def render : TypeRef → String
  | named name => name
  | list item => "[" ++ item.render ++ "]"
  | nonNull inner => inner.render ++ "!"

/-- The type of the items when the reference is a list, marked or not. -/
def item? : TypeRef → Option TypeRef
  | named _ => none
  | list item => some item
  | nonNull inner => inner.item?

end TypeRef

end ResponseShape

import ResponseShape.Schema.Definition

/-!
# Looking things up in a schema

Names are resolved to the first definition that carries them. A type that repeats the name of an
earlier one is never found by its name, but an object type that does so still counts among the
implementations of its interfaces.
-/

set_option autoImplicit false

namespace ResponseShape

/-- The scalars that every schema has, declared or not. -/
def builtinScalars : List String :=
  ["Int", "Float", "String", "Boolean", "ID"]

namespace Schema

/-- The type definitions, in their order. -/
def types (schema : Schema) : List TypeDefinition :=
  schema.definitions.filterMap fun
    | .type type => some type
    | _ => none

/-- The first type of the given name. -/
def type? (schema : Schema) (name : String) : Option TypeDefinition :=
  schema.types.find? (fun type => type.name == name)

/-- The first declaration of root types. -/
def roots? (schema : Schema) : Option RootTypes :=
  schema.definitions.findSome? fun
    | .roots roots => some roots
    | _ => none

/-- The arguments of the first directive of the given name. -/
def directiveArguments? (schema : Schema) (name : String) :
    Option (List InputValueDefinition) :=
  schema.definitions.findSome? fun
    | .directive directive => if directive.name == name then some directive.arguments else none
    | _ => none

/-- The name of the type at which operations of the kind start. A schema that declares its root
types has no others; one that does not has the object types with the names of the kinds. -/
def rootName? (schema : Schema) (kind : OperationKind) : Option String :=
  match schema.roots? with
  | some roots => roots.of kind
  | none =>
      if (schema.type? kind.rootName).any TypeDefinition.isObject then some kind.rootName
      else none

/-- The type at which operations of the kind start, which has to be an object type. -/
def root? (schema : Schema) (kind : OperationKind) : Option TypeDefinition :=
  ((schema.rootName? kind).bind schema.type?).filter TypeDefinition.isObject

/-- The object types that a value of the type can have at run time. Implementations of an
interface come in the order of the schema and members of a union in the order of the union; a
member that is listed twice is there twice. -/
def possibleTypes (schema : Schema) (type : TypeDefinition) : List TypeDefinition :=
  match type.content with
  | .object _ _ => (schema.type? type.name).toList
  | .interface _ _ =>
      schema.types.filter (fun other => other.isObject && other.implements type.name)
  | .union members =>
      members.filterMap (fun member => (schema.type? member).filter TypeDefinition.isObject)
  | .scalar | .enum _ | .inputObject _ => []

/-- Whether a value can be of both types: they have one name, or some possible types of theirs
have one. -/
def overlap (schema : Schema) (left right : TypeDefinition) : Bool :=
  left.name == right.name ||
    (schema.possibleTypes left).any (fun leftType =>
      (schema.possibleTypes right).any (fun rightType => rightType.name == leftType.name))

end Schema

end ResponseShape

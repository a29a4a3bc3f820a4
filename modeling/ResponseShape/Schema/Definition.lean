import ResponseShape.Syntax.Document

/-!
# Schema definitions

What a schema declares. A type definition has a name, a description and directives whatever its
kind is, and a content that depends on the kind. Type names may repeat in one schema; which
definition counts is decided where names are looked up.
-/

set_option autoImplicit false

namespace ResponseShape

/-- An argument of a field or of a directive, or a field of an input object. -/
structure InputValueDefinition where
  name : String
  type : TypeRef
  description : Option String
  default? : Option Value
  directives : List Directive

/-- A field of an object type or of an interface. -/
structure FieldDefinition where
  name : String
  type : TypeRef
  description : Option String
  arguments : List InputValueDefinition
  directives : List Directive

/-- A value of an enum. -/
structure EnumValueDefinition where
  name : String
  description : Option String
  directives : List Directive

/-- The kinds of types. -/
inductive TypeKind where
  | scalar
  | object
  | interface
  | union
  | enum
  | inputObject
  deriving DecidableEq

/-- The part of a type definition that depends on the kind of the type. -/
inductive TypeContent where
  | scalar
  | object (interfaces : List String) (fields : List FieldDefinition)
  | interface (interfaces : List String) (fields : List FieldDefinition)
  | union (members : List String)
  | enum (values : List EnumValueDefinition)
  | inputObject (fields : List InputValueDefinition)

/-- The kind of types with this content. -/
def TypeContent.kind : TypeContent → TypeKind
  | scalar => .scalar
  | object _ _ => .object
  | interface _ _ => .interface
  | union _ => .union
  | enum _ => .enum
  | inputObject _ => .inputObject

/-- The definition of a type. -/
structure TypeDefinition where
  name : String
  description : Option String
  directives : List Directive
  content : TypeContent

/-- The field that every composite type has without declaring it. -/
def typenameField : FieldDefinition :=
  { name := "__typename", type := .nonNull (.named "String"), description := none,
    arguments := [], directives := [] }

namespace TypeDefinition

/-- The kind of the type. -/
def kind (type : TypeDefinition) : TypeKind :=
  type.content.kind

/-- Whether the type is an object type. -/
def isObject (type : TypeDefinition) : Bool :=
  type.kind == .object

/-- Whether values of the type have selections of their own: it is an object type, an interface
or a union. -/
def isComposite (type : TypeDefinition) : Bool :=
  match type.kind with
  | .object | .interface | .union => true
  | .scalar | .enum | .inputObject => false

/-- The names of the interfaces that the type lists. -/
def interfaces (type : TypeDefinition) : List String :=
  match type.content with
  | .object interfaces _ | .interface interfaces _ => interfaces
  | _ => []

/-- The fields that the type declares for results. -/
def fields (type : TypeDefinition) : List FieldDefinition :=
  match type.content with
  | .object _ fields | .interface _ fields => fields
  | _ => []

/-- The fields that the type declares for input. -/
def inputFields (type : TypeDefinition) : List InputValueDefinition :=
  match type.content with
  | .inputObject fields => fields
  | _ => []

/-- The members that the type lists as a union. -/
def members (type : TypeDefinition) : List String :=
  match type.content with
  | .union members => members
  | _ => []

/-- The values that the type lists as an enum. -/
def enumValues (type : TypeDefinition) : List EnumValueDefinition :=
  match type.content with
  | .enum values => values
  | _ => []

/-- The field of the given name: `__typename` on every composite type, otherwise the first
declared field of the name. -/
def field? (type : TypeDefinition) (name : String) : Option FieldDefinition :=
  if name == typenameField.name && type.isComposite then some typenameField
  else type.fields.find? (fun field => field.name == name)

/-- The first declared input field of the given name. -/
def inputField? (type : TypeDefinition) (name : String) : Option InputValueDefinition :=
  type.inputFields.find? (fun field => field.name == name)

/-- Whether the type lists the interface of the given name. -/
def implements (type : TypeDefinition) (interfaceName : String) : Bool :=
  type.interfaces.contains interfaceName

/-- Whether the type, as a union, lists the member of the given name. -/
def hasMember (type : TypeDefinition) (memberName : String) : Bool :=
  type.members.contains memberName

/-- Whether a fragment on the type applies to values of the object type `runtime`: the two have
one name, or the type is an interface that `runtime` lists or a union that lists `runtime`. -/
def appliesTo (type runtime : TypeDefinition) : Bool :=
  type.name == runtime.name ||
    match type.kind with
    | .interface => runtime.implements type.name
    | .union => type.hasMember runtime.name
    | _ => false

end TypeDefinition

/-- The types at which operations start, as a schema declares them. -/
structure RootTypes where
  query : Option String
  mutation : Option String
  subscription : Option String

/-- The declared root type of operations of the given kind. -/
def RootTypes.of (roots : RootTypes) : OperationKind → Option String
  | .query => roots.query
  | .mutation => roots.mutation
  | .subscription => roots.subscription

/-- The definition of a directive. -/
structure DirectiveDefinition where
  name : String
  arguments : List InputValueDefinition

/-- A definition of a schema. Extensions of types are kept as places only: nothing looks at what
they add. -/
inductive SchemaDefinition where
  | roots (roots : RootTypes)
  | directive (directive : DirectiveDefinition)
  | type (type : TypeDefinition)
  | extension

/-- The definitions of a schema, in their order. -/
structure Schema where
  definitions : List SchemaDefinition

end ResponseShape

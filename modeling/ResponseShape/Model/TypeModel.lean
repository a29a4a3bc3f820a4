import ResponseShape.Path

/-!
# Type models

What code is generated from: one model for every enum and input object that the documents use,
and one for every position of a response that has fields of its own. A position whose type is an
interface or a union has a model for itself, which names the models of its implementations.
-/

set_option autoImplicit false

namespace ResponseShape

/-- A value of an enum model: its class name, the value as the schema declares it, and the
literal to use instead, if the schema gives one. -/
structure EnumValueModel where
  name : String
  value : String
  description : Option String
  explicitValue : Option String
  deriving DecidableEq

/-- The model of an enum. The serialization type replaces its representation in transport. -/
structure EnumModel where
  name : String
  description : Option String
  schemaType : String
  serializationType : Option String
  values : List EnumValueModel
  deriving DecidableEq

/-- A field of an input model: its class name, the field as the schema declares it, and its
written type. -/
structure InputFieldModel where
  name : String
  fieldName : String
  description : Option String
  fieldType : String
  deriving DecidableEq

/-- The model of an input object. -/
structure InputModel where
  name : String
  description : Option String
  schemaType : String
  fields : List InputFieldModel
  deriving DecidableEq

/-- A field of a response model: where it is, its written type, and the model of its value if
that has one. -/
structure OutputFieldModel where
  responseName : String
  fieldName : String
  description : Option String
  fieldType : String
  path : Path
  typeModel : Option String
  deriving DecidableEq

/-- The model of a value that is of one object type. -/
structure ObjectModel where
  name : String
  description : Option String
  schemaType : String
  fields : List OutputFieldModel
  deriving DecidableEq

/-- The model of a value of an interface or of a union: the fields that are selected on every
value, and the names of the models of the object types that it can have. -/
structure AbstractModel where
  name : String
  description : Option String
  schemaType : String
  fields : List OutputFieldModel
  implementations : List String
  deriving DecidableEq

/-- A model. -/
inductive TypeModel where
  | enum (model : EnumModel)
  | input (model : InputModel)
  | object (model : ObjectModel)
  | interface (model : AbstractModel)
  | union (model : AbstractModel)
  deriving DecidableEq

namespace TypeModel

/-- The name of the model. -/
def name : TypeModel → String
  | enum model => model.name
  | input model => model.name
  | object model => model.name
  | interface model | union model => model.name

/-- The description that the model takes from its schema type. -/
def description : TypeModel → Option String
  | enum model => model.description
  | input model => model.description
  | object model => model.description
  | interface model | union model => model.description

/-- The name of the schema type that the model was built from. -/
def schemaType : TypeModel → String
  | enum model => model.schemaType
  | input model => model.schemaType
  | object model => model.schemaType
  | interface model | union model => model.schemaType

/-- The response fields; enums and inputs have none. -/
def fields : TypeModel → List OutputFieldModel
  | enum _ | input _ => []
  | object model => model.fields
  | interface model | union model => model.fields

/-- The names of the models behind an interface or a union; other models have none. -/
def implementations : TypeModel → List String
  | enum _ | input _ | object _ => []
  | interface model | union model => model.implementations

end TypeModel

end ResponseShape

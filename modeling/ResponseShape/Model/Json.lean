import ResponseShape.Model.DocumentModel

/-!
# The JSON form of models

Models are handed to other programs as JSON. A model says its kind in the member `kind`, beside
its own members, and what is absent is null. In a document model the types are the members of
one object, and so are the paths of an operation: the written form of a path is the name of the
member. Should two paths have one written form, the later one gives the member its value.
-/

set_option autoImplicit false

namespace ResponseShape

/-- A JSON value, as far as models need it. The members of an object have different names. -/
inductive Json where
  | null
  | text (text : String)
  | list (items : List Json)
  | object (members : List (String × Json))

namespace Json

/-- The text, or null. -/
def ofText? : Option String → Json
  | none => null
  | some value => text value

/-- A list of texts. -/
def ofTexts (texts : List String) : Json :=
  list (texts.map text)

/-- The object with the given members; of several members of one name the last gives the
value. -/
def ofMembers (members : List (String × Json)) : Json :=
  object (OrderedMap.ofList members).entries

end Json

/-- The JSON form of an enum value. -/
def EnumValueModel.toJson (value : EnumValueModel) : Json :=
  .object
    [("name", .text value.name), ("value", .text value.value),
     ("description", .ofText? value.description),
     ("explicit_value", .ofText? value.explicitValue)]

/-- The JSON form of an input field. -/
def InputFieldModel.toJson (field : InputFieldModel) : Json :=
  .object
    [("name", .text field.name), ("field_name", .text field.fieldName),
     ("description", .ofText? field.description), ("field_type", .text field.fieldType)]

/-- The JSON form of a response field. -/
def OutputFieldModel.toJson (field : OutputFieldModel) : Json :=
  .object
    [("response_name", .text field.responseName), ("field_name", .text field.fieldName),
     ("description", .ofText? field.description), ("field_type", .text field.fieldType),
     ("path", .text field.path.render), ("type_model", .ofText? field.typeModel)]

namespace TypeModel

/-- The name of the kind of the model. -/
def kindName : TypeModel → String
  | enum _ => "Enum"
  | input _ => "ComplexInput"
  | object _ => "Object"
  | interface _ => "Interface"
  | union _ => "Union"

/-- The members that belong to the kind of the model. -/
def ownMembers : TypeModel → List (String × Json)
  | enum model =>
      [("serialization_type", .ofText? model.serializationType),
       ("values", .list (model.values.map EnumValueModel.toJson))]
  | input model => [("fields", .list (model.fields.map InputFieldModel.toJson))]
  | object model => [("fields", .list (model.fields.map OutputFieldModel.toJson))]
  | interface model | union model =>
      [("fields", .list (model.fields.map OutputFieldModel.toJson)),
       ("implementations", .ofTexts model.implementations)]

/-- The JSON form of a model. -/
def toJson (model : TypeModel) : Json :=
  .object
    ([("kind", .text model.kindName), ("name", .text model.name),
      ("description", .ofText? model.description), ("schema_type", .text model.schemaType)] ++
      model.ownMembers)

end TypeModel

/-- The JSON form of an operation. -/
def OperationModel.toJson (operation : OperationModel) : Json :=
  .object
    [("name", .text operation.name), ("kind", .text operation.kind.rootName),
     ("root_type", .text operation.rootType),
     ("paths",
       .ofMembers (operation.paths.entries.map (fun entry => (entry.1.render, .text entry.2))))]

/-- The JSON form of a document model. -/
def DocumentModel.toJson (model : DocumentModel) : Json :=
  .object
    [("types", .ofMembers (model.types.entries.map (fun entry => (entry.1, entry.2.toJson)))),
     ("operations", .list (model.operations.map OperationModel.toJson))]

end ResponseShape

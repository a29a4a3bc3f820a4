import ResponseShape.Hint
import ResponseShape.Catalog
import ResponseShape.Schema.Definition
import ResponseShape.Text.ClassName
import ResponseShape.Usage.TypeUsage

/-!
# Models of enums and input objects

A type in use gets one model. Its name is the class name of what `@rename` gives, or of the name
of the type itself; values and fields are named in the same way. The name is allotted before the
rest of the type is looked at, so a type whose values or fields are marked wrongly keeps its
name although it gets no model. That is why a failure comes with the catalog it leaves.
-/

set_option autoImplicit false

namespace ResponseShape

/-- What a computation on a catalog gives, together with the catalog it leaves, which is there
whether the computation succeeds or not. -/
abbrev Cataloged (α : Type) := Outcome α × Catalog

namespace TypeDefinition

/-- The class name of an element: of what `@rename` gives, or of the element's own name. -/
def elementName (name : String) (directives : List Directive) (location : String) :
    Outcome String := do
  let renamed ← Hint.rename.read directives location
  return Text.className (renamed.getD name)

/-- The model of a value of the enum. -/
def enumValueModel (type : TypeDefinition) (value : EnumValueDefinition) :
    Outcome EnumValueModel := do
  let location := "enum value " ++ type.name ++ "." ++ value.name
  let name ← elementName value.name value.directives location
  let explicitValue ← Hint.enumValue.read value.directives location
  return { name, value := value.name, description := value.description, explicitValue }

/-- The model of the enum, under the given name. -/
def enumModel (type : TypeDefinition) (name : String) : Outcome EnumModel := do
  let values ← type.enumValues.mapM type.enumValueModel
  let serializationType ←
    Hint.serializationType.read type.directives ("enum " ++ type.name)
  return { name, description := type.description, schemaType := type.name, serializationType,
           values }

/-- The model of a field of the input object. -/
def inputFieldModel (type : TypeDefinition) (field : InputValueDefinition) :
    Outcome InputFieldModel := do
  let location := "input field " ++ type.name ++ "." ++ field.name
  let name ← elementName field.name field.directives location
  return { name, fieldName := field.name, description := field.description,
           fieldType := field.type.render }

/-- The model of the input object, under the given name. -/
def inputModel (type : TypeDefinition) (name : String) : Outcome InputModel := do
  let fields ← type.inputFields.mapM type.inputFieldModel
  return { name, description := type.description, schemaType := type.name, fields }

end TypeDefinition

namespace Catalog

/-- Allots a name to the type, then builds its model under that name. -/
def buildNamed {α : Type} (catalog : Catalog) (avoided : List String) (type : TypeDefinition)
    (location : String) (build : String → Outcome α) : Cataloged α :=
  match TypeDefinition.elementName type.name type.directives location with
  | .error error => (.error error, catalog)
  | .ok proposed =>
      let allotted := catalog.allot (.schemaType type.name) proposed avoided
      (build allotted.1, allotted.2)

/-- Builds the model of an enum. -/
def buildEnum (catalog : Catalog) (avoided : List String) (type : TypeDefinition) :
    Cataloged TypeModel :=
  catalog.buildNamed avoided type ("enum " ++ type.name)
    (fun name => (type.enumModel name).map TypeModel.enum)

/-- Builds the model of an input object. -/
def buildInput (catalog : Catalog) (avoided : List String) (type : TypeDefinition) :
    Cataloged TypeModel :=
  catalog.buildNamed avoided type ("input " ++ type.name)
    (fun name => (type.inputModel name).map TypeModel.input)

/-- Builds and adds the models of types in turn, up to the first failure. -/
def addBuilt (build : Catalog → TypeDefinition → Cataloged TypeModel) (catalog : Catalog) :
    List TypeDefinition → Cataloged Unit
  | [] => (.ok (), catalog)
  | type :: rest =>
      match build catalog type with
      | (.error error, left) => (.error error, left)
      | (.ok model, left) =>
          match left.add model with
          | .error error => (.error error, left)
          | .ok extended => addBuilt build extended rest

/-- Adds a model for every enum in use. -/
def addEnums (catalog : Catalog) (schema : Schema) (usage : TypeUsage)
    (avoided : List String) : Cataloged Unit :=
  catalog.addBuilt (fun catalog type => catalog.buildEnum avoided type) (usage.enumTypes schema)

/-- Adds a model for every input object in use. -/
def addInputs (catalog : Catalog) (schema : Schema) (usage : TypeUsage)
    (avoided : List String) : Cataloged Unit :=
  catalog.addBuilt (fun catalog type => catalog.buildInput avoided type)
    (usage.inputTypes schema)

end Catalog

end ResponseShape

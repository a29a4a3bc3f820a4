import ResponseShape.Catalog
import ResponseShape.Traversal.Plan

/-!
# Naming planned models

A plan becomes models when its positions are named. The name of a position is allotted when its
field is named, so that the field can refer to a model that does not exist yet; the model is
added later under that name. Positions are named after their types, and the names that
operations will need are avoided.
-/

set_option autoImplicit false

namespace ResponseShape

/-- What a traversal has built: the names and models, and the name of the model at each position
in the order in which the positions were built. -/
structure Progress where
  catalog : Catalog
  paths : OrderedMap Path String

namespace Catalog

/-- The model of a planned field, under the catalog that knows the name of its value's model. An
enum has the name under which its own model was added, if it was. -/
def nameField (catalog : Catalog) (avoided : List String) (field : PlannedField) :
    OutputFieldModel × Catalog :=
  let selected := field.occurrences.first
  let named : Option String × Catalog :=
    match field.value with
    | .scalar => (none, catalog)
    | .enum => (catalog.nameOf? (.schemaType selected.namedType), catalog)
    | .composite =>
        let allotted := catalog.allot (.field selected.path) selected.namedType avoided
        (some allotted.1, allotted.2)
  ({ responseName := selected.responseName
     fieldName := selected.definition.name
     description := selected.definition.description
     fieldType := selected.definition.type.render
     path := selected.path
     typeModel := named.1 },
   named.2)

/-- The models of planned fields, named in turn. -/
def nameFields (catalog : Catalog) (avoided : List String) :
    List PlannedField → List OutputFieldModel × Catalog
  | [] => ([], catalog)
  | field :: rest =>
      let named := catalog.nameField avoided field
      let others := nameFields named.2 avoided rest
      (named.1 :: others.1, others.2)

/-- The models of the object types behind the position at `path`, named in turn. -/
def nameVariants (schema : Schema) (catalog : Catalog) (avoided : List String) (path : Path) :
    List (Variant PlannedField) → List ObjectModel × Catalog
  | [] => ([], catalog)
  | variant :: rest =>
      let allotted :=
        catalog.allot (.variant path variant.typeName) variant.typeName avoided
      let named := allotted.2.nameFields avoided variant.fields
      let others := nameVariants schema named.2 avoided path rest
      ({ name := allotted.1
         description := (schema.type? variant.typeName).bind TypeDefinition.description
         schemaType := variant.typeName
         fields := named.1 } :: others.1,
       others.2)

/-- The model of the interface or union at `path` and the models of its variants. The position
is named first, then the variants with their fields, then the fields of its own. -/
def nameAbstract (schema : Schema) (catalog : Catalog) (avoided : List String) (path : Path)
    (type : TypeDefinition) (variants : List (Variant PlannedField))
    (shared : List PlannedField) : AbstractModel × List ObjectModel × Catalog :=
  let allotted := catalog.allot (.field path) type.name avoided
  let named := nameVariants schema allotted.2 avoided path variants
  let own := named.2.nameFields avoided shared
  ({ name := allotted.1
     description := type.description
     schemaType := type.name
     fields := own.1
     implementations := named.1.map ObjectModel.name },
   named.1, own.2)

end Catalog

namespace Progress

/-- Adds the models of a position, the first of which is the position's own. -/
def addModels (progress : Progress) (path : Path) (catalog : Catalog) (own : TypeModel)
    (implementations : List ObjectModel) : Outcome Progress := do
  let extended ← catalog.addAll (own :: implementations.map TypeModel.object)
  return ⟨extended, progress.paths.insert path own.name⟩

/-- Names the planned model of the position at `path` and adds it. -/
def realize (progress : Progress) (schema : Schema) (avoided : List String) (path : Path) :
    Plan → Outcome Progress
  | .leaf => .ok progress
  | .object type fields =>
      let allotted := progress.catalog.allot (.field path) type.name avoided
      let named := allotted.2.nameFields avoided fields
      progress.addModels path named.2
        (.object
          { name := allotted.1, description := type.description, schemaType := type.name,
            fields := named.1 })
        []
  | .interface type variants shared _ =>
      let named := Catalog.nameAbstract schema progress.catalog avoided path type variants shared
      progress.addModels path named.2.2 (.interface named.1) named.2.1
  | .union type variants shared _ =>
      let named := Catalog.nameAbstract schema progress.catalog avoided path type variants shared
      progress.addModels path named.2.2 (.union named.1) named.2.1

end Progress

end ResponseShape

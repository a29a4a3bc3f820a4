import ResponseShape.Collection.Gathering

/-!
# Selections per concrete type

A selection set on a type is read once for every object type that a value of the type can have.
The result has one variant per object type, in the order of the schema's possible types, and
every variant has one selected field per response name, in the order in which the names were
met. A selection set can also be read for the type itself, without choosing an object type.
-/

set_option autoImplicit false

namespace ResponseShape

/-- A field selected on one type: its definition, the merged node, and the path of the selection
set that it belongs to. -/
structure SelectedField where
  definition : FieldDefinition
  node : FieldNode
  setPath : Path

namespace SelectedField

/-- The key under which the field's value is found in the response. -/
def responseName (field : SelectedField) : String :=
  field.node.responseName

/-- The path of the field's value. -/
def path (field : SelectedField) : Path :=
  field.setPath.child field.responseName

/-- The name of the type of the field's value, below lists and non-null marks. -/
def namedType (field : SelectedField) : String :=
  field.definition.type.namedType

/-- Where the merged node was written. -/
def position (field : SelectedField) : Position :=
  field.node.position

end SelectedField

/-- What is selected on the values of one object type. -/
structure Variant (φ : Type) where
  typeName : String
  fields : List φ

/-- The field of a response name. -/
def Variant.field? (variant : Variant SelectedField) (responseName : String) :
    Option SelectedField :=
  variant.fields.find? (fun field => field.responseName == responseName)

/-- The first of the variants that belongs to the type of the given name. -/
def Variant.find? {φ : Type} (variants : List (Variant φ)) (typeName : String) :
    Option (Variant φ) :=
  variants.find? (fun variant => variant.typeName == typeName)

namespace Environment

/-- The node as a field of the type `runtime`. -/
def selectField (runtime : TypeDefinition) (path : Path) (node : FieldNode) :
    Outcome SelectedField :=
  match runtime.field? node.head.name with
  | none => .error (.unknownField runtime.name node.head.name path node.position)
  | some definition => .ok ⟨definition, node, path⟩

/-- The fields that the selection set at `path`, written for the type `scope`, selects on values
of the type `runtime`. -/
def collectFor (environment : Environment) (runtime scope : TypeDefinition)
    (items : List Selection) (path : Path) : Outcome (List SelectedField) := do
  let gathering ←
    environment.gather runtime path Gathering.start (ScopedSelection.inScope scope items)
  gathering.groups.values.mapM (selectField runtime path)

/-- The fields that a selection set selects on the type itself. -/
def collectOn (environment : Environment) (type : TypeDefinition) (items : List Selection)
    (path : Path) : Outcome (List SelectedField) :=
  environment.collectFor type type items path

/-- The fields that a selection set on `type` selects on each of its possible types. -/
def collect (environment : Environment) (type : TypeDefinition) (items : List Selection)
    (path : Path) : Outcome (List (Variant SelectedField)) :=
  (environment.schema.possibleTypes type).mapM fun runtime => do
    let fields ← environment.collectFor runtime type items path
    return ⟨runtime.name, fields⟩

end Environment

end ResponseShape

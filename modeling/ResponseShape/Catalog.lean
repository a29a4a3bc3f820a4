import ResponseShape.OrderedMap
import ResponseShape.Error
import ResponseShape.Model.TypeModel

/-!
# Names and models of one analysis

A catalog allots the names of models and holds the models in the order in which they were added.
A name is allotted to an owner: to a type of the schema, to an operation, to the value of a field
of a response, or to one of the object types that such a value can have. A name that is proposed
is given as it is when it is free, and with the first number that makes it free otherwise.

An owner has the name it was given from then on (`nameOf?_allot_self`), and giving it changes
the name of no other owner (`nameOf?_allot_of_ne`).

A catalog keeps every owner and its name together. A registry keeps the names by owner and the
owners by name in tables of their own, and answers as a catalog does.
-/

set_option autoImplicit false

namespace ResponseShape

/-- What a name is allotted to. -/
inductive NameOwner where
  | schemaType (name : String)
  | operation (name : String)
  | field (path : Path)
  | variant (path : Path) (typeName : String)
  deriving DecidableEq

/-- The position of a response to which the owner belongs. Types of the schema have none. -/
def NameOwner.path? : NameOwner → Option Path
  | schemaType _ => none
  | operation name => some (Path.root name)
  | field path => some path
  | variant path _ => some path

/-- A name that was given to an owner. -/
structure Allotment where
  owner : NameOwner
  name : String
  deriving DecidableEq

/-- The allotted names, in the order in which they were given, and the models by name. -/
structure Catalog where
  allotments : List Allotment
  models : OrderedMap String TypeModel
  deriving DecidableEq

namespace Catalog

/-- The catalog without names and models. -/
def empty : Catalog :=
  ⟨[], OrderedMap.empty⟩

/-- The name that was given to the owner. -/
def nameOf? (catalog : Catalog) (owner : NameOwner) : Option String :=
  (catalog.allotments.find? (fun allotment => allotment.owner == owner)).map Allotment.name

/-- The owner to which the name was given. -/
def ownerOf? (catalog : Catalog) (name : String) : Option NameOwner :=
  (catalog.allotments.find? (fun allotment => allotment.name == name)).map Allotment.owner

/-- Whether the name belongs to no owner and is not to be avoided. -/
def isFree (catalog : Catalog) (avoided : List String) (name : String) : Bool :=
  !catalog.allotments.any (fun allotment => allotment.name == name) && !avoided.contains name

/-- The proposed name with a number behind it. -/
def numbered (proposed : String) (number : Nat) : String :=
  proposed ++ toString number

/-- The first of the numbers from `number` on, at most `attempts` of them, that makes the
proposed name free. -/
def firstFreeNumber? (catalog : Catalog) (avoided : List String) (proposed : String) :
    (attempts number : Nat) → Option Nat
  | 0, _ => none
  | attempts + 1, number =>
      if catalog.isFree avoided (numbered proposed number) then some number
      else firstFreeNumber? catalog avoided proposed attempts (number + 1)

/-- The proposed name when it is free, and otherwise the proposed name with the least number
from one on that makes it free. There are fewer names that are not free than numbers tried. -/
def freshName (catalog : Catalog) (avoided : List String) (proposed : String) : String :=
  if catalog.isFree avoided proposed then proposed
  else
    match firstFreeNumber? catalog avoided proposed
        (catalog.allotments.length + avoided.length + 1) 1 with
    | some number => numbered proposed number
    | none => proposed

/-- The name of the owner, and the catalog that remembers it. An owner that has a name keeps it,
whatever is proposed. -/
def allot (catalog : Catalog) (owner : NameOwner) (proposed : String) (avoided : List String) :
    String × Catalog :=
  match catalog.nameOf? owner with
  | some name => (name, catalog)
  | none =>
      let name := catalog.freshName avoided proposed
      (name, { catalog with allotments := catalog.allotments ++ [⟨owner, name⟩] })

/-- **An owner that has a name keeps it, and nothing else changes.** -/
theorem allot_of_named {catalog : Catalog} {owner : NameOwner} {name : String}
    (named : catalog.nameOf? owner = some name) (proposed : String) (avoided : List String) :
    catalog.allot owner proposed avoided = (name, catalog) := by
  simp only [allot, named]

/-- An owner without a name is given a fresh one, which is remembered last. -/
theorem allot_of_unnamed {catalog : Catalog} {owner : NameOwner}
    (unnamed : catalog.nameOf? owner = none) (proposed : String) (avoided : List String) :
    catalog.allot owner proposed avoided =
      (catalog.freshName avoided proposed,
        { catalog with
          allotments :=
            catalog.allotments ++ [⟨owner, catalog.freshName avoided proposed⟩] }) := by
  simp only [allot, unnamed]

/-- **The owner has the name that is returned.** -/
theorem nameOf?_allot_self (catalog : Catalog) (owner : NameOwner) (proposed : String)
    (avoided : List String) :
    (catalog.allot owner proposed avoided).2.nameOf? owner =
      some (catalog.allot owner proposed avoided).1 := by
  cases known : catalog.nameOf? owner with
  | some name => rw [allot_of_named known, known]
  | none =>
      have absent : catalog.allotments.find? (fun allotment => allotment.owner == owner) = none :=
        Option.map_eq_none_iff.mp known
      rw [allot_of_unnamed known]
      simp [nameOf?, List.find?_append, absent]

/-- **No other owner's name changes.** -/
theorem nameOf?_allot_of_ne {catalog : Catalog} {owner other : NameOwner} {proposed : String}
    {avoided : List String} (apart : other ≠ owner) :
    (catalog.allot owner proposed avoided).2.nameOf? other = catalog.nameOf? other := by
  cases known : catalog.nameOf? owner with
  | some name => rw [allot_of_named known]
  | none =>
      rw [allot_of_unnamed known]
      simp [nameOf?, List.find?_append, apart.symm]

/-- Adds a model under its own name, which must not have a model yet. -/
def add (catalog : Catalog) (model : TypeModel) : Outcome Catalog :=
  if catalog.models.contains model.name then
    .error (.duplicateTypeName model.name
      ((catalog.ownerOf? model.name).bind NameOwner.path?))
  else .ok { catalog with models := catalog.models.insert model.name model }

/-- Adds models one after the other. -/
def addAll (catalog : Catalog) (models : List TypeModel) : Outcome Catalog :=
  models.foldlM Catalog.add catalog

end Catalog

end ResponseShape

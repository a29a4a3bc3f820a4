import ResponseShape.Catalog

/-!
# Names and models in three tables

A registry keeps in three tables what a catalog keeps together: the name of each owner, the owner
of each name, and the models by name. Giving a name writes the first two, one after the other.
Whether an owner has a name is read from the one and whether a name is free from the other, so they
have to agree for the answers to make sense; nothing in a registry itself makes them agree.

Handing in a model returns a result and the registry that is left, whether the model is taken or
refused.
-/

set_option autoImplicit false

namespace ResponseShape

/-- The names by owner, the owners by name, and the models by name. -/
structure Registry where
  names : OrderedMap NameOwner String
  taken : OrderedMap String NameOwner
  models : OrderedMap String TypeModel
  deriving DecidableEq

namespace Registry

/-- The registry without names and models. -/
def empty : Registry :=
  ⟨OrderedMap.empty, OrderedMap.empty, OrderedMap.empty⟩

/-- Whether the name belongs to no owner and is not to be avoided. -/
def isFree (registry : Registry) (avoided : List String) (name : String) : Bool :=
  !registry.taken.contains name && !avoided.contains name

/-- The proposed name when it is free, and otherwise the first free one of the proposed name with
the numbers from one on. There are fewer names that are not free than numbers tried. -/
def freshName (registry : Registry) (avoided : List String) (proposed : String) : String :=
  if registry.isFree avoided proposed then proposed
  else
    let numbers := List.range' 1 (registry.taken.size + avoided.length + 1)
    ((numbers.map (Catalog.numbered proposed)).find? (registry.isFree avoided)).getD proposed

/-- The name of the owner, and the registry that remembers it. An owner that has a name keeps it,
whatever is proposed. -/
def getOrCreateName (registry : Registry) (owner : NameOwner) (proposed : String)
    (avoided : List String) : String × Registry :=
  match registry.names.get? owner with
  | some name => (name, registry)
  | none =>
      let name := registry.freshName avoided proposed
      let marked := { registry with taken := registry.taken.insert name owner }
      (name, { marked with names := marked.names.insert owner name })

/-- Hands in a model under its own name, which must not have a model yet: the result, and the
registry that is left. The error tells the position of the owner of the name. -/
def register (registry : Registry) (model : TypeModel) : Outcome Unit × Registry :=
  if registry.models.contains model.name then
    (.error (.duplicateTypeName model.name
      ((registry.taken.get? model.name).bind NameOwner.path?)), registry)
  else (.ok (), { registry with models := registry.models.insert model.name model })

end Registry

end ResponseShape

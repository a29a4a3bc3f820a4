import ResponseShape.Proofs.Allotting
import ResponseShape.Proofs.Grouping

/-!
# Catalogs under any uses

A catalog is asked for names and handed models, in any order and with any proposals and names to
avoid (`Catalog.Use`). Whatever the uses are, owners and names belong together one to one
(`Catalog.Paired`, `Catalog.Paired.useAll`): no owner and no name is allotted twice, so no two
owners have one name (`Catalog.Paired.owner_eq`).
-/

set_option autoImplicit false

namespace ResponseShape

namespace Catalog

variable {catalog : Catalog} {owner : NameOwner} {name : String}

/-! ## Uses -/

/-- A use of a catalog: an owner's name is asked for, or a model is handed in. -/
inductive Use where
  | name (owner : NameOwner) (proposed : String) (avoided : List String)
  | model (model : TypeModel)

/-- The catalog after a use. A model that is refused leaves it as it is. -/
def use (catalog : Catalog) : Use → Catalog
  | .name owner proposed avoided => (catalog.allot owner proposed avoided).2
  | .model model =>
      match catalog.add model with
      | .ok extended => extended
      | .error _ => catalog

/-- The catalog after uses in turn. -/
def useAll (catalog : Catalog) (uses : List Use) : Catalog :=
  uses.foldl use catalog

/-! ## Owners and names -/

/-- Owners and names belong together one to one: none of them is allotted twice. -/
structure Paired (catalog : Catalog) : Prop where
  owners : (catalog.allotments.map Allotment.owner).Nodup
  names : catalog.given.Nodup

theorem paired_empty : empty.Paired :=
  ⟨List.nodup_nil, List.nodup_nil⟩

theorem nameOf?_eq_none_iff :
    catalog.nameOf? owner = none ↔ owner ∉ catalog.allotments.map Allotment.owner := by
  rw [nameOf?, Option.map_eq_none_iff, List.find?_eq_none, List.mem_map]
  simp only [beq_iff_eq, not_exists, not_and]

namespace Paired

theorem nameOf?_eq_some_iff (paired : catalog.Paired) :
    catalog.nameOf? owner = some name ↔ ⟨owner, name⟩ ∈ catalog.allotments := by
  constructor
  · intro named
    obtain ⟨⟨other, _⟩, found, rfl⟩ := Option.map_eq_some_iff.mp named
    obtain rfl : other = owner := by simpa using List.find?_some found
    exact List.mem_of_find?_eq_some found
  · intro member
    have found := OrderedSet.find?_key_eq paired.owners member
    exact congrArg (Option.map Allotment.name) found

theorem ownerOf?_eq_some_iff (paired : catalog.Paired) :
    catalog.ownerOf? name = some owner ↔ ⟨owner, name⟩ ∈ catalog.allotments := by
  constructor
  · intro owned
    obtain ⟨⟨_, other⟩, found, rfl⟩ := Option.map_eq_some_iff.mp owned
    obtain rfl : other = name := by simpa using List.find?_some found
    exact List.mem_of_find?_eq_some found
  · intro member
    have found := OrderedSet.find?_key_eq paired.names member
    exact congrArg (Option.map Allotment.owner) found

/-- **The two look-ups are inverse to each other.** -/
theorem nameOf?_eq_some_iff_ownerOf? (paired : catalog.Paired) :
    catalog.nameOf? owner = some name ↔ catalog.ownerOf? name = some owner :=
  paired.nameOf?_eq_some_iff.trans paired.ownerOf?_eq_some_iff.symm

/-- **No two owners have one name.** -/
theorem owner_eq (paired : catalog.Paired) {other : NameOwner}
    (named : catalog.nameOf? owner = some name) (otherNamed : catalog.nameOf? other = some name) :
    owner = other := by
  rw [paired.nameOf?_eq_some_iff_ownerOf?] at named otherNamed
  exact Option.some.inj (named.symm.trans otherNamed)

theorem allot (paired : catalog.Paired) (owner : NameOwner) (proposed : String)
    (avoided : List String) : (catalog.allot owner proposed avoided).2.Paired := by
  cases known : catalog.nameOf? owner with
  | some name =>
      rw [allot_of_named known]
      exact paired
  | none =>
      have newOwner := nameOf?_eq_none_iff.mp known
      have newName := catalog.freshName_notMem_given avoided proposed
      rw [allot_of_unnamed known]
      constructor
      · rw [List.map_append, List.map_singleton, ← List.concat_eq_append]
        exact paired.owners.concat newOwner
      · rw [given, List.map_append, List.map_singleton, ← List.concat_eq_append]
        exact paired.names.concat newName

/-- The pairs do not depend on the models. -/
theorem of_allotments (paired : catalog.Paired) {later : Catalog}
    (same : later.allotments = catalog.allotments) : later.Paired :=
  ⟨same ▸ paired.owners, by rw [given, same]; exact paired.names⟩

end Paired

/-! ## What a use does -/

theorem Paired.use (paired : catalog.Paired) (use : Use) : (catalog.use use).Paired := by
  cases use with
  | name owner proposed avoided => exact paired.allot owner proposed avoided
  | model model =>
      rw [Catalog.use]
      cases added : catalog.add model with
      | error _ => exact paired
      | ok extended =>
          obtain ⟨_, rfl⟩ := add_eq_ok_iff.mp added
          exact paired.of_allotments rfl

/-! ## Uses in turn -/

theorem Paired.useAll (paired : catalog.Paired) (uses : List Use) :
    (catalog.useAll uses).Paired := by
  induction uses generalizing catalog with
  | nil => exact paired
  | cons first rest ih => exact ih (paired.use first)

end Catalog

end ResponseShape

import ResponseShape.Analysis
import ResponseShape.Proofs.Naming

/-!
# The models of the types in use

Before any operation is built, the catalog gets the models of the enums and the input objects that
documents use. Each is added under the name that was given to its type (`Catalog.Models`). In the
catalog that operations start with, a type of the schema has a name only if it has its model under
that name, and the enums that have one are those in use (`Catalog.holdsTypes_of_ofUsage`).
-/

set_option autoImplicit false

namespace ResponseShape

/-- The model is of the type: an enum model of an enum, an input model of an input object. -/
inductive TypeModel.Describes : TypeModel → TypeDefinition → Prop where
  | enum {model : EnumModel} {type : TypeDefinition} :
      type.kind = .enum → model.schemaType = type.name → Describes (.enum model) type
  | input {model : InputModel} {type : TypeDefinition} :
      type.kind = .inputObject → model.schemaType = type.name → Describes (.input model) type

namespace TypeModel.Describes

variable {model : TypeModel} {type : TypeDefinition}

theorem fields_eq_nil (describes : model.Describes type) : model.fields = [] := by
  cases describes <;> rfl

theorem implementations_eq_nil (describes : model.Describes type) :
    model.implementations = [] := by
  cases describes <;> rfl

theorem exists_enum (describes : model.Describes type) (kind : type.kind = .enum) :
    ∃ enum, model = .enum enum ∧ enum.schemaType = type.name := by
  cases describes with
  | enum _ schemaType => exact ⟨_, rfl, schemaType⟩
  | input other _ => rw [kind] at other; cases other

end TypeModel.Describes

namespace TypeDefinition

variable {type : TypeDefinition} {name : String}

theorem names_of_enumModel {model : EnumModel} (built : type.enumModel name = .ok model) :
    model.name = name ∧ model.schemaType = type.name := by
  obtain ⟨values, _, rest⟩ := bind_eq_ok_iff.mp built
  obtain ⟨serialization, _, same⟩ := bind_eq_ok_iff.mp rest
  obtain rfl := Except.ok.inj same
  exact ⟨rfl, rfl⟩

theorem names_of_inputModel {model : InputModel} (built : type.inputModel name = .ok model) :
    model.name = name ∧ model.schemaType = type.name := by
  obtain ⟨fields, _, same⟩ := bind_eq_ok_iff.mp built
  obtain rfl := Except.ok.inj same
  exact ⟨rfl, rfl⟩

end TypeDefinition

namespace Catalog

variable {schema : Schema} {catalog later : Catalog} {type : TypeDefinition} {model : TypeModel}
  {avoided : List String}

/-- The catalog has the model of the type, under the name that was given to the type. -/
structure Models (catalog : Catalog) (type : TypeDefinition) (model : TypeModel) : Prop where
  describes : model.Describes type
  named : catalog.nameOf? (.schemaType type.name) = some model.name
  found : catalog.models.get? model.name = some model

/-- All names were given to types that are found by name and have a model, and there are no other
models. -/
structure HoldsTypes (schema : Schema) (catalog : Catalog) : Prop where
  distinct : catalog.models.keys.Nodup
  named : ∀ owner name, catalog.nameOf? owner = some name → ∃ type model,
    schema.type? type.name = some type ∧ owner = .schemaType type.name ∧ name = model.name ∧
      catalog.Models type model
  models : ∀ entry ∈ catalog.models.entries, ∃ type, entry.2.Describes type

theorem holdsTypes_empty (schema : Schema) : HoldsTypes schema empty := by
  refine ⟨List.nodup_nil, fun owner name named => ?_, fun entry member => ?_⟩
  · cases named
  · cases member

/-- What building and adding a model of a type does. -/
structure AddsType (catalog later : Catalog) (type : TypeDefinition) (model : TypeModel) :
    Prop where
  describes : model.Describes type
  named : later.nameOf? (.schemaType type.name) = some model.name
  others : ∀ owner, owner ≠ .schemaType type.name → later.nameOf? owner = catalog.nameOf? owner
  absent : model.name ∉ catalog.models.keys
  models : later.models = catalog.models.insert model.name model

/-- The builder gives models of the types that it is used for. -/
def BuildsTypes (build : Catalog → TypeDefinition → Cataloged TypeModel)
    (kind : TypeKind) : Prop :=
  ∀ catalog between type model, type.kind = kind → build catalog type = (.ok model, between) →
    model.Describes type ∧ between.models = catalog.models ∧
      between.nameOf? (.schemaType type.name) = some model.name ∧
      ∀ owner, owner ≠ .schemaType type.name →
        between.nameOf? owner = catalog.nameOf? owner

/-- **A type is named before its model is built.** -/
theorem of_buildNamed {α : Type} {location : String} {build : String → Outcome α} {result : α}
    (built : catalog.buildNamed avoided type location build = (.ok result, later)) :
    ∃ name, build name = .ok result ∧ later.models = catalog.models ∧
      later.nameOf? (.schemaType type.name) = some name ∧
      ∀ owner, owner ≠ .schemaType type.name → later.nameOf? owner = catalog.nameOf? owner := by
  rw [buildNamed] at built
  cases proposed : TypeDefinition.elementName type.name type.directives location with
  | error error => simp [proposed] at built
  | ok proposal =>
      simp only [proposed, Prod.mk.injEq] at built
      obtain ⟨success, rfl⟩ := built
      exact ⟨_, success, catalog.models_allot _ _ _, catalog.nameOf?_allot_self _ _ _,
        fun owner apart => nameOf?_allot_of_ne apart⟩

theorem buildsTypes_buildEnum (avoided : List String) :
    BuildsTypes (fun catalog type => catalog.buildEnum avoided type) .enum := by
  intro catalog between type model kind built
  obtain ⟨name, success, models, named, others⟩ := of_buildNamed built
  obtain ⟨enum, computed, rfl⟩ := map_eq_ok_iff.mp success
  obtain ⟨rfl, schemaType⟩ := TypeDefinition.names_of_enumModel computed
  exact ⟨.enum kind schemaType, models, named, others⟩

theorem buildsTypes_buildInput (avoided : List String) :
    BuildsTypes (fun catalog type => catalog.buildInput avoided type) .inputObject := by
  intro catalog between type model kind built
  obtain ⟨name, success, models, named, others⟩ := of_buildNamed built
  obtain ⟨input, computed, rfl⟩ := map_eq_ok_iff.mp success
  obtain ⟨rfl, schemaType⟩ := TypeDefinition.names_of_inputModel computed
  exact ⟨.input kind schemaType, models, named, others⟩

/-! ## Adding the model of one type -/

namespace AddsType

theorem get?_of_ne (adds : catalog.AddsType later type model) {name : String}
    (apart : name ≠ model.name) : later.models.get? name = catalog.models.get? name := by
  rw [adds.models, OrderedMap.get?_insert, if_neg apart]

theorem models_self (adds : catalog.AddsType later type model) : later.Models type model := by
  refine ⟨adds.describes, adds.named, ?_⟩
  rw [adds.models, OrderedMap.get?_insert, if_pos rfl]

/-- The model of another type stays. -/
theorem models_of_models (adds : catalog.AddsType later type model) {other : TypeDefinition}
    {otherModel : TypeModel} (apart : other.name ≠ type.name)
    (models : catalog.Models other otherModel) : later.Models other otherModel := by
  refine ⟨models.describes, (adds.others _ ?_).trans models.named, ?_⟩
  · simpa using apart
  · rw [adds.get?_of_ne fun same => ?_]
    · exact models.found
    · refine adds.absent ?_
      rw [← same, ← OrderedMap.contains_iff_mem_keys, OrderedMap.contains, models.found]
      rfl

/-- **The invariant passes through the addition of a model.** -/
theorem holdsTypes (adds : catalog.AddsType later type model)
    (holds : HoldsTypes schema catalog) (known : schema.type? type.name = some type) :
    HoldsTypes schema later := by
  refine ⟨?_, fun owner name named => ?_, fun entry member => ?_⟩
  · rw [adds.models, OrderedMap.keys_insert]
    exact OrderedSet.nodup_add holds.distinct
  · by_cases same : owner = .schemaType type.name
    · subst same
      obtain rfl := Option.some.inj (adds.named.symm.trans named)
      exact ⟨type, model, known, rfl, rfl, adds.models_self⟩
    · rw [adds.others owner same] at named
      obtain ⟨other, otherModel, found, rfl, rfl, models⟩ := holds.named owner name named
      have apart : other.name ≠ type.name := fun equal => same (congrArg _ equal)
      exact ⟨other, otherModel, found, rfl, rfl, adds.models_of_models apart models⟩
  · rw [adds.models, OrderedMap.entries_insert_of_absent adds.absent, List.mem_append,
      List.mem_singleton] at member
    rcases member with before | rfl
    · exact holds.models entry before
    · exact ⟨type, adds.describes⟩

end AddsType

/-! ## Adding the models of types in turn -/

/-- The first type's model is built and added, then those of the others. -/
theorem exists_add_of_addBuilt {build : Catalog → TypeDefinition → Cataloged TypeModel}
    {rest : List TypeDefinition}
    (added : addBuilt build catalog (type :: rest) = (.ok (), later)) :
    ∃ model between, build catalog type = (.ok model, between) ∧
      model.name ∉ between.models.keys ∧
      addBuilt build { between with models := between.models.insert model.name model } rest =
        (.ok (), later) := by
  rw [addBuilt] at added
  cases built : build catalog type with
  | mk result between =>
      cases result with
      | error error => simp [built] at added
      | ok model =>
          cases adding : between.add model with
          | error error => simp [built, adding] at added
          | ok next =>
              simp only [built, adding] at added
              obtain ⟨absent, rfl⟩ := add_eq_ok_iff.mp adding
              exact ⟨model, between, rfl, absent, added⟩

theorem exists_addsType {build : Catalog → TypeDefinition → Cataloged TypeModel} {kind : TypeKind}
    {rest : List TypeDefinition} (builds : BuildsTypes build kind) (isKind : type.kind = kind)
    (added : addBuilt build catalog (type :: rest) = (.ok (), later)) :
    ∃ model next, catalog.AddsType next type model ∧
      addBuilt build next rest = (.ok (), later) := by
  obtain ⟨model, between, built, absent, others⟩ := exists_add_of_addBuilt added
  obtain ⟨describes, models, named, apart⟩ := builds catalog between type model isKind built
  refine ⟨model, { between with models := between.models.insert model.name model },
    ⟨describes, named, apart, models ▸ absent, ?_⟩, others⟩
  rw [models]

/-- **The models of types are added in turn: the invariant holds on, and the types are given
names, and nothing else is.** -/
theorem holdsTypes_of_addBuilt {build : Catalog → TypeDefinition → Cataloged TypeModel}
    {kind : TypeKind} (builds : BuildsTypes build kind) {types : List TypeDefinition}
    (known : ∀ type ∈ types, schema.type? type.name = some type ∧ type.kind = kind)
    (holds : HoldsTypes schema catalog)
    (added : addBuilt build catalog types = (.ok (), later)) :
    HoldsTypes schema later ∧ ∀ owner, (later.nameOf? owner).isSome = true ↔
      (catalog.nameOf? owner).isSome = true ∨ ∃ type ∈ types, owner = .schemaType type.name := by
  induction types generalizing catalog with
  | nil =>
      obtain ⟨_, rfl⟩ := Prod.mk.inj added
      exact ⟨holds, fun owner => by simp⟩
  | cons type rest ih =>
      obtain ⟨found, isKind⟩ := known type List.mem_cons_self
      obtain ⟨model, next, adds, others⟩ := exists_addsType builds isKind added
      obtain ⟨holdsLater, given⟩ :=
        ih (fun type member => known type (List.mem_cons_of_mem _ member))
          (adds.holdsTypes holds found) others
      refine ⟨holdsLater, fun owner => (given owner).trans ?_⟩
      by_cases same : owner = .schemaType type.name
      · simp [same, adds.named]
      · simp [same, adds.others owner same]

/-- The types found for names are found by their own names. -/
theorem known_of_mem_filterMap {names : List String} {kind : TypeKind} :
    ∀ type ∈ names.filterMap
        (fun name => (schema.type? name).filter (fun type => type.kind == kind)),
      schema.type? type.name = some type ∧ type.kind = kind := by
  intro type member
  obtain ⟨name, _, found⟩ := List.mem_filterMap.mp member
  obtain ⟨known, isKind⟩ := Option.filter_eq_some_iff.mp found
  exact ⟨(Schema.name_of_type? known).symm ▸ known, beq_iff_eq.mp isKind⟩

/-- The enums in use get their models first, then the input objects. -/
theorem exists_of_ofUsage {usage : TypeUsage}
    (built : ofUsage schema usage avoided = .ok catalog) :
    ∃ withEnums, empty.addEnums schema usage avoided = (.ok (), withEnums) ∧
      withEnums.addInputs schema usage avoided = (.ok (), catalog) := by
  rw [ofUsage] at built
  cases enums : empty.addEnums schema usage avoided with
  | mk result withEnums =>
      cases result with
      | error error => simp [enums] at built
      | ok done =>
          cases inputs : withEnums.addInputs schema usage avoided with
          | mk result withInputs =>
              cases result with
              | error error => simp [enums, inputs] at built
              | ok done =>
                  simp only [enums, inputs, Except.ok.injEq] at built
                  exact ⟨withEnums, rfl, built ▸ inputs⟩

/-- **In the catalog of the types in use, every name is the name of a type's model, and the enums
that have one are those in use.** -/
theorem holdsTypes_of_ofUsage {usage : TypeUsage}
    (built : ofUsage schema usage avoided = .ok catalog) :
    HoldsTypes schema catalog ∧ ∀ type, schema.type? type.name = some type → type.kind = .enum →
      ((catalog.nameOf? (.schemaType type.name)).isSome = true ↔ type.name ∈ usage.enums) := by
  obtain ⟨withEnums, enums, inputs⟩ := exists_of_ofUsage built
  obtain ⟨holds, givenEnums⟩ := holdsTypes_of_addBuilt (buildsTypes_buildEnum avoided)
    known_of_mem_filterMap (holdsTypes_empty schema) enums
  obtain ⟨holdsLater, givenInputs⟩ := holdsTypes_of_addBuilt (buildsTypes_buildInput avoided)
    known_of_mem_filterMap holds inputs
  refine ⟨holdsLater, fun type known kind => ?_⟩
  rw [givenInputs, givenEnums]
  constructor
  · rintro ((none | ⟨other, used, same⟩) | ⟨other, used, same⟩)
    · cases none
    · obtain ⟨name, isUsed, found⟩ := List.mem_filterMap.mp used
      obtain ⟨found, _⟩ := Option.filter_eq_some_iff.mp found
      rw [NameOwner.schemaType.inj same, Schema.name_of_type? found]
      exact isUsed
    · obtain ⟨found, isInput⟩ := known_of_mem_filterMap other used
      rw [← NameOwner.schemaType.inj same, known] at found
      obtain rfl := Option.some.inj found
      rw [kind] at isInput
      cases isInput
  · intro used
    refine .inl (.inr ⟨type, List.mem_filterMap.mpr ⟨type.name, used, ?_⟩, rfl⟩)
    rw [known]
    exact Option.filter_eq_some_iff.mpr ⟨rfl, beq_iff_eq.mpr kind⟩

end Catalog

end ResponseShape

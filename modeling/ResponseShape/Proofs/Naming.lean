import ResponseShape.Proofs.Children
import ResponseShape.Traversal.Naming

/-!
# Names and models of planned positions

Naming a plan lets the catalog grow: names that were given stay, names of schema types are neither
given nor taken, and models are added behind those that are there (`Catalog.Grows`). A named field
tells what its planned field selected, and the name of its value's model is the name of the
value's position (`Catalog.NamesField`).

Realizing a plan adds the model of its position, then one object model for each variant when the
position is an interface or a union (`Progress.Realizes`). Adding the root model of an operation
realizes its plan in the same way, under the name of the operation
(`Environment.realizes_of_startWith`).
-/

set_option autoImplicit false

namespace ResponseShape

namespace OrderedMap

variable {κ ν : Type} [DecidableEq κ]

theorem insertEntry_of_absent {key : κ} {entries : List (κ × ν)}
    (absent : key ∉ entries.map Prod.fst) (value : ν) :
    insertEntry key value entries = entries ++ [(key, value)] := by
  induction entries with
  | nil => rfl
  | cons entry rest ih =>
      rw [List.map_cons, List.mem_cons, not_or] at absent
      rw [insertEntry, if_neg absent.1, ih absent.2, List.cons_append]

/-- **A new key comes last.** -/
theorem entries_insert_of_absent {map : OrderedMap κ ν} {key : κ} (absent : key ∉ map.keys)
    (value : ν) : (map.insert key value).entries = map.entries ++ [(key, value)] :=
  insertEntry_of_absent absent value

end OrderedMap

namespace Catalog

/-! ## Growth -/

/-- The later catalog has all names and models of the earlier one, and no other names of schema
types. -/
structure Grows (earlier later : Catalog) : Prop where
  names : ∀ owner name, earlier.nameOf? owner = some name → later.nameOf? owner = some name
  types : ∀ type, later.nameOf? (.schemaType type) = earlier.nameOf? (.schemaType type)
  models : ∃ added, later.models.entries = earlier.models.entries ++ added

theorem Grows.refl (catalog : Catalog) : catalog.Grows catalog :=
  ⟨fun _ _ => id, fun _ => rfl, [], (List.append_nil _).symm⟩

theorem Grows.trans {first second third : Catalog} (earlier : first.Grows second)
    (later : second.Grows third) : first.Grows third := by
  obtain ⟨added, entries⟩ := earlier.models
  obtain ⟨added', entries'⟩ := later.models
  exact ⟨fun owner name known => later.names owner name (earlier.names owner name known),
    fun type => (later.types type).trans (earlier.types type),
    added ++ added', by rw [entries', entries, List.append_assoc]⟩

theorem Grows.model {earlier later : Catalog} (grows : earlier.Grows later) {name : String}
    {model : TypeModel} (found : earlier.models.get? name = some model) :
    later.models.get? name = some model := by
  obtain ⟨added, entries⟩ := grows.models
  rw [OrderedMap.get?] at found ⊢
  rw [entries, List.lookup_append, found, Option.some_or]

theorem models_allot (catalog : Catalog) (owner : NameOwner) (proposed : String)
    (avoided : List String) : (catalog.allot owner proposed avoided).2.models = catalog.models := by
  rw [allot]
  split <;> rfl

theorem grows_allot (catalog : Catalog) (owner : NameOwner) (proposed : String)
    (avoided : List String) (position : owner.path?.isSome = true) :
    catalog.Grows (catalog.allot owner proposed avoided).2 := by
  refine ⟨fun other name known => ?_, fun type => ?_, [], by rw [models_allot, List.append_nil]⟩
  · by_cases same : other = owner
    · subst same
      rw [allot_of_named known]
      exact known
    · rw [nameOf?_allot_of_ne same, known]
  · refine nameOf?_allot_of_ne fun same => ?_
    rw [← same] at position
    cases position

/-! ## Fields -/

/-- The model tells what the planned field selected. The model of a composite value has the name
of the value's position, and the model of an enum the name of the enum's type, if it has one. -/
structure NamesField (catalog : Catalog) (field : PlannedField) (model : OutputFieldModel) :
    Prop where
  responseName : model.responseName = field.occurrences.responseName
  fieldName : model.fieldName = field.occurrences.first.definition.name
  description : model.description = field.occurrences.first.definition.description
  fieldType : model.fieldType = field.occurrences.first.definition.type.render
  path : model.path = field.occurrences.path
  scalar : field.value = .scalar → model.typeModel = none
  enum : field.value = .enum →
    model.typeModel = catalog.nameOf? (.schemaType field.occurrences.namedType)
  composite : field.value = .composite → ∃ name, model.typeModel = some name ∧
    catalog.nameOf? (.field field.occurrences.path) = some name

theorem NamesField.mono {earlier later : Catalog} (grows : earlier.Grows later)
    {field : PlannedField} {model : OutputFieldModel} (named : earlier.NamesField field model) :
    later.NamesField field model :=
  { named with
    enum := fun value => (named.enum value).trans (grows.types _).symm
    composite := fun value =>
      (named.composite value).imp fun name ⟨same, known⟩ => ⟨same, grows.names _ name known⟩ }

theorem grows_nameField (catalog : Catalog) (avoided : List String) (field : PlannedField) :
    catalog.Grows (catalog.nameField avoided field).2 := by
  rw [nameField]
  cases field.value with
  | scalar => exact .refl catalog
  | enum => exact .refl catalog
  | composite => exact catalog.grows_allot _ _ avoided rfl

theorem models_nameField (catalog : Catalog) (avoided : List String) (field : PlannedField) :
    (catalog.nameField avoided field).2.models = catalog.models := by
  rw [nameField]
  cases field.value with
  | scalar => rfl
  | enum => rfl
  | composite => exact catalog.models_allot _ _ avoided

theorem namesField_nameField (catalog : Catalog) (avoided : List String) (field : PlannedField) :
    (catalog.nameField avoided field).2.NamesField field (catalog.nameField avoided field).1 := by
  cases value : field.value with
  | scalar =>
      constructor <;> simp [nameField, value, Occurrences.responseName, Occurrences.path]
  | enum =>
      constructor <;>
        simp [nameField, value, Occurrences.responseName, Occurrences.path, Occurrences.namedType]
  | composite =>
      constructor <;> simp [nameField, value, Occurrences.responseName, Occurrences.path]
      exact catalog.nameOf?_allot_self _ _ avoided

theorem grows_nameFields (catalog : Catalog) (avoided : List String)
    (fields : List PlannedField) : catalog.Grows (catalog.nameFields avoided fields).2 := by
  induction fields generalizing catalog with
  | nil => exact .refl catalog
  | cons field rest ih => exact (catalog.grows_nameField avoided field).trans (ih _)

theorem models_nameFields (catalog : Catalog) (avoided : List String)
    (fields : List PlannedField) :
    (catalog.nameFields avoided fields).2.models = catalog.models := by
  induction fields generalizing catalog with
  | nil => rfl
  | cons field rest ih => exact (ih _).trans (catalog.models_nameField avoided field)

/-- **Fields are named one by one.** -/
theorem namesField_nameFields (catalog : Catalog) (avoided : List String)
    (fields : List PlannedField) :
    List.Forall₂ (catalog.nameFields avoided fields).2.NamesField fields
      (catalog.nameFields avoided fields).1 := by
  induction fields generalizing catalog with
  | nil => exact .nil
  | cons field rest ih =>
      have later := grows_nameFields (catalog.nameField avoided field).2 avoided rest
      exact .cons ((catalog.namesField_nameField avoided field).mono later) (ih _)

/-! ## Variants -/

/-- The model tells what is selected on values of the variant's object type. -/
structure NamesVariant (catalog : Catalog) (variant : Variant PlannedField) (model : ObjectModel) :
    Prop where
  schemaType : model.schemaType = variant.typeName
  fields : List.Forall₂ catalog.NamesField variant.fields model.fields

theorem NamesVariant.mono {earlier later : Catalog} (grows : earlier.Grows later)
    {variant : Variant PlannedField} {model : ObjectModel}
    (named : earlier.NamesVariant variant model) : later.NamesVariant variant model :=
  ⟨named.schemaType, named.fields.imp fun _ _ => NamesField.mono grows⟩

theorem grows_nameVariants (schema : Schema) (catalog : Catalog) (avoided : List String)
    (path : Path) (variants : List (Variant PlannedField)) :
    catalog.Grows (nameVariants schema catalog avoided path variants).2 := by
  induction variants generalizing catalog with
  | nil => exact .refl catalog
  | cons variant rest ih =>
      refine Grows.trans ?_ (ih _)
      exact (catalog.grows_allot _ variant.typeName avoided rfl).trans
        (grows_nameFields _ avoided _)

theorem models_nameVariants (schema : Schema) (catalog : Catalog) (avoided : List String)
    (path : Path) (variants : List (Variant PlannedField)) :
    (nameVariants schema catalog avoided path variants).2.models = catalog.models := by
  induction variants generalizing catalog with
  | nil => rfl
  | cons variant rest ih =>
      refine (ih _).trans ((models_nameFields _ avoided variant.fields).trans ?_)
      exact catalog.models_allot _ _ avoided

/-- **Variants are named one by one.** -/
theorem namesVariant_nameVariants (schema : Schema) (catalog : Catalog) (avoided : List String)
    (path : Path) (variants : List (Variant PlannedField)) :
    List.Forall₂ (nameVariants schema catalog avoided path variants).2.NamesVariant variants
      (nameVariants schema catalog avoided path variants).1 := by
  induction variants generalizing catalog with
  | nil => exact .nil
  | cons variant rest ih =>
      refine .cons ⟨rfl, ?_⟩ (ih _)
      refine (namesField_nameFields _ avoided variant.fields).imp fun _ _ => ?_
      exact NamesField.mono (grows_nameVariants schema _ avoided path rest)

/-! ## Adding models -/

theorem add_eq_ok_iff {catalog later : Catalog} {model : TypeModel} :
    catalog.add model = .ok later ↔ model.name ∉ catalog.models.keys ∧
      later = { catalog with models := catalog.models.insert model.name model } := by
  rw [add]
  by_cases known : catalog.models.contains model.name = true
  · simp [known, OrderedMap.contains_iff_mem_keys.mp known]
  · have absent : model.name ∉ catalog.models.keys := fun member =>
      known (OrderedMap.contains_iff_mem_keys.mpr member)
    simp [known, absent, eq_comm]

theorem addAll_singleton (catalog : Catalog) (model : TypeModel) :
    catalog.addAll [model] = catalog.add model := by
  rw [addAll, List.foldlM_cons]
  cases catalog.add model <;> rfl

/-- **Models are added behind those that are there, under names that are not.** -/
theorem addAll_eq_ok {catalog later : Catalog} {models : List TypeModel}
    (added : catalog.addAll models = .ok later) :
    later.allotments = catalog.allotments ∧
      later.models.entries =
        catalog.models.entries ++ models.map (fun model => (model.name, model)) ∧
      (catalog.models.keys.Nodup → later.models.keys.Nodup) := by
  induction models generalizing catalog with
  | nil =>
      obtain rfl := Except.ok.inj added
      exact ⟨rfl, (List.append_nil _).symm, id⟩
  | cons model rest ih =>
      rw [addAll, List.foldlM_cons, bind_eq_ok_iff] at added
      obtain ⟨next, first, others⟩ := added
      obtain ⟨absent, rfl⟩ := add_eq_ok_iff.mp first
      obtain ⟨allotments, entries, distinct⟩ := ih others
      refine ⟨allotments, ?_, fun before => distinct ?_⟩
      · rw [entries, OrderedMap.entries_insert_of_absent absent, List.append_assoc]
        rfl
      · rw [OrderedMap.keys_insert]
        exact OrderedSet.nodup_add before

/-- Every model that was added is found by its name. -/
theorem get?_of_addAll {catalog later : Catalog} {models : List TypeModel}
    (added : catalog.addAll models = .ok later) :
    ∀ model ∈ models, later.models.get? model.name = some model := by
  induction models generalizing catalog with
  | nil => simp
  | cons first rest ih =>
      rw [addAll, List.foldlM_cons, bind_eq_ok_iff] at added
      obtain ⟨next, adding, others⟩ := added
      intro model member
      rcases List.mem_cons.mp member with rfl | isLater
      · obtain ⟨absent, rfl⟩ := add_eq_ok_iff.mp adding
        obtain ⟨_, entries, _⟩ := addAll_eq_ok others
        rw [OrderedMap.get?, entries, List.lookup_append]
        have here : (catalog.models.insert model.name model).get? model.name = some model := by
          rw [OrderedMap.get?_insert, if_pos rfl]
        rw [OrderedMap.get?] at here
        rw [here, Option.some_or]
      · exact ih others model isLater

theorem nameOf?_of_allotments {catalog later : Catalog}
    (same : later.allotments = catalog.allotments) (owner : NameOwner) :
    later.nameOf? owner = catalog.nameOf? owner := by
  rw [nameOf?, nameOf?, same]

theorem grows_addAll {catalog later : Catalog} {models : List TypeModel}
    (added : catalog.addAll models = .ok later) : catalog.Grows later := by
  obtain ⟨allotments, entries, _⟩ := addAll_eq_ok added
  exact ⟨fun owner name known => (nameOf?_of_allotments allotments owner).trans known,
    fun type => nameOf?_of_allotments allotments _, _, entries⟩

/-! ## Plans -/

/-- The model tells what is selected on an interface or a union, and names the models of its
variants. -/
structure NamesAbstract (catalog : Catalog) (type : TypeDefinition)
    (variants : List (Variant PlannedField)) (shared : List PlannedField) (model : AbstractModel)
    (objects : List ObjectModel) : Prop where
  schemaType : model.schemaType = type.name
  fields : List.Forall₂ catalog.NamesField shared model.fields
  implementations : model.implementations = objects.map ObjectModel.name
  variants : List.Forall₂ catalog.NamesVariant variants objects

/-- The model of a planned position, and the models of its implementations. -/
inductive NamesPlan (catalog : Catalog) : Plan → TypeModel → List ObjectModel → Prop where
  | object {type : TypeDefinition} {fields : List PlannedField} {model : ObjectModel} :
      catalog.NamesVariant ⟨type.name, fields⟩ model →
        NamesPlan catalog (.object type fields) (.object model) []
  | interface {type : TypeDefinition} {variants : List (Variant PlannedField)}
      {shared : List PlannedField} {tasks : List Task} {model : AbstractModel}
      {objects : List ObjectModel} :
      catalog.NamesAbstract type variants shared model objects →
        NamesPlan catalog (.interface type variants shared tasks) (.interface model) objects
  | union {type : TypeDefinition} {variants : List (Variant PlannedField)}
      {shared : List PlannedField} {tasks : List Task} {model : AbstractModel}
      {objects : List ObjectModel} :
      catalog.NamesAbstract type variants shared model objects →
        NamesPlan catalog (.union type variants shared tasks) (.union model) objects

theorem NamesAbstract.mono {earlier later : Catalog} (grows : earlier.Grows later)
    {type : TypeDefinition} {variants : List (Variant PlannedField)} {shared : List PlannedField}
    {model : AbstractModel} {objects : List ObjectModel}
    (named : earlier.NamesAbstract type variants shared model objects) :
    later.NamesAbstract type variants shared model objects :=
  { named with
    fields := named.fields.imp fun _ _ => NamesField.mono grows
    variants := named.variants.imp fun _ _ => NamesVariant.mono grows }

theorem NamesPlan.mono {earlier later : Catalog} (grows : earlier.Grows later) {plan : Plan}
    {own : TypeModel} {objects : List ObjectModel} (named : earlier.NamesPlan plan own objects) :
    later.NamesPlan plan own objects := by
  cases named with
  | object variant => exact .object (variant.mono grows)
  | interface parts => exact .interface (parts.mono grows)
  | union parts => exact .union (parts.mono grows)

/-- An interface or a union is named, then its variants, then its own fields. -/
theorem namesAbstract_nameAbstract (schema : Schema) (catalog : Catalog) (avoided : List String)
    (path : Path) (type : TypeDefinition) (variants : List (Variant PlannedField))
    (shared : List PlannedField) :
    let named := nameAbstract schema catalog avoided path type variants shared
    catalog.Grows named.2.2 ∧ named.2.2.NamesAbstract type variants shared named.1 named.2.1 ∧
      named.2.2.nameOf? (.field path) = some named.1.name := by
  intro named
  have position := catalog.grows_allot (.field path) type.name avoided rfl
  have own := grows_nameVariants schema (catalog.allot (.field path) type.name avoided).2 avoided
    path variants
  have onType := grows_nameFields (nameVariants schema
    (catalog.allot (.field path) type.name avoided).2 avoided path variants).2 avoided shared
  refine ⟨(position.trans own).trans onType, ⟨rfl, namesField_nameFields _ avoided shared, rfl, ?_⟩,
    ?_⟩
  · exact (namesVariant_nameVariants schema _ avoided path variants).imp
      fun _ _ => NamesVariant.mono onType
  · exact (own.trans onType).names _ _ (catalog.nameOf?_allot_self _ _ avoided)

theorem models_nameAbstract (schema : Schema) (catalog : Catalog) (avoided : List String)
    (path : Path) (type : TypeDefinition) (variants : List (Variant PlannedField))
    (shared : List PlannedField) :
    (nameAbstract schema catalog avoided path type variants shared).2.2.models =
      catalog.models := by
  refine (models_nameFields _ avoided shared).trans ?_
  exact (models_nameVariants schema _ avoided path variants).trans
    (catalog.models_allot _ _ avoided)

end Catalog

/-! ## Realizing a plan -/

/-- The models of a position: its own, then those of its implementations. -/
def TypeModel.entries (own : TypeModel) (objects : List ObjectModel) :
    List (String × TypeModel) :=
  (own :: objects.map TypeModel.object).map (fun model => (model.name, model))

namespace Progress

/-- The models of a planned position were named and added; the position's own model has the name
that was given to the owner. -/
structure Realizes (before after : Progress) (owner : NameOwner) (path : Path) (plan : Plan)
    (own : TypeModel) (objects : List ObjectModel) : Prop where
  grows : before.catalog.Grows after.catalog
  names : after.catalog.NamesPlan plan own objects
  owner : after.catalog.nameOf? owner = some own.name
  paths : after.paths = before.paths.insert path own.name
  models : after.catalog.models.entries =
    before.catalog.models.entries ++ own.entries objects
  registered : ∀ entry ∈ own.entries objects, after.catalog.models.get? entry.1 = some entry.2
  distinct : before.catalog.models.keys.Nodup → after.catalog.models.keys.Nodup

variable {before after : Progress} {schema : Schema} {avoided : List String} {path : Path}

theorem realizes_of_addModels (before : Progress) (path : Path) {owner : NameOwner}
    {catalog : Catalog} {plan : Plan} {own : TypeModel} {objects : List ObjectModel}
    (grows : before.catalog.Grows catalog)
    (models : catalog.models = before.catalog.models) (named : catalog.NamesPlan plan own objects)
    (owned : catalog.nameOf? owner = some own.name)
    (added : before.addModels path catalog own objects = .ok after) :
    before.Realizes after owner path plan own objects := by
  obtain ⟨extended, adding, same⟩ := bind_eq_ok_iff.mp added
  obtain rfl := Except.ok.inj same
  have later := Catalog.grows_addAll adding
  obtain ⟨_, entries, distinct⟩ := Catalog.addAll_eq_ok adding
  rw [models] at entries distinct
  refine ⟨grows.trans later, named.mono later, later.names _ _ owned, rfl, entries,
    fun entry member => ?_, distinct⟩
  obtain ⟨model, isModel, rfl⟩ := List.mem_map.mp member
  exact Catalog.get?_of_addAll adding model isModel

/-- **Realizing a plan names its models and adds them.** -/
theorem realizes_of_realize {plan : Plan} (planned : plan ≠ .leaf)
    (realized : before.realize schema avoided path plan = .ok after) :
    ∃ own objects, before.Realizes after (.field path) path plan own objects := by
  cases plan with
  | leaf => exact absurd rfl planned
  | object type fields =>
      have allotted := before.catalog.grows_allot (.field path) type.name avoided rfl
      have fieldsGrow := Catalog.grows_nameFields
        (before.catalog.allot (.field path) type.name avoided).2 avoided fields
      refine ⟨_, [], realizes_of_addModels before path (allotted.trans fieldsGrow) ?_
        (.object ⟨rfl, ?_⟩) ?_ realized⟩
      · exact (Catalog.models_nameFields _ avoided fields).trans
          (before.catalog.models_allot _ _ avoided)
      · exact Catalog.namesField_nameFields _ avoided fields
      · exact fieldsGrow.names _ _ (before.catalog.nameOf?_allot_self _ _ avoided)
  | interface type variants shared tasks =>
      obtain ⟨grows, named, owned⟩ := Catalog.namesAbstract_nameAbstract schema before.catalog
        avoided path type variants shared
      exact ⟨_, _, realizes_of_addModels before path grows
        (Catalog.models_nameAbstract schema before.catalog avoided path type variants shared)
        (.interface named) owned realized⟩
  | union type variants shared tasks =>
      obtain ⟨grows, named, owned⟩ := Catalog.namesAbstract_nameAbstract schema before.catalog
        avoided path type variants shared
      exact ⟨_, _, realizes_of_addModels before path grows
        (Catalog.models_nameAbstract schema before.catalog avoided path type variants shared)
        (.union named) owned realized⟩

end Progress

end ResponseShape

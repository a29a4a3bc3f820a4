import ResponseShape.Proofs.References
import ResponseShape.Proofs.UsedNames

/-!
# All models of a document model, in order

The models of a document model are those of the enums in use, then those of the input objects in
use, then those that the operations place (`DocumentModel.placements`): at every position of an
operation the model that its path names, followed by the models of its implementations
(`DocumentModel.Inventory`, `AnalysisRequest.exists_inventory_of_analyze`). There are no other
models, and no two places have the same model.

The paths of an operation come in the order in which its positions were built
(`Environment.Builds.positions`). A path is inserted once, because it tells the name of its model
(`Built.nodup_paths`) and no model is added twice.
-/

set_option autoImplicit false

namespace ResponseShape

/-! ## Placements -/

/-- The model is of a value of a response: neither an enum nor an input object. -/
def TypeModel.isResponse : TypeModel → Bool
  | enum _ | input _ => false
  | object _ | interface _ | union _ => true

/-- What a response model is made for: a position, or one object type that the value at the
position can have. -/
structure Place where
  path : Path
  typeName : Option String
  deriving DecidableEq

/-- A position that was built, with the name of its model. -/
def Built.position (built : Built) : Path × String :=
  (built.task.path, built.own.name)

/-- The places of a position that was built, each with the name of its model. -/
def Built.placements (built : Built) : List (Place × String) :=
  (⟨built.task.path, none⟩, built.own.name) ::
    built.objects.map (fun object => (⟨built.task.path, some object.schemaType⟩, object.name))

namespace DocumentModel

/-- The position itself, then the object types of its model's implementations, each with the name
of its model. -/
def placementsAt (document : DocumentModel) (position : Path × String) : List (Place × String) :=
  (⟨position.1, none⟩, position.2) ::
    ((document.type? position.2).elim [] TypeModel.implementations).map
      (fun name => (⟨position.1, (document.type? name).map TypeModel.schemaType⟩, name))

/-- What the operations place: operation by operation, position by position. -/
def placements (document : DocumentModel) : List (Place × String) :=
  (document.operations.flatMap (fun operation => operation.paths.entries)).flatMap
    document.placementsAt

end DocumentModel

/-- The entry is what the placement names: a response model under its own name, and at an object
type the object model of this type. -/
structure Fills (placement : Place × String) (entry : String × TypeModel) : Prop where
  key : entry.1 = placement.2
  name : entry.2.name = entry.1
  response : entry.2.isResponse = true
  typeName : ∀ typeName, placement.1.typeName = some typeName →
    ∃ object, entry.2 = .object object ∧ object.schemaType = typeName

/-- The models in order: first the enums in use, then the input objects in use, then what the
operations place. No two models have one name, and no two placements one place. -/
structure DocumentModel.Inventory (document : DocumentModel) (schema : Schema) (usage : TypeUsage)
    (operations : List OperationDefinition) (enums : List EnumModel) (inputs : List InputModel)
    (placed : List (String × TypeModel)) : Prop where
  entries : document.types.entries =
    (enums.map TypeModel.enum ++ inputs.map TypeModel.input).map (fun model => (model.name, model))
      ++ placed
  distinct : document.types.keys.Nodup
  enumModels : List.Forall₂ (fun type model => type.enumModel model.name = .ok model)
    (usage.enumTypes schema) enums
  enumNames : enums.map EnumModel.schemaType = usage.enums
  inputModels : List.Forall₂ (fun type model => type.inputModel model.name = .ok model)
    (usage.inputTypes schema) inputs
  inputNames : inputs.map InputModel.schemaType = usage.inputs
  operationModels : operations.map (fun operation => (operation.name, operation.kind)) =
    document.operations.map (fun model => (some model.name, model.kind))
  placed : List.Forall₂ Fills document.placements placed
  places : (document.placements.map Prod.fst).Nodup

/-- **Every response model belongs to exactly one place.** -/
theorem DocumentModel.Inventory.existsUnique_place {document : DocumentModel} {schema : Schema}
    {usage : TypeUsage} {operations : List OperationDefinition} {enums : List EnumModel}
    {inputs : List InputModel} {placed : List (String × TypeModel)}
    (inventory : document.Inventory schema usage operations enums inputs placed)
    {entry : String × TypeModel} (member : entry ∈ document.types.entries)
    (response : entry.2.isResponse = true) :
    ∃! place, (place, entry.1) ∈ document.placements := by
  have distinct : (document.placements.map Prod.snd).Nodup := by
    have names : document.placements.map Prod.snd = placed.map Prod.fst :=
      forall₂_map_eq (fun _ _ fills => fills.key.symm) inventory.placed
    have keys := inventory.distinct
    rw [OrderedMap.keys, inventory.entries, List.map_append] at keys
    rw [names]
    exact (List.nodup_append.mp keys).2.1
  have isPlaced : entry ∈ placed := by
    rw [inventory.entries, List.mem_append] at member
    refine member.resolve_left fun ofType => ?_
    obtain ⟨model, isModel, rfl⟩ := List.mem_map.mp ofType
    rcases List.mem_append.mp isModel with isEnum | isInput
    · obtain ⟨_, _, rfl⟩ := List.mem_map.mp isEnum
      cases response
    · obtain ⟨_, _, rfl⟩ := List.mem_map.mp isInput
      cases response
  obtain ⟨⟨place, name⟩, isPlacement, fills⟩ := exists_left_of_mem inventory.placed isPlaced
  obtain rfl : entry.1 = name := fills.key
  refine ⟨place, isPlacement, fun other isOther => ?_⟩
  have same := List.inj_on_of_nodup_map distinct isOther isPlacement rfl
  exact (Prod.mk.inj same).1

/-! ## Models of the types in use -/

namespace TypeUsage.Known

variable {schema : Schema} {usage : TypeUsage}

/-- The models of the enums in use are of the enums in use. -/
theorem map_schemaType_enums (known : Known schema usage) {enums : List EnumModel}
    (made : List.Forall₂ (fun type model => type.enumModel model.name = .ok model)
      (usage.enumTypes schema) enums) :
    enums.map EnumModel.schemaType = usage.enums := by
  have names : (usage.enumTypes schema).map TypeDefinition.name = enums.map EnumModel.schemaType :=
    forall₂_map_eq (fun _ _ here => (TypeDefinition.names_of_enumModel here).2.symm) made
  rw [← names, known.map_name_enumTypes]

/-- The models of the input objects in use are of the input objects in use. -/
theorem map_schemaType_inputs (known : Known schema usage) {inputs : List InputModel}
    (made : List.Forall₂ (fun type model => type.inputModel model.name = .ok model)
      (usage.inputTypes schema) inputs) :
    inputs.map InputModel.schemaType = usage.inputs := by
  have names : (usage.inputTypes schema).map TypeDefinition.name =
      inputs.map InputModel.schemaType :=
    forall₂_map_eq (fun _ _ here => (TypeDefinition.names_of_inputModel here).2.symm) made
  rw [← names, known.map_name_inputTypes]

end TypeUsage.Known

namespace Catalog

variable {schema : Schema} {catalog later : Catalog} {avoided : List String}

/-- **The models of types are added in the order of the types.** Each is made under the name that
its type was given. -/
theorem exists_items_of_addBuilt {α : Type} {make : TypeDefinition → String → Outcome α}
    {wrap : α → TypeModel} {location : TypeDefinition → String}
    {types : List TypeDefinition}
    (added : addBuilt (fun catalog type => catalog.buildNamed avoided type (location type)
      (fun name => (make type name).map wrap)) catalog types = (.ok (), later))
    (keepsName : ∀ type name item, make type name = .ok item → (wrap item).name = name) :
    ∃ items, List.Forall₂ (fun type item => make type (wrap item).name = .ok item) types items ∧
      later.models.entries =
        catalog.models.entries ++ (items.map wrap).map (fun model => (model.name, model)) := by
  induction types generalizing catalog with
  | nil =>
      obtain ⟨_, rfl⟩ := Prod.mk.inj added
      exact ⟨[], .nil, (List.append_nil _).symm⟩
  | cons type rest ih =>
      obtain ⟨model, between, built, absent, others⟩ := exists_add_of_addBuilt added
      obtain ⟨name, success, models, _, _⟩ := of_buildNamed built
      obtain ⟨item, made, rfl⟩ := map_eq_ok_iff.mp success
      obtain rfl := keepsName type name item made
      obtain ⟨items, madeRest, entries⟩ := ih others
      refine ⟨item :: items, .cons made madeRest, ?_⟩
      rw [entries, OrderedMap.entries_insert_of_absent absent, models, List.append_assoc]
      rfl

/-- **The catalog that operations start with has the models of the enums in use, then those of the
input objects in use.** -/
theorem exists_models_of_ofUsage {usage : TypeUsage}
    (built : ofUsage schema usage avoided = .ok catalog) :
    ∃ enums inputs,
      List.Forall₂ (fun type (model : EnumModel) => type.enumModel model.name = .ok model)
        (usage.enumTypes schema) enums ∧
      List.Forall₂ (fun type (model : InputModel) => type.inputModel model.name = .ok model)
        (usage.inputTypes schema) inputs ∧
      catalog.models.entries = (enums.map TypeModel.enum ++ inputs.map TypeModel.input).map
        (fun model => (model.name, model)) := by
  obtain ⟨withEnums, addedEnums, addedInputs⟩ := exists_of_ofUsage built
  obtain ⟨enums, enumModels, enumEntries⟩ := exists_items_of_addBuilt addedEnums
    fun _ _ _ made => (TypeDefinition.names_of_enumModel made).1
  obtain ⟨inputs, inputModels, entries⟩ := exists_items_of_addBuilt addedInputs
    fun _ _ _ made => (TypeDefinition.names_of_inputModel made).1
  refine ⟨enums, inputs, enumModels, inputModels, ?_⟩
  rw [entries, enumEntries, List.map_append]
  rfl

end Catalog

/-! ## Positions in order -/

/-- **Positions have different paths when their paths tell the names of their models**, because no
model is added twice. -/
theorem Built.nodup_paths {history : List Built} (nameAt : Path → Option String)
    (distinct : ((history.flatMap Built.entries).map Prod.fst).Nodup)
    (told : ∀ built ∈ history, nameAt built.task.path = some built.own.name) :
    (history.map (fun built => built.task.path)).Nodup := by
  rw [List.map_flatMap] at distinct
  refine List.pairwise_map.mpr ((List.pairwise_flatMap.mp distinct).2.imp_of_mem ?_)
  intro first second isFirst isSecond apart samePath
  have sameName : some first.own.name = some second.own.name := by
    rw [← told first isFirst, samePath, told second isSecond]
  exact apart _ List.mem_cons_self _ List.mem_cons_self (Option.some.inj sameName)

namespace Environment

variable {environment : Environment} {catalog later : Catalog}
  {operation : OperationDefinition} {model : OperationModel} {history : List Built}

namespace Runs

variable {before final : Progress} {queue : List Task}

/-- The paths of a run are those of its positions, in their order, when none of them is there at
the start. -/
theorem positions (runs : environment.Runs before queue history final)
    (absent : ∀ built ∈ history, built.task.path ∉ before.paths.keys)
    (distinct : (history.map (fun built => built.task.path)).Nodup) :
    final.paths.entries = before.paths.entries ++ history.map Built.position := by
  induction runs with
  | done => exact (List.append_nil _).symm
  | @step before _ _ task _ own _ _ _ _ realized _ ih =>
      rw [List.map_cons, List.nodup_cons] at distinct
      have new : task.path ∉ before.paths.keys := absent _ List.mem_cons_self
      have later := ih (fun built member => ?_) distinct.2
      · rw [later, realized.paths, OrderedMap.entries_insert_of_absent new, List.append_assoc]
        rfl
      · rw [realized.paths, OrderedMap.keys_insert, OrderedSet.mem_add, not_or]
        refine ⟨absent built (List.mem_cons_of_mem _ member), fun same => distinct.1 ?_⟩
        exact same ▸ List.mem_map_of_mem member

end Runs

/-- **The paths of an operation are those of its positions, in the order in which they were
built.** -/
theorem Builds.positions (builds : environment.Builds catalog operation later model history)
    (start : catalog.models.keys.Nodup) : model.paths.entries = history.map Built.position := by
  cases builds with
  | @intro _ _ _ _ _ final _ _ found plans realized runs =>
      have distinct := runs.distinct (realized.distinct start)
      rw [OrderedMap.keys, runs.models, List.map_append] at distinct
      have paths := Built.nodup_paths (fun path => final.catalog.nameOf? (.field path))
        (List.nodup_append.mp distinct).2.1 fun built member => (runs.names built member).2
      have rootOnly := realized.paths
      rw [runs.positions (fun built member => ?_) paths, rootOnly]
      · rfl
      · -- every other position lies deeper than the root
        rw [rootOnly, OrderedMap.keys_insert, OrderedSet.mem_add, not_or]
        have deep := one_lt_depth_of_runs found plans runs built member
        refine ⟨List.not_mem_nil, fun same => ?_⟩
        rw [same] at deep
        exact Nat.lt_irrefl 1 deep

end Environment

namespace Catalog

variable {catalog : Catalog} {plan : Plan} {own : TypeModel} {objects : List ObjectModel}

namespace NamesPlan

/-- The model of a position names the models of its variants as implementations. -/
theorem implementations_eq (named : catalog.NamesPlan plan own objects) :
    own.implementations = objects.map ObjectModel.name := by
  cases named with
  | object => rfl
  | interface parts | union parts => exact parts.implementations

theorem isResponse (named : catalog.NamesPlan plan own objects) : own.isResponse = true := by
  cases named <;> rfl

/-- The models of the variants are of different types when the variants are. -/
theorem nodup_schemaTypes (named : catalog.NamesPlan plan own objects)
    (distinct : (plan.variants.map Variant.typeName).Nodup) :
    (objects.map ObjectModel.schemaType).Nodup := by
  cases named with
  | object => exact List.nodup_nil
  | interface parts | union parts =>
      have types : objects.map ObjectModel.schemaType = _ :=
        forall₂_map_eq (fun _ _ variant => variant.schemaType) parts.variants.flip
      rw [types]
      exact distinct

end NamesPlan

end Catalog

namespace Built

variable {catalog : Catalog} {built : Built}

/-- The placements at a position that was built are read back from its model. -/
theorem placementsAt_position {document : DocumentModel}
    (named : catalog.NamesPlan built.plan built.own built.objects)
    (registers : catalog.Registers built.own built.objects)
    (types : document.types = catalog.models) :
    document.placementsAt built.position = built.placements := by
  have own : document.type? built.own.name = some built.own := by
    rw [DocumentModel.type?, types]
    exact registers.get?_own
  rw [DocumentModel.placementsAt, position, own, Option.elim, named.implementations_eq,
    List.map_map, placements]
  refine congrArg _ (List.map_congr_left fun object member => ?_)
  have found : document.type? object.name = some (.object object) := by
    rw [DocumentModel.type?, types]
    exact registers.get?_object member
  rw [Function.comp_apply, found]
  rfl

/-- The models of a position fill its places. -/
theorem fills (named : catalog.NamesPlan built.plan built.own built.objects) :
    List.Forall₂ Fills built.placements built.entries := by
  refine .cons ⟨rfl, rfl, named.isResponse, nofun⟩ ?_
  rw [List.map_map, List.forall₂_map_left_iff, List.forall₂_map_right_iff, List.forall₂_same]
  intro object _
  refine ⟨rfl, rfl, rfl, fun typeName same => ⟨object, rfl, ?_⟩⟩
  exact Option.some.inj same

theorem path_of_mem_placements {placement : Place × String}
    (member : placement ∈ built.placements) : placement.1.path = built.task.path := by
  rcases List.mem_cons.mp member with rfl | ofType
  · rfl
  · obtain ⟨object, _, rfl⟩ := List.mem_map.mp ofType
    rfl

/-- The places of one position differ. -/
theorem nodup_places (distinct : (built.objects.map ObjectModel.schemaType).Nodup) :
    (built.placements.map Prod.fst).Nodup := by
  rw [placements, List.map_cons, List.map_map, List.nodup_cons]
  constructor
  · intro member
    obtain ⟨object, _, same⟩ := List.mem_map.mp member
    cases same
  · have types : (built.objects.map ObjectModel.schemaType).map
        (fun typeName => (⟨built.task.path, some typeName⟩ : Place)) =
          built.objects.map (Prod.fst ∘ fun object =>
            ((⟨built.task.path, some object.schemaType⟩ : Place), object.name)) := List.map_map
    rw [← types]
    exact distinct.map fun _ _ same => Option.some.inj (Place.mk.inj same).2

end Built

/-! ## All positions of all operations -/

namespace Environment.BuildsAll

variable {environment : Environment} {catalog later : Catalog}
  {operations : List OperationDefinition} {models : List OperationModel}
  {histories : List (List Built)}

/-- **The positions of all operations in order.** -/
theorem positions (builds : environment.BuildsAll catalog operations later models histories)
    (start : catalog.models.keys.Nodup) :
    models.flatMap (fun model => model.paths.entries) = histories.flatten.map Built.position := by
  induction builds with
  | nil => rfl
  | cons first _ ih =>
      rw [List.flatMap_cons, List.flatten_cons, List.map_append, first.positions start,
        ih (first.distinct start)]

/-- What holds of a position in the final catalog. -/
theorem of_mem_flatten (builds : environment.BuildsAll catalog operations later models histories)
    {built : Built} (member : built ∈ histories.flatten) :
    later.NamesPlan built.plan built.own built.objects ∧
      later.Registers built.own built.objects ∧
      (built.objects.map ObjectModel.schemaType).Nodup := by
  obtain ⟨history, isHistory, inHistory⟩ := List.mem_flatten.mp member
  obtain ⟨_, _, _, _, _, _, here, grows⟩ := builds.exists_of_history history isHistory
  have named := here.names built inHistory
  obtain ⟨_, _, parts⟩ := here.exists_parts inHistory
  exact ⟨named.mono grows, fun entry isEntry =>
    grows.model (here.registered built inHistory entry isEntry),
    named.nodup_schemaTypes parts.nodup_typeNames⟩

/-- **Positions have different paths**, whether they are of one operation or of two: a path leads to
one model. -/
theorem nodup_paths (builds : environment.BuildsAll catalog operations later models histories)
    (start : catalog.models.keys.Nodup) :
    (histories.flatten.map (fun built => built.task.path)).Nodup := by
  have distinct := builds.distinct start
  rw [OrderedMap.keys, builds.models, List.map_append] at distinct
  refine Built.nodup_paths
    (fun path => (DocumentModel.typeAt? ⟨later.models, models⟩ path).map TypeModel.name)
    (List.nodup_append.mp distinct).2.1 fun built member => ?_
  have isPosition : built.position ∈ models.flatMap (fun model => model.paths.entries) := by
    rw [builds.positions start]
    exact List.mem_map_of_mem member
  obtain ⟨model, isModel, isEntry⟩ := List.mem_flatMap.mp isPosition
  obtain ⟨own, _, named, leads⟩ := builds.exists_model_of_path start model isModel _ isEntry
  exact (congrArg _ leads).trans (congrArg some named)

/-- **What the operations place is what was built at their positions.** -/
theorem placements_eq (builds : environment.BuildsAll catalog operations later models histories)
    (start : catalog.models.keys.Nodup) :
    DocumentModel.placements ⟨later.models, models⟩ =
      histories.flatten.flatMap Built.placements := by
  rw [DocumentModel.placements, builds.positions start, List.flatMap_map]
  refine List.flatMap_congr fun built member => ?_
  obtain ⟨named, registers, _⟩ := builds.of_mem_flatten member
  exact Built.placementsAt_position named registers rfl

/-- **Places differ**: those of one position by the type, those of two by the path. -/
theorem nodup_places (builds : environment.BuildsAll catalog operations later models histories)
    (start : catalog.models.keys.Nodup) :
    ((histories.flatten.flatMap Built.placements).map Prod.fst).Nodup := by
  rw [List.map_flatMap]
  refine List.pairwise_flatMap.mpr ⟨fun built member => ?_, ?_⟩
  · exact Built.nodup_places (builds.of_mem_flatten member).2.2
  · refine (List.pairwise_map.mp (builds.nodup_paths start)).imp ?_
    intro first second apart place inFirst other inSecond same
    obtain ⟨_, isFirst, rfl⟩ := List.mem_map.mp inFirst
    obtain ⟨_, isSecond, rfl⟩ := List.mem_map.mp inSecond
    rw [← Built.path_of_mem_placements isFirst, ← Built.path_of_mem_placements isSecond] at apart
    exact apart (congrArg Place.path same)

end Environment.BuildsAll

/-! ## Analyses -/

namespace Sample

/-- A pet can be wished for by the mood of its owner. -/
def wishSchema : Schema :=
  ⟨petSchema.definitions ++
    [.type ⟨"Wish", none, [], .inputObject [⟨"mood", .named "Mood", none, none, []⟩]⟩]⟩

/-- What kind of pet fulfils the wish. -/
def wishQuery : OperationDefinition :=
  { query "W" [pick "pet" [pick "__typename" []]] with
    variableDefinitions := [⟨"wish", .named "Wish", none⟩] }

def wishDocuments : List Document :=
  petDocuments ++ [[.operation wishQuery]]

/-- The places of the responses, after those of the enum and of the input object. -/
def wishPlacements : List (Place × String) :=
  [(⟨⟨["Q"]⟩, none⟩, "Q"), (⟨⟨["Q", "pet"]⟩, none⟩, "Pet1"),
    (⟨⟨["Q", "pet"]⟩, some "Dog"⟩, "Dog"), (⟨⟨["Q", "pet"]⟩, some "Cat"⟩, "Cat"),
    (⟨⟨["Q", "pet", "owner"]⟩, none⟩, "Person"), (⟨⟨["W"]⟩, none⟩, "W"),
    (⟨⟨["W", "pet"]⟩, none⟩, "Pet2"), (⟨⟨["W", "pet"]⟩, some "Dog"⟩, "Dog1"),
    (⟨⟨["W", "pet"]⟩, some "Cat"⟩, "Cat1")]

end Sample

namespace AnalysisRequest

variable {request : AnalysisRequest} {schema : Schema} {document : DocumentModel}

/-- **The models of an analysis are exactly those of the types in use and of the places, in that
order**, and every response model belongs to exactly one place. -/
theorem exists_inventory_of_analyze (given : request.schema = some schema)
    (analyzed : request.analyze = .ok document) :
    ∃ enums inputs placed,
      document.Inventory schema (TypeUsage.ofDocuments schema request.documents)
        (Document.operations request.documents) enums inputs placed ∧
      ∀ entry ∈ document.types.entries, entry.2.isResponse = true →
        ∃! place, (place, entry.1) ∈ document.placements := by
  obtain ⟨fragments, catalog, later, histories, _, used, builds, types⟩ :=
    exists_builds given analyzed
  have start := (Catalog.holdsTypes_of_ofUsage used).1.distinct
  have known := TypeUsage.known_ofDocuments schema request.documents
  obtain ⟨enums, inputs, enumModels, inputModels, entries⟩ :=
    Catalog.exists_models_of_ofUsage used
  obtain ⟨_, operations⟩ := document
  obtain rfl : _ = later.models := types
  have inventory : DocumentModel.Inventory ⟨later.models, operations⟩ schema
      (TypeUsage.ofDocuments schema request.documents) (Document.operations request.documents)
      enums inputs (histories.flatten.flatMap Built.entries) :=
    { entries := by rw [builds.models, entries]
      distinct := builds.distinct start
      enumModels := enumModels
      enumNames := known.map_schemaType_enums enumModels
      inputModels := inputModels
      inputNames := known.map_schemaType_inputs inputModels
      operationModels := builds.operations_eq
      placed := by
        rw [builds.placements_eq start]
        exact List.rel_flatMap (List.forall₂_same.mpr fun built member =>
          Built.fills (builds.of_mem_flatten member).1) fun _ _ fills => fills
      places := by
        rw [builds.placements_eq start]
        exact builds.nodup_places start }
  exact ⟨enums, inputs, _, inventory, fun _ => inventory.existsUnique_place⟩

open Sample in
theorem exists_inventory_of_wishes : ∃ document enums inputs placed,
    analyze ⟨some wishSchema, wishDocuments, ["Pet"]⟩ = .ok document ∧
      document.types.keys = ["Mood", "Wish"] ++ wishPlacements.map Prod.snd ∧
      document.placements = wishPlacements ∧
      document.Inventory wishSchema (TypeUsage.ofDocuments wishSchema wishDocuments)
        (Document.operations wishDocuments) enums inputs placed := by
  have analyzed : (analyze ⟨some wishSchema, wishDocuments, ["Pet"]⟩).map
      (fun document => (document.types.keys, document.placements)) = .ok
        (["Mood", "Wish"] ++ wishPlacements.map Prod.snd, wishPlacements) :=
    map_analyze_of_within 4 (by decide +kernel)
  obtain ⟨document, analyzed, same⟩ := map_eq_ok_iff.mp analyzed
  obtain ⟨keys, placements⟩ := Prod.mk.inj same
  obtain ⟨enums, inputs, placed, inventory, _⟩ := exists_inventory_of_analyze rfl analyzed
  exact ⟨document, enums, inputs, placed, analyzed, keys, placements, inventory⟩

end AnalysisRequest

end ResponseShape

import ResponseShape.Proofs.Allotting
import ResponseShape.Proofs.Inventory
import ResponseShape.Proofs.WellTyped

/-!
# Reserved names and the names of operations

Root models are given names that avoid the reserved ones, all other models names that also avoid the
class names of all operations. So what a catalog keeps is told by two things: what naming anything
but an operation keeps, and what adding a model under a name that was given keeps
(`Catalog.Kept`). Everything but the naming of roots is made of these two
(`Environment.Completes.holds_of_kept`).

The invariant is that reserved names are given to nobody, that only operations are given the class
names of operations, and that models have names that were given (`Catalog.Obeys`). It holds after
any operations were built, whatever names they found taken
(`Catalog.Obeys.obeys_of_completesAll`). When the class names of operations are distinct, an
operation therefore finds its own class name free
(`Catalog.Obeys.rootTypes_of_completesAll`).
-/

set_option autoImplicit false

namespace ResponseShape

/-- Whether the owner is an operation, whose name is the one of its root model. -/
def NameOwner.isRoot : NameOwner → Bool
  | operation _ => true
  | schemaType _ | field _ | variant _ _ => false

/-- The class names of the operations that have names, in their order. -/
def OperationDefinition.rootNames (operations : List OperationDefinition) : List String :=
  operations.filterMap (fun operation => operation.name.map Text.className)

theorem OperationDefinition.rootNames_cons {operation : OperationDefinition} {name : String}
    (named : operation.name = some name) (rest : List OperationDefinition) :
    rootNames (operation :: rest) = Text.className name :: rootNames rest :=
  List.filterMap_cons_some (by rw [named, Option.map_some])

/-- The names to avoid are the reserved ones and the class names of operations. -/
theorem NamePolicy.mem_avoided_iff {documents : List Document} {reserved : List String}
    {name : String} :
    name ∈ (NamePolicy.ofDocuments documents reserved).avoided ↔
      name ∈ reserved ∨ name ∈ OperationDefinition.rootNames (Document.operations documents) := by
  rw [ofDocuments, avoidedNames, OrderedSet.mem_addAll, OrderedSet.mem_ofList,
    OperationDefinition.rootNames]

/-! ## What naming and adding keep -/

namespace Catalog

variable {schema : Schema} {catalog later : Catalog} {avoided : List String}
  {holds : Catalog → Prop}

/-- What holds of a catalog goes on to hold when anything but an operation is given a name that is
none of those to avoid, and when a model is added under a name that was given. -/
structure Kept (avoided : List String) (holds : Catalog → Prop) : Prop where
  allot : ∀ (catalog : Catalog) (owner : NameOwner) (proposed : String), owner.isRoot = false →
    holds catalog → holds (catalog.allot owner proposed avoided).2
  insert : ∀ (catalog : Catalog) (model : TypeModel), model.name ∈ catalog.given →
    model.name ∉ catalog.models.keys → holds catalog →
      holds { catalog with models := catalog.models.insert model.name model }

namespace Kept

theorem nameField (keeps : Kept avoided holds) (start : holds catalog) (field : PlannedField) :
    holds (catalog.nameField avoided field).2 := by
  rw [Catalog.nameField]
  cases field.value with
  | scalar => exact start
  | enum => exact start
  | composite => exact keeps.allot catalog _ _ rfl start

theorem nameFields (keeps : Kept avoided holds) (start : holds catalog)
    (fields : List PlannedField) : holds (catalog.nameFields avoided fields).2 := by
  induction fields generalizing catalog with
  | nil => exact start
  | cons field rest ih => exact ih (keeps.nameField start field)

theorem nameVariants (keeps : Kept avoided holds) (start : holds catalog) (path : Path)
    (variants : List (Variant PlannedField)) :
    holds (Catalog.nameVariants schema catalog avoided path variants).2 := by
  induction variants generalizing catalog with
  | nil => exact start
  | cons variant rest ih =>
      have own := keeps.allot catalog (.variant path variant.typeName) variant.typeName rfl start
      exact ih (keeps.nameFields own variant.fields)

theorem nameAbstract (keeps : Kept avoided holds) (start : holds catalog) (path : Path)
    (type : TypeDefinition) (variants : List (Variant PlannedField))
    (shared : List PlannedField) :
    holds (Catalog.nameAbstract schema catalog avoided path type variants shared).2.2 := by
  have own := keeps.allot catalog (.field path) type.name rfl start
  exact keeps.nameFields (keeps.nameVariants own path variants) shared

theorem add (keeps : Kept avoided holds) (start : holds catalog) {model : TypeModel}
    (given : model.name ∈ catalog.given) (added : catalog.add model = .ok later) :
    holds later := by
  obtain ⟨absent, rfl⟩ := add_eq_ok_iff.mp added
  exact keeps.insert catalog model given absent start

/-- **Models are added under names that were given.** -/
theorem addAll (keeps : Kept avoided holds) (start : holds catalog) {models : List TypeModel}
    (given : ∀ model ∈ models, model.name ∈ catalog.given)
    (added : catalog.addAll models = .ok later) : holds later := by
  induction models generalizing catalog with
  | nil => exact Except.ok.inj added ▸ start
  | cons model rest ih =>
      obtain ⟨next, first, others⟩ := bind_eq_ok_iff.mp added
      have here := keeps.add start (given model List.mem_cons_self) first
      obtain ⟨_, rfl⟩ := add_eq_ok_iff.mp first
      exact ih here (fun other member => given other (List.mem_cons_of_mem _ member)) others

/-- The models of a position have the names that its owners were given. -/
theorem addModels (keeps : Kept avoided holds) {before after : Progress} (start : holds catalog)
    {owner : NameOwner} {path : Path} {variants : List (Variant PlannedField)} {own : TypeModel}
    {objects : List ObjectModel} (named : catalog.NamesOwn owner path variants own objects)
    (added : before.addModels path catalog own objects = .ok after) : holds after.catalog := by
  obtain ⟨extended, adding, same⟩ := bind_eq_ok_iff.mp added
  obtain rfl := Except.ok.inj same
  refine keeps.addAll start (fun model member => ?_) adding
  rcases List.mem_cons.mp member with rfl | isObject
  · exact mem_given_of_nameOf? named.own
  · obtain ⟨object, inObjects, rfl⟩ := List.mem_map.mp isObject
    obtain ⟨_, _, here⟩ := exists_left_of_mem named.objects inObjects
    exact mem_given_of_nameOf? here

/-- **Realizing the plan of a position names no operation.** -/
theorem realize (keeps : Kept avoided holds) {before after : Progress}
    (start : holds before.catalog) {path : Path} {plan : Plan}
    (realized : before.realize schema avoided path plan = .ok after) : holds after.catalog := by
  cases plan with
  | leaf => exact Except.ok.inj realized ▸ start
  | object type fields =>
      have own := keeps.allot before.catalog (.field path) type.name rfl start
      have named := (allots_nameFields
        (before.catalog.allot (.field path) type.name avoided).2 avoided fields).kept _ _
          (before.catalog.nameOf?_allot_self _ _ avoided)
      exact keeps.addModels (keeps.nameFields own fields)
        (⟨named, .nil⟩ : NamesOwn _ (.field path) path [] _ []) realized
  | interface type variants shared tasks =>
      obtain ⟨_, named⟩ := allots_nameAbstract schema before.catalog avoided path type variants
        shared .interface fun _ => rfl
      exact keeps.addModels (keeps.nameAbstract start path type variants shared) named realized
  | union type variants shared tasks =>
      obtain ⟨_, named⟩ := allots_nameAbstract schema before.catalog avoided path type variants
        shared .union fun _ => rfl
      exact keeps.addModels (keeps.nameAbstract start path type variants shared) named realized

/-! ### Types in use -/

theorem buildNamed (keeps : Kept avoided holds) (start : holds catalog) {α : Type}
    {type : TypeDefinition} {location : String} {build : String → Outcome α} {result : α}
    (built : catalog.buildNamed avoided type location build = (.ok result, later)) :
    holds later := by
  rw [Catalog.buildNamed] at built
  split at built
  · cases built
  · obtain ⟨_, rfl⟩ := Prod.mk.inj built
    exact keeps.allot catalog _ _ rfl start

theorem addBuilt (keeps : Kept avoided holds) (start : holds catalog)
    {build : Catalog → TypeDefinition → Cataloged TypeModel} {kind : TypeKind}
    (builds : BuildsTypes build kind)
    (names : ∀ catalog type model between, build catalog type = (.ok model, between) →
      holds catalog → holds between)
    {types : List TypeDefinition} (kinds : ∀ type ∈ types, type.kind = kind)
    (added : addBuilt build catalog types = (.ok (), later)) : holds later := by
  induction types generalizing catalog with
  | nil => exact (Prod.mk.inj added).2 ▸ start
  | cons type rest ih =>
      obtain ⟨model, between, built, absent, others⟩ := exists_add_of_addBuilt added
      obtain ⟨_, _, named, _⟩ :=
        builds catalog between type model (kinds type List.mem_cons_self) built
      have here := keeps.insert between model (mem_given_of_nameOf? named) absent
        (names catalog type model between built start)
      exact ih here (fun other member => kinds other (List.mem_cons_of_mem _ member)) others

/-- **The models of the types in use name no operation.** -/
theorem ofUsage (keeps : Kept avoided holds) (start : holds empty) {usage : TypeUsage}
    (built : ofUsage schema usage avoided = .ok catalog) : holds catalog := by
  obtain ⟨withEnums, enums, inputs⟩ := exists_of_ofUsage built
  have areEnums : ∀ type ∈ usage.enumTypes schema,
      schema.type? type.name = some type ∧ type.kind = .enum := known_of_mem_filterMap
  have areInputs : ∀ type ∈ usage.inputTypes schema,
      schema.type? type.name = some type ∧ type.kind = .inputObject := known_of_mem_filterMap
  have afterEnums := keeps.addBuilt start (buildsTypes_buildEnum avoided)
    (fun _ _ _ _ built before => keeps.buildNamed before built)
    (fun type member => (areEnums type member).2) enums
  exact keeps.addBuilt afterEnums (buildsTypes_buildInput avoided)
    (fun _ _ _ _ built before => keeps.buildNamed before built)
    (fun type member => (areInputs type member).2) inputs

end Kept

end Catalog

/-! ## Building operations -/

namespace Environment

variable {environment : Environment} {policy : NamePolicy} {catalog later : Catalog}
  {operation : OperationDefinition} {model : OperationModel} {holds : Catalog → Prop}

/-- What a catalog keeps holds after all steps of a traversal. -/
theorem Drains.holds_of_kept (keeps : Catalog.Kept policy.avoided holds)
    {before final : Progress} {tasks : List Task} {passes : Nat}
    (drains : environment.Drains policy before tasks passes (.ok final))
    (start : holds before.catalog) : holds final.catalog := by
  have step : ∀ before task after children, holds before.catalog → True →
      environment.step policy before task = .ok (after, children) →
        holds after.catalog ∧ ∀ child ∈ children, True := by
    intro before task after children here _ done
    obtain ⟨_, _, _, realized⟩ := step_eq_ok_iff.mp done
    exact ⟨keeps.realize here realized, fun _ _ => trivial⟩
  exact holds_of_drains step drains rfl start fun _ _ => trivial

/-- The root is named first, then its fields; its model is added last. -/
theorem startWith_of_kept (keeps : Catalog.Kept policy.avoided holds) {name : String}
    {root : TypeDefinition} {fields : List PlannedField} {traversal : Traversal}
    (start : holds (catalog.allot (.operation name) (Text.className name) policy.reserved).2)
    (started : startWith policy catalog operation name root fields = .ok traversal) :
    holds traversal.progress.catalog := by
  obtain ⟨extended, added, same⟩ := bind_eq_ok_iff.mp started
  obtain rfl := Except.ok.inj same
  refine keeps.add (keeps.nameFields start fields) ?_ added
  exact (Catalog.allots_nameFields _ policy.avoided fields).given _
    (Catalog.mem_given_of_nameOf? (catalog.nameOf?_allot_self _ _ policy.reserved))

/-- The root model has the name that the operation is given first. -/
theorem Completes.rootType_eq
    (completes : environment.Completes policy catalog operation (.ok (later, model))) :
    operation.name = some model.name ∧ model.rootType =
      (catalog.allot (.operation model.name) (Text.className model.name) policy.reserved).1 := by
  obtain ⟨traversal, passes, final, started, _, result⟩ := completes_ok_iff.mp completes
  obtain ⟨_, rfl⟩ := Prod.mk.inj result
  obtain ⟨name, _, _, named, _, _, starting⟩ := start_eq_ok_iff.mp started
  obtain ⟨extended, _, same⟩ := bind_eq_ok_iff.mp starting
  obtain rfl := Except.ok.inj same
  exact ⟨named, rfl⟩

/-- **An operation keeps what the naming of its root keeps**, through all steps of its
traversal. -/
theorem Completes.holds_of_kept (keeps : Catalog.Kept policy.avoided holds)
    (start : holds
      (catalog.allot (.operation model.name) (Text.className model.name) policy.reserved).2)
    (completes : environment.Completes policy catalog operation (.ok (later, model))) :
    holds later := by
  obtain ⟨isName, _⟩ := completes.rootType_eq
  obtain ⟨traversal, passes, final, started, drains, result⟩ := completes_ok_iff.mp completes
  obtain ⟨rfl, rfl⟩ := Prod.mk.inj result
  obtain ⟨name, root, fields, named, _, _, starting⟩ := start_eq_ok_iff.mp started
  obtain rfl := Option.some.inj (isName.symm.trans named)
  exact drains.holds_of_kept keeps (startWith_of_kept keeps start starting)

end Environment

/-! ## Names that only operations have -/

namespace Catalog

variable {schema : Schema} {catalog later : Catalog} {policy : NamePolicy}
  {roots : List (String × String)}

/-- Nobody has a reserved name, and only operations have names to avoid. `roots` are the operations
that were given names, with their names. Models have names that were given. -/
structure Obeys (catalog : Catalog) (policy : NamePolicy) (roots : List (String × String)) :
    Prop where
  reserved : ∀ allotment ∈ catalog.allotments, allotment.name ∉ policy.reserved
  others : ∀ allotment ∈ catalog.allotments, allotment.owner.isRoot = false →
    allotment.name ∉ policy.avoided
  roots : ∀ operation name, ⟨.operation operation, name⟩ ∈ catalog.allotments →
    (operation, name) ∈ roots
  models : ∀ entry ∈ catalog.models.entries, entry.1 = entry.2.name ∧ entry.1 ∈ catalog.given

theorem obeys_empty (policy : NamePolicy) : empty.Obeys policy [] where
  reserved _ := nofun
  others _ := nofun
  roots _ _ := nofun
  models _ := nofun

namespace Obeys

theorem mono (obeys : catalog.Obeys policy roots) {more : List (String × String)}
    (all : ∀ root ∈ roots, root ∈ more) : catalog.Obeys policy more :=
  { obeys with roots := fun operation name member => all _ (obeys.roots operation name member) }

/-- The invariant passes to the catalog that remembers one more name. -/
theorem append (obeys : catalog.Obeys policy roots) {owner : NameOwner} {name : String}
    (reserved : name ∉ policy.reserved)
    (others : owner.isRoot = false → name ∉ policy.avoided)
    (isRoot : ∀ operation, owner = .operation operation → (operation, name) ∈ roots) :
    Obeys { catalog with allotments := catalog.allotments ++ [⟨owner, name⟩] } policy roots := by
  refine ⟨fun allotment member => ?_, fun allotment member => ?_, fun operation root member => ?_,
    fun entry member => ?_⟩
  · rcases List.mem_append.mp member with before | new
    · exact obeys.reserved allotment before
    · rw [List.mem_singleton.mp new]
      exact reserved
  · rcases List.mem_append.mp member with before | new
    · exact obeys.others allotment before
    · rw [List.mem_singleton.mp new]
      exact others
  · rcases List.mem_append.mp member with before | new
    · exact obeys.roots operation root before
    · obtain ⟨same, rfl⟩ := Allotment.mk.inj (List.mem_singleton.mp new)
      exact isRoot operation same.symm
  · obtain ⟨key, given⟩ := obeys.models entry member
    refine ⟨key, ?_⟩
    rw [Catalog.given, List.map_append]
    exact List.mem_append_left _ given

/-- **Naming anything but an operation, and adding models, keeps the invariant.** -/
theorem kept (stricter : ∀ name ∈ policy.reserved, name ∈ policy.avoided) :
    Kept policy.avoided (fun catalog => catalog.Obeys policy roots) where
  allot catalog owner proposed notRoot obeys := by
    cases known : catalog.nameOf? owner with
    | some name =>
        rw [allot_of_named known]
        exact obeys
    | none =>
        have free := (isFree_iff.mp (catalog.isFree_freshName policy.avoided proposed)).2
        rw [allot_of_unnamed known]
        refine obeys.append (fun taken => free (stricter _ taken)) (fun _ => free) ?_
        rintro operation rfl
        cases notRoot
  insert catalog model given absent obeys := by
    refine { obeys with models := fun entry member => ?_ }
    rw [OrderedMap.entries_insert_of_absent absent, List.mem_append, List.mem_singleton] at member
    rcases member with before | rfl
    · exact obeys.models entry before
    · exact ⟨rfl, given⟩

/-- An operation is given a name that is not reserved. -/
theorem allot_operation (obeys : catalog.Obeys policy roots) (operation proposed : String) :
    (catalog.allot (.operation operation) proposed policy.reserved).2.Obeys policy
      (roots ++ [(operation,
        (catalog.allot (.operation operation) proposed policy.reserved).1)]) := by
  have before : catalog.Obeys policy (roots ++ [(operation,
      (catalog.allot (.operation operation) proposed policy.reserved).1)]) :=
    obeys.mono fun _ => List.mem_append_left _
  cases known : catalog.nameOf? (.operation operation) with
  | some name =>
      rw [allot_of_named known] at before ⊢
      exact before
  | none =>
      have free := (isFree_iff.mp (catalog.isFree_freshName policy.reserved proposed)).2
      rw [allot_of_unnamed known] at before ⊢
      refine before.append free nofun fun other same => ?_
      obtain rfl := NameOwner.operation.inj same
      exact List.mem_append_right _ List.mem_cons_self

/-- An operation finds its class name free when the name is not reserved and not the one of an
earlier operation: all others have avoided it. -/
theorem name_eq_className (obeys : catalog.Obeys policy roots)
    (stable : ∀ root ∈ roots, root.2 = Text.className root.1) {operation : String}
    (notReserved : Text.className operation ∉ policy.reserved)
    (avoided : Text.className operation ∈ policy.avoided)
    (apart : ∀ root ∈ roots, root.2 ≠ Text.className operation) :
    (catalog.allot (.operation operation) (Text.className operation) policy.reserved).1 =
      Text.className operation := by
  cases known : catalog.nameOf? (.operation operation) with
  | some name =>
      obtain ⟨⟨owner, name⟩, found, rfl⟩ := Option.map_eq_some_iff.mp known
      obtain rfl : owner = .operation operation := by simpa using List.find?_some found
      rw [allot_of_named known]
      exact stable _ (obeys.roots operation name (List.mem_of_find?_eq_some found))
  | none =>
      have free : catalog.isFree policy.reserved (Text.className operation) = true := by
        refine isFree_iff.mpr ⟨fun isGiven => ?_, notReserved⟩
        obtain ⟨⟨owner, name⟩, member, rfl⟩ := List.mem_map.mp isGiven
        cases owner with
        | operation other => exact apart _ (obeys.roots other _ member) rfl
        | schemaType _ | field _ | variant _ _ => exact obeys.others _ member rfl avoided
      rw [allot_of_unnamed known, freshName, if_pos free]

/-- A model stands under its own name, which is not reserved. -/
theorem unreserved_of_mem_entries (obeys : catalog.Obeys policy roots) {entry : String × TypeModel}
    (member : entry ∈ catalog.models.entries) :
    entry.1 = entry.2.name ∧ entry.2.name ∉ policy.reserved := by
  obtain ⟨key, isGiven⟩ := obeys.models entry member
  obtain ⟨allotment, isAllotment, same⟩ := List.mem_map.mp isGiven
  refine ⟨key, ?_⟩
  rw [← key, ← same]
  exact obeys.reserved allotment isAllotment

/-- A model with a name to avoid has the name of an operation. -/
theorem exists_root_of_avoided (obeys : catalog.Obeys policy roots) {entry : String × TypeModel}
    (member : entry ∈ catalog.models.entries) (avoided : entry.2.name ∈ policy.avoided) :
    ∃ operation, (operation, entry.2.name) ∈ roots := by
  obtain ⟨key, isGiven⟩ := obeys.models entry member
  obtain ⟨⟨owner, name⟩, isAllotment, same⟩ := List.mem_map.mp isGiven
  obtain rfl : name = entry.2.name := same.trans key
  cases owner with
  | schemaType _ | field _ | variant _ _ => exact absurd avoided (obeys.others _ isAllotment rfl)
  | operation operation => exact ⟨operation, obeys.roots operation _ isAllotment⟩

variable {environment : Environment} {operations : List OperationDefinition}
  {models : List OperationModel}

theorem obeys_of_completes {operation : OperationDefinition} {model : OperationModel}
    (obeys : catalog.Obeys policy roots)
    (stricter : ∀ name ∈ policy.reserved, name ∈ policy.avoided)
    (completes : environment.Completes policy catalog operation (.ok (later, model))) :
    later.Obeys policy (roots ++ [(model.name, model.rootType)]) := by
  obtain ⟨_, rootType⟩ := completes.rootType_eq
  rw [rootType]
  exact completes.holds_of_kept (kept stricter)
    (obeys.allot_operation model.name (Text.className model.name))

/-- **The invariant holds after any operations were built.** -/
theorem obeys_of_completesAll (obeys : catalog.Obeys policy roots)
    (stricter : ∀ name ∈ policy.reserved, name ∈ policy.avoided)
    (completes : environment.CompletesAll policy catalog operations (.ok (later, models))) :
    later.Obeys policy (roots ++ models.map (fun model => (model.name, model.rootType))) := by
  induction operations generalizing catalog roots models with
  | nil =>
      cases completes
      rw [List.map_nil, List.append_nil]
      exact obeys
  | cons operation rest ih =>
      obtain ⟨next, model, others, first, completesRest, rfl⟩ :=
        Environment.completesAll_cons_ok_iff.mp completes
      have all := ih (obeys.obeys_of_completes stricter first) completesRest
      rwa [List.append_assoc, List.singleton_append] at all

/-- **Operations of distinct class names are given these names**, whatever was named before. -/
theorem rootTypes_of_completesAll (obeys : catalog.Obeys policy roots)
    (stricter : ∀ name ∈ policy.reserved, name ∈ policy.avoided)
    (stable : ∀ root ∈ roots, root.2 = Text.className root.1)
    (distinct : (roots.map Prod.snd ++ OperationDefinition.rootNames operations).Nodup)
    (free : ∀ name ∈ OperationDefinition.rootNames operations,
      name ∉ policy.reserved ∧ name ∈ policy.avoided)
    (completes : environment.CompletesAll policy catalog operations (.ok (later, models))) :
    ∀ model ∈ models, model.rootType = Text.className model.name := by
  induction operations generalizing catalog roots models with
  | nil =>
      cases completes
      exact fun _ => nofun
  | cons operation rest ih =>
      obtain ⟨next, model, others, first, completesRest, rfl⟩ :=
        Environment.completesAll_cons_ok_iff.mp completes
      obtain ⟨named, rootType⟩ := first.rootType_eq
      rw [OperationDefinition.rootNames_cons named] at distinct free
      obtain ⟨notReserved, avoided⟩ := free _ List.mem_cons_self
      have own : model.rootType = Text.className model.name := by
        rw [rootType]
        refine obeys.name_eq_className stable notReserved avoided fun root isRoot same => ?_
        exact (List.nodup_append.mp distinct).2.2 _ (List.mem_map_of_mem isRoot) _
          List.mem_cons_self same
      have later := obeys.obeys_of_completes stricter first
      have stableLater : ∀ root ∈ roots ++ [(model.name, model.rootType)],
          root.2 = Text.className root.1 := by
        intro root isRoot
        rcases List.mem_append.mp isRoot with before | new
        · exact stable root before
        · rw [List.mem_singleton.mp new]
          exact own
      have distinctLater : ((roots ++ [(model.name, model.rootType)]).map Prod.snd ++
          OperationDefinition.rootNames rest).Nodup := by
        rw [List.map_append, List.map_singleton, List.append_assoc, own]
        exact distinct
      intro other member
      rcases List.mem_cons.mp member with rfl | isLater
      · exact own
      · exact ih later stableLater distinctLater
          (fun name isName => free name (List.mem_cons_of_mem _ isName)) completesRest other isLater

end Obeys

end Catalog

/-! ## Names in the result -/

namespace Environment.BuildsAll

variable {environment : Environment} {catalog later : Catalog}
  {operations : List OperationDefinition} {models : List OperationModel}
  {histories : List (List Built)}

/-- What the operations place are the models of the positions, in order. -/
theorem fills (builds : environment.BuildsAll catalog operations later models histories)
    (start : catalog.models.keys.Nodup) :
    List.Forall₂ Fills (DocumentModel.placements ⟨later.models, models⟩)
      (histories.flatten.flatMap Built.entries) := by
  rw [builds.placements_eq start]
  exact List.rel_flatMap (List.forall₂_same.mpr fun built member =>
    Built.fills (builds.of_mem_flatten member).1) fun _ _ fills => fills

/-- No two places have one model. -/
theorem nodup_placed (builds : environment.BuildsAll catalog operations later models histories)
    (start : catalog.models.keys.Nodup) :
    ((DocumentModel.placements ⟨later.models, models⟩).map Prod.snd).Nodup := by
  have names : (DocumentModel.placements ⟨later.models, models⟩).map Prod.snd =
      (histories.flatten.flatMap Built.entries).map Prod.fst :=
    forall₂_map_eq (fun _ _ fills => fills.key.symm) (builds.fills start)
  have keys := builds.distinct start
  rw [OrderedMap.keys, builds.models, List.map_append] at keys
  rw [names]
  exact (List.nodup_append.mp keys).2.1

/-- Operations place their root models at their roots. -/
theorem root_mem_placements
    (builds : environment.BuildsAll catalog operations later models histories)
    {model : OperationModel} (member : model ∈ models) :
    (⟨Path.root model.name, none⟩, model.rootType) ∈
      DocumentModel.placements ⟨later.models, models⟩ := by
  obtain ⟨_, _, _, _, _, here, _⟩ := builds.exists_of_mem.2 model member
  have isEntry := OrderedMap.mem_entries_of_get? here.paths_root
  have isPosition : (Path.root model.name, model.rootType) ∈
      models.flatMap (fun model => model.paths.entries) :=
    List.mem_flatMap.mpr ⟨model, member, isEntry⟩
  exact List.mem_flatMap.mpr ⟨_, isPosition, List.mem_cons_self⟩

end Environment.BuildsAll

namespace DocumentModel

/-- The model is the root model of the operation and nothing else: it is of a response, and has no
place but the root of the operation. -/
structure IsRootModel (document : DocumentModel) (operation : OperationModel) (model : TypeModel) :
    Prop where
  name : model.name = operation.rootType
  response : model.isResponse = true
  place : ∀ place, (place, model.name) ∈ document.placements →
    place = ⟨Path.root operation.name, none⟩

/-- Nothing has a reserved name, and nothing but root models has the class name of an operation:
neither an enum nor an input object, nor anything below the root of an operation. When the class
names of operations are distinct and not reserved, they are the names of their root models. -/
structure AvoidsNames (document : DocumentModel) (reserved : List String)
    (operations : List OperationDefinition) : Prop where
  unreserved : ∀ entry ∈ document.types.entries,
    entry.1 = entry.2.name ∧ entry.2.name ∉ reserved
  others : ∀ entry ∈ document.types.entries,
    entry.2.name ∈ OperationDefinition.rootNames operations →
      ∃ operation ∈ document.operations, document.IsRootModel operation entry.2
  roots : (OperationDefinition.rootNames operations).Nodup →
    (∀ name ∈ OperationDefinition.rootNames operations, name ∉ reserved) →
      ∀ operation ∈ document.operations, operation.rootType = Text.className operation.name

end DocumentModel

/-- The model that has the name of a root model is the root model. -/
theorem Environment.BuildsAll.isRootModel {environment : Environment} {catalog later : Catalog}
    {operations : List OperationDefinition} {models : List OperationModel}
    {histories : List (List Built)}
    (builds : environment.BuildsAll catalog operations later models histories)
    (start : catalog.models.keys.Nodup) {operation : OperationModel} (member : operation ∈ models)
    {model : TypeModel} (isEntry : (model.name, model) ∈ later.models.entries)
    (named : model.name = operation.rootType) :
    DocumentModel.IsRootModel ⟨later.models, models⟩ operation model := by
  have isPlaced := builds.root_mem_placements member
  rw [← named] at isPlaced
  refine ⟨named, ?_, fun place isPlace => ?_⟩
  · obtain ⟨entry, isPlacedEntry, fills⟩ := exists_right_of_mem (builds.fills start) isPlaced
    have isLater : entry ∈ later.models.entries := by
      rw [builds.models]
      exact List.mem_append_right _ isPlacedEntry
    have same : (model.name, model) = entry :=
      List.inj_on_of_nodup_map (builds.distinct start) isEntry isLater fills.key.symm
    rw [← same] at fills
    exact fills.response
  · have same := List.inj_on_of_nodup_map (builds.nodup_placed start) isPlace isPlaced rfl
    exact (Prod.mk.inj same).1

namespace AnalysisRequest

variable {request : AnalysisRequest} {document : DocumentModel}

/-- **No model has a name that it must avoid, and root models have the names that are kept free for
them.** -/
theorem avoidsNames_of_analyze (analyzed : request.analyze = .ok document) :
    document.AvoidsNames request.reserved (Document.operations request.documents) := by
  obtain ⟨schema, fragments, catalog, later, given, accepted, used, built, types⟩ :=
    exists_of_analyze analyzed
  obtain ⟨_, _, rank, ranked⟩ := FragmentTable.ranked_of_ofDocuments accepted
  have completes : (Environment.mk schema fragments).CompletesAll _ catalog _ _ :=
    Environment.completesAll_of_buildOperations ranked built
  obtain ⟨histories, builds⟩ := completes.exists_buildsAll
  have start := (Catalog.holdsTypes_of_ofUsage used).1.distinct
  obtain ⟨_, operations⟩ := document
  obtain rfl : _ = later.models := types
  have stricter : ∀ name ∈ OrderedSet.ofList request.reserved,
      name ∈ (NamePolicy.ofDocuments request.documents
        (OrderedSet.ofList request.reserved)).avoided :=
    fun name isReserved => NamePolicy.mem_avoided_iff.mpr (.inl isReserved)
  have before := (Catalog.Obeys.kept stricter).ofUsage
    (Catalog.obeys_empty (NamePolicy.ofDocuments request.documents _)) used
  have after := before.obeys_of_completesAll stricter completes
  refine ⟨fun entry member => ?_, fun entry member isClassName => ?_, fun distinct free => ?_⟩
  · obtain ⟨key, unreserved⟩ := after.unreserved_of_mem_entries member
    exact ⟨key, fun isReserved => unreserved (OrderedSet.mem_ofList.mpr isReserved)⟩
  · obtain ⟨key, _⟩ := after.unreserved_of_mem_entries member
    obtain ⟨name, isRoot⟩ := after.exists_root_of_avoided member
      (NamePolicy.mem_avoided_iff.mpr (.inr isClassName))
    obtain ⟨operation, isOperation, same⟩ := List.mem_map.mp isRoot
    have rootType : operation.rootType = entry.2.name := (Prod.mk.inj same).2
    refine ⟨operation, isOperation, builds.isRootModel start isOperation ?_ rootType.symm⟩
    rwa [← key]
  · refine before.rootTypes_of_completesAll stricter (fun _ => nofun) distinct
      (fun name isName => ⟨fun isReserved => ?_, ?_⟩) completes
    · exact free name isName (OrderedSet.mem_ofList.mp isReserved)
    · exact NamePolicy.mem_avoided_iff.mpr (.inr isName)

end AnalysisRequest

namespace Sample

/-- Operations that are called like the type of pets and like its first numbered name. -/
def namesakeDocuments : List Document :=
  [[.operation (query "pet1" [pick "pet" petItems]), .fragment catFragment],
    [.operation (query "pet" [pick "pet" [pick "__typename" []]])]]

theorem avoidsNames_of_namesakes : ∃ document,
    AnalysisRequest.analyze ⟨some petSchema, namesakeDocuments, ["Dog"]⟩ = .ok document ∧
      document.types.keys =
        ["Mood", "Pet1", "Pet2", "Dog1", "Cat", "Person", "Pet", "Pet3", "Dog2", "Cat1"] ∧
      document.operations.map (fun operation => (operation.name, operation.rootType)) =
        [("pet1", "Pet1"), ("pet", "Pet")] ∧
      document.AvoidsNames ["Dog"] (Document.operations namesakeDocuments) := by
  have analyzed : (AnalysisRequest.analyze ⟨some petSchema, namesakeDocuments, ["Dog"]⟩).map
      (fun document => (document.types.keys,
        document.operations.map (fun operation => (operation.name, operation.rootType)))) =
      .ok (["Mood", "Pet1", "Pet2", "Dog1", "Cat", "Person", "Pet", "Pet3", "Dog2", "Cat1"],
        [("pet1", "Pet1"), ("pet", "Pet")]) :=
    AnalysisRequest.map_analyze_of_within 4 (by decide +kernel)
  obtain ⟨document, analyzed, same⟩ := map_eq_ok_iff.mp analyzed
  obtain ⟨keys, roots⟩ := Prod.mk.inj same
  exact ⟨document, analyzed, keys, roots, AnalysisRequest.avoidsNames_of_analyze analyzed⟩

end Sample

end ResponseShape

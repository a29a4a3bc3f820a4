import ResponseShape.Proofs.FreshNames
import ResponseShape.Proofs.Naming

/-!
# Who is given a name

Naming planned fields, variants and positions gives names to certain owners and to nobody else
(`Catalog.Allots`). An owner that gets a name gets one that nobody had before, and from then on it
alone has that name (`Catalog.Owns`). So the models of a planned position can be added whenever its
own name has no model yet and its variants have no names (`Progress.exists_realize`), and adding
them gives no model to a name of anybody else (`Progress.Adds.notMem_models`).
-/

set_option autoImplicit false

namespace ResponseShape

namespace Catalog

variable {catalog before after : Catalog} {owner : NameOwner} {name : String}

/-- The owner has the name, and no other owner has it. -/
structure Owns (catalog : Catalog) (owner : NameOwner) (name : String) : Prop where
  named : catalog.nameOf? owner = some name
  only : ∀ other, catalog.nameOf? other = some name → other = owner

/-- The owners have names afterwards. Names that were given stay with their owners, nobody else is
given a name, and whoever is given one is given a new one. -/
structure Allots (before : Catalog) (owners : List NameOwner) (after : Catalog) : Prop where
  kept : ∀ owner name, before.nameOf? owner = some name → after.nameOf? owner = some name
  named : ∀ owner, (after.nameOf? owner).isSome = true ↔
    (before.nameOf? owner).isSome = true ∨ owner ∈ owners
  given : ∀ name ∈ before.given, name ∈ after.given
  fresh : ∀ owner name, before.nameOf? owner = none → after.nameOf? owner = some name →
    name ∉ before.given ∧ after.Owns owner name
  owns : ∀ owner name, before.Owns owner name → after.Owns owner name

theorem Allots.refl (catalog : Catalog) : catalog.Allots [] catalog where
  kept _ _ := id
  named owner := by simp
  given _ := id
  fresh owner name unnamed named := by rw [unnamed] at named; cases named
  owns _ _ := id

/-- **Names are given in turn.** -/
theorem Allots.trans {between : Catalog} {owners others : List NameOwner}
    (first : before.Allots owners between) (second : between.Allots others after) :
    before.Allots (owners ++ others) after where
  kept owner name named := second.kept owner name (first.kept owner name named)
  named owner := by rw [second.named, first.named, List.mem_append, or_assoc]
  given name member := second.given name (first.given name member)
  fresh owner name unnamed named := by
    cases here : between.nameOf? owner with
    | some early =>
        obtain rfl := Option.some.inj ((second.kept owner early here).symm.trans named)
        obtain ⟨new, owns⟩ := first.fresh owner early unnamed here
        exact ⟨new, second.owns owner early owns⟩
    | none =>
        obtain ⟨new, owns⟩ := second.fresh owner name here named
        exact ⟨fun member => new (first.given name member), owns⟩
  owns owner name owns := second.owns owner name (first.owns owner name owns)

/-- Nobody else's name changes. -/
theorem Allots.nameOf?_of_notMem {owners : List NameOwner} (allots : before.Allots owners after)
    (absent : owner ∉ owners) : after.nameOf? owner = before.nameOf? owner := by
  cases known : before.nameOf? owner with
  | some name => exact allots.kept owner name known
  | none =>
      rw [← Option.not_isSome_iff_eq_none, allots.named, known]
      exact not_or.mpr ⟨nofun, absent⟩

/-- What was allotted does not depend on the models. -/
theorem Allots.of_allotments {owners : List NameOwner} {later : Catalog}
    (allots : before.Allots owners after) (same : later.allotments = after.allotments) :
    before.Allots owners later := by
  have names : ∀ owner, later.nameOf? owner = after.nameOf? owner := nameOf?_of_allotments same
  have given : later.given = after.given := by rw [Catalog.given, Catalog.given, same]
  have owns : ∀ owner name, after.Owns owner name → later.Owns owner name :=
    fun owner name here => ⟨(names owner).trans here.named,
      fun other named => here.only other ((names other).symm.trans named)⟩
  refine ⟨fun owner name named => (names owner).trans (allots.kept owner name named),
    fun owner => by rw [names, allots.named], fun name member => given ▸ allots.given name member,
    fun owner name unnamed named => ?_,
    fun owner name here => owns owner name (allots.owns owner name here)⟩
  obtain ⟨new, here⟩ := allots.fresh owner name unnamed ((names owner).symm.trans named)
  exact ⟨new, owns owner name here⟩

theorem nameOf?_allot (catalog : Catalog) (owner other : NameOwner) (proposed : String)
    (avoided : List String) :
    (catalog.allot owner proposed avoided).2.nameOf? other =
      if other = owner then some (catalog.allot owner proposed avoided).1
      else catalog.nameOf? other := by
  by_cases same : other = owner
  · rw [same, if_pos rfl, nameOf?_allot_self]
  · rw [if_neg same, nameOf?_allot_of_ne same]

/-- An owner without a name gets one that nobody had. -/
theorem Allots.of_new (unnamed : before.nameOf? owner = none) (new : name ∉ before.given)
    (names : ∀ other, after.nameOf? other = if other = owner then some name else
      before.nameOf? other)
    (given : ∀ old ∈ before.given, old ∈ after.given) : before.Allots [owner] after := by
  have here : after.nameOf? owner = some name := (names owner).trans (if_pos rfl)
  have elsewhere : ∀ other, other ≠ owner → after.nameOf? other = before.nameOf? other :=
    fun other apart => (names other).trans (if_neg apart)
  have named_ne : ∀ other old, before.nameOf? other = some old → other ≠ owner :=
    fun other old named same => by rw [same, unnamed] at named; cases named
  have only : ∀ other, after.nameOf? other = some name → other = owner := by
    intro other named
    by_contra apart
    rw [elsewhere other apart] at named
    exact new (mem_given_of_nameOf? named)
  constructor
  case kept =>
    intro other old named
    rw [elsewhere other (named_ne other old named), named]
  case named =>
    intro other
    rw [List.mem_singleton]
    by_cases same : other = owner
    · simp [same, here]
    · simp [same, elsewhere other same]
  case given => exact given
  case fresh =>
    intro other old unnamedBefore named
    by_cases same : other = owner
    · subst same
      obtain rfl := Option.some.inj (here.symm.trans named)
      exact ⟨new, here, only⟩
    · rw [elsewhere other same, unnamedBefore] at named
      cases named
  case owns =>
    intro other old owns
    refine ⟨(elsewhere other (named_ne other old owns.named)).trans owns.named,
      fun third named => ?_⟩
    by_cases same : third = owner
    · rw [same, here] at named
      rw [Option.some.inj named] at new
      exact absurd (mem_given_of_nameOf? owns.named) new
    · exact owns.only third ((elsewhere third same).symm.trans named)

/-- **The owner is given a name, and nobody else.** -/
theorem allots_allot (catalog : Catalog) (owner : NameOwner) (proposed : String)
    (avoided : List String) :
    catalog.Allots [owner] (catalog.allot owner proposed avoided).2 := by
  cases known : catalog.nameOf? owner with
  | some name =>
      rw [allot_of_named known]
      have refl := Allots.refl catalog
      refine ⟨refl.kept, fun other => ?_, refl.given, refl.fresh, refl.owns⟩
      rw [List.mem_singleton]
      refine ⟨.inl, fun either => either.elim id ?_⟩
      rintro rfl
      rw [known]
      rfl
  | none =>
      have names := fun other => catalog.nameOf?_allot owner other proposed avoided
      rw [allot_of_unnamed known] at names ⊢
      refine .of_new known (catalog.freshName_notMem_given avoided proposed) names
        fun name member => ?_
      rw [given, List.map_append]
      exact List.mem_append_left _ member

end Catalog

/-! ## Owners of planned positions -/

/-- The positions of the values of fields that have models of their own. -/
def PlannedField.owners (fields : List PlannedField) : List NameOwner :=
  (PlannedField.tasks fields).map (fun task => .field task.path)

/-- The variants of the position at `path`, and the positions of their fields' values. -/
def Variant.owners (path : Path) (variants : List (Variant PlannedField)) : List NameOwner :=
  variants.flatMap (fun variant =>
    .variant path variant.typeName :: PlannedField.owners variant.fields)

namespace Plan

/-- The variants of a plan that get models beside the position's own. -/
def implemented : Plan → List (Variant PlannedField)
  | leaf | object _ _ => []
  | interface _ variants _ _ | union _ variants _ _ => variants

/-- Whoever is given a name when the plan of the position at `path` is realized under the name of
the owner. -/
def owners (owner : NameOwner) (path : Path) : Plan → List NameOwner
  | leaf => []
  | object _ fields => owner :: PlannedField.owners fields
  | interface _ variants shared _ | union _ variants shared _ =>
      owner :: (Variant.owners path variants ++ PlannedField.owners shared)

/-- Whoever is named is the owner of the plan, a variant of its position or the position of one of
the tasks that its fields leave. -/
theorem cases_of_mem_owners {owner other : NameOwner} {path : Path} {plan : Plan}
    (member : other ∈ plan.owners owner path) :
    other = owner ∨ (∃ typeName, other = .variant path typeName) ∨
      ∃ task ∈ Variant.tasks plan.variants ++ PlannedField.tasks plan.shared,
        other = .field task.path := by
  cases plan with
  | leaf => cases member
  | object type fields =>
      rcases List.mem_cons.mp member with own | isField
      · exact .inl own
      · obtain ⟨task, isTask, rfl⟩ := List.mem_map.mp isField
        refine .inr (.inr ⟨task, List.mem_append_left _ ?_, rfl⟩)
        exact List.mem_flatMap.mpr ⟨_, List.mem_singleton_self _, isTask⟩
  | interface type variants shared tasks | union type variants shared tasks =>
      rcases List.mem_cons.mp member with own | others
      · exact .inl own
      refine .inr ?_
      rcases List.mem_append.mp others with ofVariant | isShared
      · obtain ⟨variant, isVariant, here⟩ := List.mem_flatMap.mp ofVariant
        rcases List.mem_cons.mp here with isOwn | isField
        · exact .inl ⟨_, isOwn⟩
        · obtain ⟨task, isTask, rfl⟩ := List.mem_map.mp isField
          refine .inr ⟨task, List.mem_append_left _ ?_, rfl⟩
          exact List.mem_flatMap.mpr ⟨variant, isVariant, isTask⟩
      · obtain ⟨task, isTask, rfl⟩ := List.mem_map.mp isShared
        exact .inr ⟨task, List.mem_append_right _ isTask, rfl⟩

/-- The position of every task that the fields leave is named. -/
theorem field_mem_owners {owner : NameOwner} {path : Path} {plan : Plan} {task : Task}
    (member : task ∈ Variant.tasks plan.variants ++ PlannedField.tasks plan.shared) :
    .field task.path ∈ plan.owners owner path := by
  rcases List.mem_append.mp member with own | isShared
  · obtain ⟨variant, isVariant, isTask⟩ := List.mem_flatMap.mp own
    have here : .field task.path ∈ PlannedField.owners variant.fields :=
      List.mem_map_of_mem isTask
    cases plan with
    | leaf => cases isVariant
    | object type fields =>
        obtain rfl := List.mem_singleton.mp isVariant
        exact List.mem_cons_of_mem _ here
    | interface type variants shared tasks | union type variants shared tasks =>
        refine List.mem_cons_of_mem _ (List.mem_append_left _ ?_)
        exact List.mem_flatMap.mpr ⟨variant, isVariant, List.mem_cons_of_mem _ here⟩
  · cases plan with
    | leaf | object => cases isShared
    | interface type variants shared tasks | union type variants shared tasks =>
        exact List.mem_cons_of_mem _
          (List.mem_append_right _ (List.mem_map_of_mem isShared))

end Plan

namespace Catalog

theorem allots_nameField (catalog : Catalog) (avoided : List String) (field : PlannedField) :
    catalog.Allots (PlannedField.owners [field]) (catalog.nameField avoided field).2 := by
  rw [nameField]
  cases value : field.value with
  | scalar | enum =>
      have none : PlannedField.owners [field] = [] := by
        simp [PlannedField.owners, PlannedField.tasks, PlannedField.task?, value]
      rw [none]
      exact .refl catalog
  | composite =>
      have only : PlannedField.owners [field] = [.field field.occurrences.path] := by
        simp [PlannedField.owners, PlannedField.tasks, PlannedField.task?, value,
          Task.ofOccurrences]
      rw [only]
      exact catalog.allots_allot _ _ avoided

/-- **Fields name the positions of their values.** -/
theorem allots_nameFields (catalog : Catalog) (avoided : List String)
    (fields : List PlannedField) :
    catalog.Allots (PlannedField.owners fields) (catalog.nameFields avoided fields).2 := by
  induction fields generalizing catalog with
  | nil => exact .refl catalog
  | cons field rest ih =>
      have both := (catalog.allots_nameField avoided field).trans (ih _)
      have owners : PlannedField.owners (field :: rest) =
          PlannedField.owners [field] ++ PlannedField.owners rest := by
        rw [PlannedField.owners, PlannedField.tasks, ← List.singleton_append,
          List.filterMap_append, List.map_append]
        rfl
      rw [owners]
      exact both

/-- **Variants are named in turn, each with the positions of its fields' values.** -/
theorem allots_nameVariants (schema : Schema) (catalog : Catalog) (avoided : List String)
    (path : Path) (variants : List (Variant PlannedField)) :
    catalog.Allots (Variant.owners path variants)
      (nameVariants schema catalog avoided path variants).2 := by
  induction variants generalizing catalog with
  | nil => exact .refl catalog
  | cons variant rest ih =>
      have own := catalog.allots_allot (.variant path variant.typeName) variant.typeName avoided
      have fields := allots_nameFields
        (catalog.allot (.variant path variant.typeName) variant.typeName avoided).2 avoided
        variant.fields
      exact (own.trans fields).trans (ih _)

/-- The model of a variant has the name that was given to the variant. -/
theorem nameOf?_nameVariants (schema : Schema) (catalog : Catalog) (avoided : List String)
    (path : Path) (variants : List (Variant PlannedField)) :
    List.Forall₂
      (fun variant (object : ObjectModel) =>
        (nameVariants schema catalog avoided path variants).2.nameOf?
          (.variant path variant.typeName) = some object.name)
      variants (nameVariants schema catalog avoided path variants).1 := by
  induction variants generalizing catalog with
  | nil => exact .nil
  | cons variant rest ih =>
      refine .cons ?_ (ih _)
      have fields := allots_nameFields
        (catalog.allot (.variant path variant.typeName) variant.typeName avoided).2 avoided
        variant.fields
      have later := allots_nameVariants schema
        ((catalog.allot (.variant path variant.typeName) variant.typeName avoided).2.nameFields
          avoided variant.fields).2 avoided path rest
      exact later.kept _ _ (fields.kept _ _ (catalog.nameOf?_allot_self _ _ avoided))

/-- The models of a position and of its variants have the names that were given to them. -/
structure NamesOwn (catalog : Catalog) (owner : NameOwner) (path : Path)
    (variants : List (Variant PlannedField)) (own : TypeModel) (objects : List ObjectModel) :
    Prop where
  own : catalog.nameOf? owner = some own.name
  objects : List.Forall₂
    (fun variant object => catalog.nameOf? (.variant path variant.typeName) = some object.name)
    variants objects

theorem allots_nameAbstract (schema : Schema) (catalog : Catalog) (avoided : List String)
    (path : Path) (type : TypeDefinition) (variants : List (Variant PlannedField))
    (shared : List PlannedField) (own : AbstractModel → TypeModel)
    (named : ∀ model, (own model).name = model.name) :
    let result := nameAbstract schema catalog avoided path type variants shared
    catalog.Allots (.field path :: (Variant.owners path variants ++ PlannedField.owners shared))
        result.2.2 ∧
      result.2.2.NamesOwn (.field path) path variants (own result.1) result.2.1 := by
  intro result
  have position := catalog.allots_allot (.field path) type.name avoided
  have ofVariants := allots_nameVariants schema
    (catalog.allot (.field path) type.name avoided).2 avoided path variants
  have ofShared := allots_nameFields (nameVariants schema
    (catalog.allot (.field path) type.name avoided).2 avoided path variants).2 avoided shared
  refine ⟨position.trans (ofVariants.trans ofShared), ?_, ?_⟩
  · rw [named]
    exact (ofVariants.trans ofShared).kept _ _ (catalog.nameOf?_allot_self _ _ avoided)
  · exact (nameOf?_nameVariants schema _ avoided path variants).imp
      fun _ _ => ofShared.kept _ _

end Catalog

/-! ## Adding the models of a position -/

namespace Catalog

variable {catalog later : Catalog} {models : List TypeModel}

/-- **Models of new and distinct names can be added.** -/
theorem exists_addAll (distinct : (models.map TypeModel.name).Nodup)
    (absent : ∀ model ∈ models, model.name ∉ catalog.models.keys) :
    ∃ later, catalog.addAll models = .ok later := by
  induction models generalizing catalog with
  | nil => exact ⟨catalog, rfl⟩
  | cons model rest ih =>
      rw [List.map_cons, List.nodup_cons] at distinct
      have here := add_eq_ok_iff.mpr ⟨absent model List.mem_cons_self, rfl⟩
      have others : ∀ other ∈ rest,
          other.name ∉ (catalog.models.insert model.name model).keys := by
        intro other member
        rw [OrderedMap.keys_insert, OrderedSet.mem_add, not_or]
        exact ⟨absent other (List.mem_cons_of_mem _ member),
          fun same => distinct.1 (same ▸ List.mem_map_of_mem member)⟩
      obtain ⟨later, added⟩ := @ih { catalog with
        models := catalog.models.insert model.name model } distinct.2 others
      exact ⟨later, bind_eq_ok_iff.mpr ⟨_, here, added⟩⟩

theorem keys_addAll (added : catalog.addAll models = .ok later) :
    later.models.keys = catalog.models.keys ++ models.map TypeModel.name := by
  rw [OrderedMap.keys, (addAll_eq_ok added).2.1, List.map_append, List.map_map]
  rfl

/-- Models of a position differ in their names when nobody else has the names. -/
theorem NamesOwn.nodup_names {owner : NameOwner} {path : Path}
    {variants : List (Variant PlannedField)} {own : TypeModel} {objects : List ObjectModel}
    (named : catalog.NamesOwn owner path variants own objects)
    (owns : catalog.Owns owner own.name) (apart : ∀ typeName, owner ≠ .variant path typeName)
    (ownsVariants : ∀ typeName name, catalog.nameOf? (.variant path typeName) = some name →
      catalog.Owns (.variant path typeName) name)
    (distinct : (variants.map Variant.typeName).Nodup) :
    ((own :: objects.map TypeModel.object).map TypeModel.name).Nodup := by
  rw [List.map_cons, List.map_map, List.nodup_cons]
  constructor
  · intro member
    obtain ⟨object, isObject, same⟩ := List.mem_map.mp member
    obtain ⟨variant, _, here⟩ := exists_left_of_mem named.objects isObject
    exact apart _ (owns.only _ (here.trans (congrArg some same))).symm
  · -- objects of one name would be of one variant
    have objectNames := named.objects
    clear named
    induction objectNames with
    | nil => exact List.nodup_nil
    | @cons variant object restVariants rest here later ih =>
        rw [List.map_cons, List.nodup_cons] at distinct ⊢
        refine ⟨fun member => distinct.1 ?_, ih distinct.2⟩
        obtain ⟨other, isOther, same⟩ := List.mem_map.mp member
        obtain ⟨otherVariant, isVariant, there⟩ := exists_left_of_mem later isOther
        have equal := (ownsVariants _ _ here).only _ (there.trans (congrArg some same))
        exact (NameOwner.variant.inj equal).2 ▸ List.mem_map_of_mem isVariant

/-- The names of the models of a position differ from each other, and from all names that were
given before the variants were named. -/
theorem NamesOwn.nodup {before : Catalog} {owners : List NameOwner} {owner : NameOwner}
    {path : Path} {variants : List (Variant PlannedField)} {own : TypeModel}
    {objects : List ObjectModel} (named : catalog.NamesOwn owner path variants own objects)
    (allots : before.Allots owners catalog) (owns : catalog.Owns owner own.name)
    (apart : ∀ typeName, owner ≠ .variant path typeName)
    (unnamed : ∀ typeName, before.nameOf? (.variant path typeName) = none)
    (distinct : (variants.map Variant.typeName).Nodup) :
    ((own :: objects.map TypeModel.object).map TypeModel.name).Nodup ∧
      ∀ object ∈ objects, object.name ∉ before.given := by
  constructor
  · apply named.nodup_names owns apart ?_ distinct
    intro typeName name here
    exact (allots.fresh _ _ (unnamed typeName) here).2
  · intro object member
    obtain ⟨variant, _, here⟩ := exists_left_of_mem named.objects member
    exact (allots.fresh _ _ (unnamed variant.typeName) here).1

end Catalog

/-- The names of a planned position were given, and nothing was added yet. -/
structure Catalog.NamesPosition (before catalog : Catalog) (owner : NameOwner) (path : Path)
    (plan : Plan) (own : TypeModel) (objects : List ObjectModel) : Prop where
  allots : before.Allots (plan.owners owner path) catalog
  models : catalog.models = before.models
  names : catalog.NamesOwn owner path plan.implemented own objects

namespace Progress

variable {before after : Progress} {schema : Schema} {avoided : List String} {owner : NameOwner}
  {path : Path} {plan : Plan} {catalog : Catalog} {own : TypeModel} {objects : List ObjectModel}

/-- **Realizing a plan names its owners and then adds the models under their names.** -/
theorem exists_named (before : Progress) (schema : Schema) (avoided : List String) (path : Path)
    (planned : plan ≠ .leaf) :
    ∃ catalog own objects,
      before.realize schema avoided path plan = before.addModels path catalog own objects ∧
        before.catalog.NamesPosition catalog (.field path) path plan own objects := by
  cases plan with
  | leaf => exact absurd rfl planned
  | object type fields =>
      have position := before.catalog.allots_allot (.field path) type.name avoided
      have ofFields := Catalog.allots_nameFields
        (before.catalog.allot (.field path) type.name avoided).2 avoided fields
      exact ⟨_, _, _, rfl, position.trans ofFields,
        (Catalog.models_nameFields _ avoided fields).trans
          (before.catalog.models_allot _ _ avoided),
        ofFields.kept _ _ (before.catalog.nameOf?_allot_self _ _ avoided), .nil⟩
  | interface type variants shared tasks =>
      obtain ⟨allots, named⟩ := Catalog.allots_nameAbstract schema before.catalog avoided path type
        variants shared .interface fun _ => rfl
      exact ⟨_, _, _, rfl, allots,
        Catalog.models_nameAbstract schema before.catalog avoided path type variants shared, named⟩
  | union type variants shared tasks =>
      obtain ⟨allots, named⟩ := Catalog.allots_nameAbstract schema before.catalog avoided path type
        variants shared .union fun _ => rfl
      exact ⟨_, _, _, rfl, allots,
        Catalog.models_nameAbstract schema before.catalog avoided path type variants shared, named⟩

/-- **The models of a position can be added when its own name has no model and its variants have no
names.** -/
theorem exists_addModels
    (position : before.catalog.NamesPosition catalog owner path plan own objects)
    (given : ∀ name ∈ before.catalog.models.keys, name ∈ before.catalog.given)
    (owns : catalog.Owns owner own.name) (absent : own.name ∉ before.catalog.models.keys)
    (apart : ∀ typeName, owner ≠ .variant path typeName)
    (unnamed : ∀ typeName, before.catalog.nameOf? (.variant path typeName) = none)
    (distinct : (plan.implemented.map Variant.typeName).Nodup) :
    ∃ after, before.addModels path catalog own objects = .ok after := by
  obtain ⟨different, new⟩ := position.names.nodup position.allots owns apart unnamed distinct
  have addable : ∀ model ∈ own :: objects.map TypeModel.object,
      model.name ∉ catalog.models.keys := by
    intro model member
    rw [position.models]
    rcases List.mem_cons.mp member with rfl | isObject
    · exact absent
    · obtain ⟨object, inObjects, rfl⟩ := List.mem_map.mp isObject
      exact fun registered => new object inObjects (given _ registered)
  obtain ⟨extended, added⟩ := Catalog.exists_addAll different addable
  exact ⟨_, bind_eq_ok_iff.mpr ⟨extended, added, rfl⟩⟩

/-- **A plan is realized when the name of its position has no model and its variants have no
names.** -/
theorem exists_realize {name : String} (planned : plan ≠ .leaf)
    (given : ∀ name ∈ before.catalog.models.keys, name ∈ before.catalog.given)
    (owns : before.catalog.Owns (.field path) name) (absent : name ∉ before.catalog.models.keys)
    (unnamed : ∀ typeName, before.catalog.nameOf? (.variant path typeName) = none)
    (distinct : (plan.implemented.map Variant.typeName).Nodup) :
    ∃ after, before.realize schema avoided path plan = .ok after := by
  obtain ⟨catalog, own, objects, same, position⟩ := before.exists_named schema avoided path planned
  have later := position.allots.owns _ _ owns
  obtain rfl := Option.some.inj (position.names.own.symm.trans later.named)
  rw [same]
  exact exists_addModels position given later absent (fun _ => nofun) unnamed distinct

/-- What realizing the plan of a position does to names and models. -/
structure Adds (before after : Progress) (owner : NameOwner) (path : Path) (plan : Plan)
    (own : TypeModel) (objects : List ObjectModel) : Prop where
  allots : before.catalog.Allots (plan.owners owner path) after.catalog
  names : after.catalog.NamesOwn owner path plan.implemented own objects
  models : after.catalog.models.keys =
    before.catalog.models.keys ++ own.name :: objects.map ObjectModel.name
  paths : after.paths = before.paths.insert path own.name

theorem adds_of_addModels
    (position : before.catalog.NamesPosition catalog owner path plan own objects)
    (added : before.addModels path catalog own objects = .ok after) :
    before.Adds after owner path plan own objects := by
  obtain ⟨extended, adding, same⟩ := bind_eq_ok_iff.mp added
  obtain rfl := Except.ok.inj same
  have allotments := (Catalog.addAll_eq_ok adding).1
  have names := Catalog.nameOf?_of_allotments allotments
  refine ⟨position.allots.of_allotments allotments,
    ⟨(names _).trans position.names.own,
      position.names.objects.imp fun _ _ => (names _).trans⟩, ?_, rfl⟩
  rw [Catalog.keys_addAll adding, position.models, List.map_cons, List.map_map]
  rfl

theorem adds_of_realize (planned : plan ≠ .leaf)
    (realized : before.realize schema avoided path plan = .ok after) :
    ∃ own objects, before.Adds after (.field path) path plan own objects := by
  obtain ⟨catalog, own, objects, same, position⟩ := before.exists_named schema avoided path planned
  exact ⟨own, objects, adds_of_addModels position (same ▸ realized)⟩

namespace Adds

/-- The position itself has a model afterwards, under its name. -/
theorem own_mem (adds : before.Adds after owner path plan own objects) :
    own.name ∈ after.catalog.models.keys := by
  rw [adds.models]
  exact List.mem_append_right _ List.mem_cons_self

/-- The position is added to those that were built. -/
theorem mem_keys_iff (adds : before.Adds after owner path plan own objects) {other : Path} :
    other ∈ after.paths.keys ↔ other ∈ before.paths.keys ∨ other = path := by
  rw [adds.paths, OrderedMap.keys_insert, OrderedSet.mem_add]

/-- Models have names that were given, when those before have. -/
theorem given (adds : before.Adds after owner path plan own objects)
    (given : ∀ name ∈ before.catalog.models.keys, name ∈ before.catalog.given) :
    ∀ name ∈ after.catalog.models.keys, name ∈ after.catalog.given := by
  intro name member
  rw [adds.models, List.mem_append, List.mem_cons] at member
  rcases member with earlier | rfl | isObject
  · exact adds.allots.given name (given name earlier)
  · exact Catalog.mem_given_of_nameOf? adds.names.own
  · obtain ⟨object, inObjects, rfl⟩ := List.mem_map.mp isObject
    obtain ⟨variant, _, named⟩ := exists_left_of_mem adds.names.objects inObjects
    exact Catalog.mem_given_of_nameOf? named

/-- **A name that belongs to another owner gets no model.** -/
theorem notMem_models (adds : before.Adds after owner path plan own objects) {other : NameOwner}
    {name : String} (owns : after.catalog.Owns other name) (apart : owner ≠ other)
    (notVariant : ∀ typeName, other ≠ .variant path typeName)
    (absent : name ∉ before.catalog.models.keys) : name ∉ after.catalog.models.keys := by
  rw [adds.models, List.mem_append, List.mem_cons, not_or, not_or]
  refine ⟨absent, ?_, fun isObject => ?_⟩
  · rintro rfl
    exact apart (owns.only _ adds.names.own)
  · obtain ⟨object, inObjects, rfl⟩ := List.mem_map.mp isObject
    obtain ⟨variant, _, named⟩ := exists_left_of_mem adds.names.objects inObjects
    exact notVariant _ (owns.only _ named).symm

end Adds

end Progress

end ResponseShape

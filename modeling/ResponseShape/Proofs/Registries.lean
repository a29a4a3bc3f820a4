import ResponseShape.Registry
import ResponseShape.Proofs.CatalogUses

/-!
# Registries under any uses

A registry is asked for names and handed models, in any order and with any proposals and names to
avoid (`Registry.run`). The tables of names and of owners stay inverse to each other
(`Registry.Inverse`): the name that is written into both was free in the one, and its owner was
without a name in the other.

From this the rest follows (`Registry.orderly_run`). No two owners have one name, and an owner keeps
its name through all later uses. A new name is none of those to avoid and belonged to nobody, and
giving it changes what is found for its owner and for itself and nothing else. The models stand in
the order in which they were accepted, each under its own name. And a model is refused exactly when
its name has a model, whoever has the name; the registry is left as it was.

A catalog is a registry of which the table of names is not kept (`Registry.toCatalog`). As long as
the tables are inverse it can be recovered from the owners, so catalogs answer all uses as
registries do (`Registry.run_toCatalog`).
-/

set_option autoImplicit false

namespace ResponseShape

namespace Registry

variable {registry : Registry} {owner other : NameOwner} {name : String} {avoided : List String}
  {proposed : String} {model : TypeModel}

/-! ## The catalog of a registry -/

/-- The owners of the names and the models. The names of the owners are not looked at. -/
def toCatalog (registry : Registry) : Catalog :=
  ⟨registry.taken.entries.map (fun entry => ⟨entry.2, entry.1⟩), registry.models⟩

theorem given_toCatalog (registry : Registry) : registry.toCatalog.given = registry.taken.keys :=
  List.map_map

theorem ownerOf?_toCatalog (registry : Registry) (name : String) :
    registry.toCatalog.ownerOf? name = registry.taken.get? name := by
  obtain ⟨names, ⟨entries⟩, models⟩ := registry
  change Catalog.ownerOf? ⟨entries.map _, models⟩ name = entries.lookup name
  induction entries with
  | nil => rfl
  | cons entry rest ih =>
      rw [Catalog.ownerOf?] at ih ⊢
      rw [OrderedMap.lookup_entry, List.map_cons, List.find?_cons]
      by_cases same : name = entry.1
      · rw [if_pos same, beq_iff_eq.mpr same.symm]
        rfl
      · rw [if_neg same, beq_eq_false_iff_ne.mpr (Ne.symm same), ← ih]

theorem isFree_toCatalog (registry : Registry) (avoided : List String) :
    registry.toCatalog.isFree avoided = registry.isFree avoided := by
  funext name
  rw [Bool.eq_iff_iff, Catalog.isFree_iff, given_toCatalog, ← OrderedMap.contains_iff_mem_keys]
  simp [isFree]

/-- A catalog searches the names that a registry searches. -/
theorem firstFreeNumber?_eq_find? (catalog : Catalog) (avoided : List String) (proposed : String)
    (attempts number : Nat) :
    (catalog.firstFreeNumber? avoided proposed attempts number).map (Catalog.numbered proposed) =
      ((List.range' number attempts).map (Catalog.numbered proposed)).find?
        (catalog.isFree avoided) := by
  induction attempts generalizing number with
  | zero => rfl
  | succ attempts ih =>
      rw [Catalog.firstFreeNumber?, List.range'_succ, List.map_cons, List.find?_cons]
      cases catalog.isFree avoided (Catalog.numbered proposed number) with
      | true => rfl
      | false => exact ih (number + 1)

theorem freshName_toCatalog (registry : Registry) (avoided : List String) (proposed : String) :
    registry.toCatalog.freshName avoided proposed = registry.freshName avoided proposed := by
  have searched := firstFreeNumber?_eq_find? registry.toCatalog avoided proposed
    (registry.toCatalog.allotments.length + avoided.length + 1) 1
  have size : registry.toCatalog.allotments.length = registry.taken.size := List.length_map _
  rw [isFree_toCatalog] at searched
  rw [size] at searched
  simp only [Catalog.freshName, freshName, isFree_toCatalog, size, ← searched]
  cases registry.toCatalog.firstFreeNumber? avoided proposed
    (registry.taken.size + avoided.length + 1) 1 <;> rfl

/-- **A fresh name belongs to nobody and is not to be avoided.** -/
theorem isFree_freshName (registry : Registry) (avoided : List String) (proposed : String) :
    registry.isFree avoided (registry.freshName avoided proposed) = true := by
  rw [← isFree_toCatalog, ← freshName_toCatalog]
  exact registry.toCatalog.isFree_freshName avoided proposed

theorem isFree_iff :
    registry.isFree avoided name = true ↔ registry.taken.get? name = none ∧ name ∉ avoided := by
  simp [isFree, OrderedMap.contains]

/-! ## Names and owners -/

/-- The name of each owner and the owner of each name are the same pairs. -/
structure Inverse (registry : Registry) : Prop where
  names_iff_taken : ∀ owner name,
    registry.names.get? owner = some name ↔ registry.taken.get? name = some owner
  distinct : registry.taken.keys.Nodup

theorem inverse_empty : empty.Inverse :=
  ⟨fun _ _ => ⟨nofun, nofun⟩, List.nodup_nil⟩

theorem getOrCreateName_of_named (named : registry.names.get? owner = some name)
    (proposed : String) (avoided : List String) :
    registry.getOrCreateName owner proposed avoided = (name, registry) := by
  simp only [getOrCreateName, named]

theorem getOrCreateName_of_unnamed (unnamed : registry.names.get? owner = none)
    (proposed : String) (avoided : List String) :
    registry.getOrCreateName owner proposed avoided =
      (registry.freshName avoided proposed,
        { registry with
          names := registry.names.insert owner (registry.freshName avoided proposed)
          taken := registry.taken.insert (registry.freshName avoided proposed) owner }) := by
  simp only [getOrCreateName, unnamed]

namespace Inverse

/-- **No two owners have one name.** -/
theorem owner_eq (inverse : registry.Inverse) (named : registry.names.get? owner = some name)
    (otherNamed : registry.names.get? other = some name) : owner = other := by
  rw [inverse.names_iff_taken] at named otherNamed
  exact Option.some.inj (named.symm.trans otherNamed)

/-- **Giving a name writes the same pair into both tables.** -/
theorem getOrCreateName (inverse : registry.Inverse) (owner : NameOwner) (proposed : String)
    (avoided : List String) : (registry.getOrCreateName owner proposed avoided).2.Inverse := by
  cases known : registry.names.get? owner with
  | some name =>
      rw [getOrCreateName_of_named known]
      exact inverse
  | none =>
      rw [getOrCreateName_of_unnamed known]
      have free := (isFree_iff.mp (registry.isFree_freshName avoided proposed)).1
      refine ⟨fun other name => ?_, ?_⟩
      · rw [OrderedMap.get?_insert, OrderedMap.get?_insert]
        by_cases isOwner : other = owner
        · by_cases isFresh : name = registry.freshName avoided proposed
          · simp [isOwner, isFresh]
          · have noOwner : registry.taken.get? name ≠ some owner := by
              rw [Ne, ← inverse.names_iff_taken, known]
              exact (Option.some_ne_none _).symm
            simp [isOwner, isFresh, Ne.symm isFresh, noOwner]
        · by_cases isFresh : name = registry.freshName avoided proposed
          · have noName : registry.names.get? other ≠ some name := by
              rw [Ne, inverse.names_iff_taken, isFresh, free]
              exact (Option.some_ne_none _).symm
            rw [if_neg isOwner, if_pos isFresh]
            simp [noName, Ne.symm isOwner]
          · rw [if_neg isOwner, if_neg isFresh]
            exact inverse.names_iff_taken other name
      · rw [OrderedMap.keys_insert]
        exact OrderedSet.nodup_add inverse.distinct

/-- Handing in a model leaves the names as they are. -/
theorem register (inverse : registry.Inverse) (model : TypeModel) :
    (registry.register model).2.Inverse := by
  rw [Registry.register]
  split
  · exact inverse
  · exact ⟨inverse.names_iff_taken, inverse.distinct⟩

/-- **The table of names can be recovered from the owners.** -/
theorem nameOf?_toCatalog (inverse : registry.Inverse) (owner : NameOwner) :
    registry.toCatalog.nameOf? owner = registry.names.get? owner := by
  have iff_taken : ∀ name, registry.toCatalog.nameOf? owner = some name →
      registry.taken.get? name = some owner := by
    intro name named
    obtain ⟨⟨found, _⟩, isFound, rfl⟩ := Option.map_eq_some_iff.mp named
    obtain rfl : found = owner := by simpa using List.find?_some isFound
    obtain ⟨entry, member, same⟩ := List.mem_map.mp (List.mem_of_find?_eq_some isFound)
    obtain ⟨rfl, rfl⟩ := Allotment.mk.inj same
    exact OrderedMap.get?_of_mem_entries inverse.distinct member
  cases known : registry.toCatalog.nameOf? owner with
  | some name => exact ((inverse.names_iff_taken owner name).mpr (iff_taken name known)).symm
  | none =>
      cases named : registry.names.get? owner with
      | none => rfl
      | some name =>
          have taken := (inverse.names_iff_taken owner name).mp named
          have member := OrderedMap.mem_entries_of_get? taken
          have absent := Catalog.nameOf?_eq_none_iff.mp known
          refine absurd ?_ absent
          exact List.mem_map_of_mem (List.mem_map_of_mem member)

end Inverse

/-! ## Uses in turn -/

/-- What a use is answered: the owner's name, or whether the model was accepted. -/
inductive Answer where
  | name (name : String)
  | model (outcome : Outcome Unit)

/-- The answer to a use, and the registry that it leaves. -/
def use (registry : Registry) : Catalog.Use → Answer × Registry
  | .name owner proposed avoided =>
      (registry.getOrCreateName owner proposed avoided).map Answer.name id
  | .model model => (registry.register model).map Answer.model id

/-- The answers to uses in turn, and the registry that they leave. -/
def run (registry : Registry) : List Catalog.Use → List Answer × Registry
  | [] => ([], registry)
  | first :: rest =>
      let (answer, left) := registry.use first
      let (answers, last) := left.run rest
      (answer :: answers, last)

/-- The model of a use that was answered with success. -/
def accepted? : Catalog.Use × Answer → Option TypeModel
  | (.model model, .model (.ok ())) => some model
  | _ => none

/-- The models that were accepted, in their order. -/
def accepted (uses : List Catalog.Use) (answers : List Answer) : List TypeModel :=
  (uses.zip answers).filterMap accepted?

theorem Inverse.use (inverse : registry.Inverse) (use : Catalog.Use) :
    (registry.use use).2.Inverse := by
  cases use with
  | name owner proposed avoided => exact inverse.getOrCreateName owner proposed avoided
  | model model => exact inverse.register model

/-- **The tables stay inverse.** -/
theorem Inverse.run (inverse : registry.Inverse) (uses : List Catalog.Use) :
    (registry.run uses).2.Inverse := by
  induction uses generalizing registry with
  | nil => exact inverse
  | cons first rest ih => exact ih (inverse.use first)

theorem get?_names_use (named : registry.names.get? owner = some name) (use : Catalog.Use) :
    (registry.use use).2.names.get? owner = some name := by
  cases use with
  | name asking proposed avoided =>
      change (registry.getOrCreateName asking proposed avoided).2.names.get? owner = some name
      cases known : registry.names.get? asking with
      | some own => rw [getOrCreateName_of_named known, named]
      | none =>
          have apart : owner ≠ asking := fun same => by rw [same, known] at named; cases named
          rw [getOrCreateName_of_unnamed known, OrderedMap.get?_insert, if_neg apart, named]
  | model model =>
      change (registry.register model).2.names.get? owner = some name
      rw [register]
      split <;> exact named

/-- An owner has its name after all later uses. -/
theorem get?_names_run (named : registry.names.get? owner = some name)
    (uses : List Catalog.Use) : (registry.run uses).2.names.get? owner = some name := by
  induction uses generalizing registry with
  | nil => exact named
  | cons first rest ih => exact ih (get?_names_use named first)

theorem entries_use (registry : Registry) (use : Catalog.Use) :
    (registry.use use).2.models.entries = registry.models.entries ++
      (accepted? (use, (registry.use use).1)).toList.map (fun model => (model.name, model)) := by
  cases use with
  | name owner proposed avoided =>
      change (registry.getOrCreateName owner proposed avoided).2.models.entries = _ ++ []
      rw [getOrCreateName, List.append_nil]
      split <;> rfl
  | model model =>
      simp only [Registry.use, register]
      by_cases known : registry.models.contains model.name = true
      · simp [known, accepted?]
      · have absent : model.name ∉ registry.models.keys := fun member =>
          known (OrderedMap.contains_iff_mem_keys.mpr member)
        simp [known, accepted?, OrderedMap.entries_insert_of_absent absent]

/-- **The models stand in the order in which they were accepted, each under its own name.** -/
theorem entries_run (registry : Registry) (uses : List Catalog.Use) :
    (registry.run uses).2.models.entries = registry.models.entries ++
      (accepted uses (registry.run uses).1).map (fun model => (model.name, model)) := by
  induction uses generalizing registry with
  | nil => exact (List.append_nil _).symm
  | cons first rest ih =>
      have later : (registry.run (first :: rest)).2.models.entries = _ :=
        ih (registry.use first).2
      have both : accepted (first :: rest) (registry.run (first :: rest)).1 =
          (accepted? (first, (registry.use first).1)).toList ++
            accepted rest ((registry.use first).2.run rest).1 := by
        rw [accepted, run, List.zip_cons_cons, List.filterMap_cons]
        cases accepted? (first, (registry.use first).1) <;> rfl
      rw [later, entries_use, both, List.map_append, List.append_assoc]

end Registry

/-! ## Catalogs answer as registries do -/

/-- What a catalog answers to a use. -/
def Catalog.answer (catalog : Catalog) : Catalog.Use → Registry.Answer
  | .name owner proposed avoided => .name (catalog.allot owner proposed avoided).1
  | .model model => .model ((catalog.add model).map (fun _ => ()))

/-- What a catalog answers to uses in turn. -/
def Catalog.answers (catalog : Catalog) : List Catalog.Use → List Registry.Answer
  | [] => []
  | first :: rest => catalog.answer first :: (catalog.use first).answers rest

namespace Registry

variable {registry : Registry} {owner : NameOwner} {model : TypeModel}

/-- The catalog gives the name that the registry gives. -/
theorem Inverse.allot_toCatalog (inverse : registry.Inverse) (owner : NameOwner)
    (proposed : String) (avoided : List String) :
    registry.toCatalog.allot owner proposed avoided =
      ((registry.getOrCreateName owner proposed avoided).1,
        (registry.getOrCreateName owner proposed avoided).2.toCatalog) := by
  have same := inverse.nameOf?_toCatalog owner
  cases known : registry.names.get? owner with
  | some name =>
      rw [known] at same
      rw [Catalog.allot_of_named same, getOrCreateName_of_named known]
  | none =>
      rw [known] at same
      have absent : registry.freshName avoided proposed ∉ registry.taken.keys := by
        rw [← OrderedMap.contains_iff_mem_keys, OrderedMap.contains,
          (isFree_iff.mp (registry.isFree_freshName avoided proposed)).1]
        exact Bool.false_ne_true
      rw [Catalog.allot_of_unnamed same, getOrCreateName_of_unnamed known, freshName_toCatalog]
      simp only [toCatalog, OrderedMap.entries_insert_of_absent absent, List.map_append,
        List.map_singleton]

/-- The catalog accepts a model when the registry does, and refuses it with the same error. -/
theorem add_toCatalog (registry : Registry) (model : TypeModel) :
    registry.toCatalog.add model =
      (registry.register model).1.map (fun _ => (registry.register model).2.toCatalog) := by
  rw [Catalog.add, register, ownerOf?_toCatalog]
  change (if registry.models.contains model.name = true then _ else _) = _
  split <;> rfl

/-- A model that is refused leaves the registry as it is. -/
theorem register_of_error {error : AnalysisError}
    (refused : (registry.register model).1 = .error error) :
    (registry.register model).2 = registry := by
  rw [register] at refused ⊢
  split
  · rfl
  · rename_i absent
    rw [if_neg absent] at refused
    cases refused

/-- **A use of the registry is a use of its catalog.** -/
theorem Inverse.use_toCatalog (inverse : registry.Inverse) (use : Catalog.Use) :
    registry.toCatalog.answer use = (registry.use use).1 ∧
      registry.toCatalog.use use = (registry.use use).2.toCatalog := by
  cases use with
  | name owner proposed avoided =>
      have given := inverse.allot_toCatalog owner proposed avoided
      exact ⟨congrArg (fun allotted : String × Catalog => Answer.name allotted.1) given,
        congrArg Prod.snd given⟩
  | model model =>
      have added := registry.add_toCatalog model
      rw [Catalog.answer, Catalog.use, Registry.use, added, Prod.map_fst, Prod.map_snd]
      cases outcome : (registry.register model).1 with
      | ok done => exact ⟨rfl, rfl⟩
      | error error => exact ⟨rfl, congrArg toCatalog (register_of_error outcome).symm⟩

/-- **Catalogs answer all uses as registries do.** -/
theorem Inverse.run_toCatalog (inverse : registry.Inverse) (uses : List Catalog.Use) :
    registry.toCatalog.answers uses = (registry.run uses).1 ∧
      registry.toCatalog.useAll uses = (registry.run uses).2.toCatalog := by
  induction uses generalizing registry with
  | nil => exact ⟨rfl, rfl⟩
  | cons first rest ih =>
      obtain ⟨answer, left⟩ := inverse.use_toCatalog first
      obtain ⟨answers, last⟩ := ih (inverse.use first)
      refine ⟨?_, ?_⟩
      · rw [Catalog.answers, answer, left, answers]
        rfl
      · rw [Catalog.useAll, List.foldl_cons, left]
        exact last

/-! ## What holds after any uses -/

/-- An owner that has a name is given it whenever it asks again, and nothing changes thereby. -/
def KeepsNames (registry : Registry) : Prop :=
  ∀ owner name, registry.names.get? owner = some name → ∀ later proposed avoided,
    (registry.run later).2.getOrCreateName owner proposed avoided = (name, (registry.run later).2)

/-- The name that an owner without one is given is none of those to avoid and belonged to nobody.
From then on it is the owner's; all other owners and names are as before, and so are the models. -/
structure GivesTo (registry : Registry) (owner : NameOwner) (avoided : List String) (name : String)
    (later : Registry) : Prop where
  notAvoided : name ∉ avoided
  free : registry.taken.get? name = none
  names : ∀ other,
    later.names.get? other = if other = owner then some name else registry.names.get? other
  taken : ∀ other,
    later.taken.get? other = if other = name then some owner else registry.taken.get? other
  models : later.models = registry.models

/-- A model whose name has one already is refused: all tables stay as they are, and the error tells
the position of whoever has the name, if anybody has it and has a position. -/
def Refuses (registry : Registry) (model : TypeModel) : Prop :=
  ∃ path, registry.register model = (.error (.duplicateTypeName model.name path), registry) ∧
    (∀ owner, registry.names.get? owner = some model.name → path = owner.path?) ∧
    ((∀ owner, registry.names.get? owner ≠ some model.name) → path = none)

/-- A model whose name has none yet is added behind the others, and the other tables stay as they
are. -/
structure Accepts (registry : Registry) (model : TypeModel) : Prop where
  accepted : (registry.register model).1 = .ok ()
  names : (registry.register model).2.names = registry.names
  taken : (registry.register model).2.taken = registry.taken
  models : (registry.register model).2.models.entries =
    registry.models.entries ++ [(model.name, model)]

/-- What a registry that started empty keeps through all of its uses. -/
structure Orderly (registry : Registry) (uses : List Catalog.Use) (answers : List Answer) :
    Prop where
  inverse : ∀ owner name,
    registry.names.get? owner = some name ↔ registry.taken.get? name = some owner
  only : ∀ owner other name, registry.names.get? owner = some name →
    registry.names.get? other = some name → owner = other
  keeps : registry.KeepsNames
  gives : ∀ owner proposed avoided, registry.names.get? owner = none →
    registry.GivesTo owner avoided (registry.getOrCreateName owner proposed avoided).1
      (registry.getOrCreateName owner proposed avoided).2
  models : registry.models.entries =
    (accepted uses answers).map (fun model => (model.name, model))
  refuses : ∀ model, model.name ∈ registry.models.keys → registry.Refuses model
  accepts : ∀ model, model.name ∉ registry.models.keys → registry.Accepts model
  catalog : Catalog.empty.answers uses = answers ∧
    Catalog.empty.useAll uses = registry.toCatalog

theorem keepsNames (registry : Registry) : registry.KeepsNames := by
  intro owner name named later proposed avoided
  exact getOrCreateName_of_named (get?_names_run named later) proposed avoided

theorem givesTo_of_unnamed (unnamed : registry.names.get? owner = none)
    (proposed : String) (avoided : List String) :
    registry.GivesTo owner avoided (registry.getOrCreateName owner proposed avoided).1
      (registry.getOrCreateName owner proposed avoided).2 := by
  obtain ⟨free, notAvoided⟩ := isFree_iff.mp (registry.isFree_freshName avoided proposed)
  rw [getOrCreateName_of_unnamed unnamed]
  exact
    { notAvoided, free
      names := fun other => OrderedMap.get?_insert registry.names owner other _
      taken := fun other => OrderedMap.get?_insert registry.taken _ other owner
      models := rfl }

theorem Inverse.refuses (inverse : registry.Inverse)
    (known : model.name ∈ registry.models.keys) : registry.Refuses model := by
  have failed : registry.register model = (.error (.duplicateTypeName model.name
      ((registry.taken.get? model.name).bind NameOwner.path?)), registry) :=
    if_pos (OrderedMap.contains_iff_mem_keys.mpr known)
  refine ⟨_, failed, fun owner named => ?_, fun nobody => ?_⟩
  · rw [(inverse.names_iff_taken owner model.name).mp named, Option.bind_some]
  · cases taken : registry.taken.get? model.name with
    | none => rfl
    | some owner => exact absurd ((inverse.names_iff_taken owner _).mpr taken) (nobody owner)

theorem accepts_of_absent (absent : model.name ∉ registry.models.keys) :
    registry.Accepts model := by
  have added : registry.register model =
      (.ok (), { registry with models := registry.models.insert model.name model }) :=
    if_neg (fun known => absent (OrderedMap.contains_iff_mem_keys.mp known))
  constructor
  case accepted => rw [added]
  case names => rw [added]
  case taken => rw [added]
  case models =>
    rw [added]
    exact OrderedMap.entries_insert_of_absent absent model

/-- **What holds of a new registry after any uses.** -/
theorem orderly_run (uses : List Catalog.Use) :
    (empty.run uses).2.Orderly uses (empty.run uses).1 := by
  have inverse := inverse_empty.run uses
  exact
    { inverse := inverse.names_iff_taken
      only := fun _ _ _ => inverse.owner_eq
      keeps := keepsNames _
      gives := fun _ proposed avoided unnamed => givesTo_of_unnamed unnamed proposed avoided
      models := (entries_run empty uses).trans (List.nil_append _)
      refuses := fun _ => inverse.refuses
      accepts := fun _ => accepts_of_absent
      catalog := inverse_empty.run_toCatalog uses }

/-- A numbered name is taken like any other, and numbers are skipped when they are to avoid. -/
example :
    (empty.run [.name (.schemaType "Dog") "Dog" [],
      .name (.field ⟨["Q", "dog"]⟩) "Dog" ["Dog1"],
      .name (.schemaType "Dog2") "Dog2" []]).2.taken.keys = ["Dog", "Dog2", "Dog21"] := by
  decide +kernel

end Registry

end ResponseShape

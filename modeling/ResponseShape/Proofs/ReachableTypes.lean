import Mathlib.Data.List.Perm.Subperm
import ResponseShape.Proofs.Chains
import ResponseShape.Proofs.NeededTypes

/-!
# The types in use are the reachable ones

The enums and input objects that documents use are exactly those that are reached from the types
that the documents need (`TypeUsage.covers_ofDocuments`). Looking into literals and default values
adds nothing: a visit that ignores the fields of object values finds the same
(`TypeUsage.ofOutlines`).

Following the fields of input objects is a loop over a list that grows under way
(`TypeUsage.Follows`). Its invariant is that the input objects before the present place are closed
under taking the types of fields (`TypeUsage.ClosedBelow`). It makes one round for each input object
in use (`TypeUsage.Follows.rounds_eq`), and no input object is in use twice, so it ends however input
objects contain each other.
-/

set_option autoImplicit false

namespace ResponseShape

theorem OrderedSet.exists_add_eq_append {α : Type} [DecidableEq α] (members : List α)
    (member : α) : ∃ more, add members member = members ++ more := by
  by_cases present : member ∈ members
  · exact ⟨[], by rw [add_of_mem present, List.append_nil]⟩
  · exact ⟨[member], add_of_notMem present⟩

/-- Only input objects have fields for input. -/
theorem TypeDefinition.kind_of_mem_inputFields {type : TypeDefinition}
    {field : InputValueDefinition} (member : field ∈ type.inputFields) :
    type.kind = .inputObject := by
  rw [inputFields] at member
  rw [kind]
  split at member
  · rename_i content
    rw [content]
    rfl
  · cases member

namespace TypeUsage

variable {schema : Schema} {usage later final : TypeUsage} {type : TypeDefinition}
  {allowed roots : TypeDefinition → Prop}

/-! ## Recording -/

/-- The type is recorded, if it is one of those that are. -/
structure Records (usage : TypeUsage) (type : TypeDefinition) : Prop where
  enum : type.kind = .enum → type.name ∈ usage.enums
  input : type.kind = .inputObject → type.name ∈ usage.inputs

/-- Only allowed types are recorded. -/
structure Within (usage : TypeUsage) (allowed : TypeDefinition → Prop) : Prop where
  enums : ∀ name ∈ usage.enums, ∃ type, allowed type ∧ type.kind = .enum ∧ type.name = name
  inputs : ∀ name ∈ usage.inputs, ∃ type, allowed type ∧ type.kind = .inputObject ∧ type.name = name

/-- What was recorded stays, and input objects are recorded behind those that are there. -/
structure Extends (usage later : TypeUsage) : Prop where
  enums : ∀ name ∈ usage.enums, name ∈ later.enums
  inputs : ∃ more, later.inputs = usage.inputs ++ more

theorem Extends.refl (usage : TypeUsage) : usage.Extends usage :=
  ⟨fun _ => id, [], (List.append_nil _).symm⟩

theorem Extends.trans (first : usage.Extends later) (second : later.Extends final) :
    usage.Extends final := by
  obtain ⟨added, inputs⟩ := first.inputs
  obtain ⟨more, inputs'⟩ := second.inputs
  exact ⟨fun name member => second.enums name (first.enums name member), added ++ more,
    by rw [inputs', inputs, List.append_assoc]⟩

theorem Extends.records (extended : usage.Extends later) (records : usage.Records type) :
    later.Records type := by
  obtain ⟨more, inputs⟩ := extended.inputs
  refine ⟨fun kind => extended.enums _ (records.enum kind), fun kind => ?_⟩
  rw [inputs]
  exact List.mem_append_left _ (records.input kind)

theorem extends_record (usage : TypeUsage) (type : TypeDefinition) :
    usage.Extends (usage.record type) := by
  rw [record]
  cases type.kind with
  | enum =>
      exact ⟨fun name member => OrderedSet.mem_add.mpr (.inl member), [],
        (List.append_nil _).symm⟩
  | inputObject => exact ⟨fun _ => id, OrderedSet.exists_add_eq_append usage.inputs type.name⟩
  | scalar | object | interface | union => exact .refl usage

theorem records_record (usage : TypeUsage) (type : TypeDefinition) :
    (usage.record type).Records type := by
  refine ⟨fun kind => ?_, fun kind => ?_⟩
  · rw [record, kind]
    exact OrderedSet.mem_add.mpr (.inr rfl)
  · rw [record, kind]
    exact OrderedSet.mem_add.mpr (.inr rfl)

theorem Within.record (within : usage.Within allowed) (isAllowed : allowed type) :
    (usage.record type).Within allowed := by
  rw [TypeUsage.record]
  cases kind : type.kind with
  | enum =>
      refine ⟨fun name member => ?_, within.inputs⟩
      rcases OrderedSet.mem_add.mp member with before | rfl
      · exact within.enums name before
      · exact ⟨type, isAllowed, kind, rfl⟩
  | inputObject =>
      refine ⟨within.enums, fun name member => ?_⟩
      rcases OrderedSet.mem_add.mp member with before | rfl
      · exact within.inputs name before
      · exact ⟨type, isAllowed, kind, rfl⟩
  | scalar | object | interface | union => exact within

theorem extends_recordAny (usage : TypeUsage) (type : Option TypeDefinition) :
    usage.Extends (usage.recordAny type) := by
  cases type with
  | none => exact .refl usage
  | some type => exact usage.extends_record type

theorem Within.recordAny (within : usage.Within allowed) {type : Option TypeDefinition}
    (isAllowed : ∀ here, type = some here → allowed here) :
    (usage.recordAny type).Within allowed := by
  cases type with
  | none => exact within
  | some type => exact within.record (isAllowed type rfl)

section Folds

variable {α : Type} (read : α → Option TypeDefinition)

theorem extends_foldl (items : List α) (usage : TypeUsage) :
    usage.Extends (items.foldl (fun usage item => usage.recordAny (read item)) usage) :=
  related_foldl .refl .trans (fun usage item => usage.extends_recordAny (read item)) items usage

/-- **Of many items everything is recorded that is read.** -/
theorem records_foldl {items : List α} {item : α} (member : item ∈ items)
    (isRead : read item = some type) (usage : TypeUsage) :
    (items.foldl (fun usage item => usage.recordAny (read item)) usage).Records type := by
  obtain ⟨before, _, after⟩ := exists_related_of_mem .refl .trans
    (fun (usage : TypeUsage) item => usage.extends_recordAny (read item)) member usage
  rw [isRead] at after
  exact after.records (before.records_record type)

/-- **Of many items nothing is recorded but what is read.** -/
theorem within_foldl {items : List α}
    (each : ∀ item ∈ items, ∀ type, read item = some type → allowed type)
    (within : usage.Within allowed) :
    (items.foldl (fun usage item => usage.recordAny (read item)) usage).Within allowed := by
  induction items generalizing usage with
  | nil => exact within
  | cons item rest ih =>
      exact ih (fun other member => each other (List.mem_cons_of_mem _ member))
        (within.recordAny (each item List.mem_cons_self))

end Folds

theorem extends_recordFields (schema : Schema) (usage : TypeUsage) (name : String) :
    usage.Extends (usage.recordFields schema name) :=
  extends_foldl _ _ _

/-! ## Following input objects -/

/-- Following the input objects from a place on, round by round. -/
inductive Follows (schema : Schema) : Nat → TypeUsage → Nat → TypeUsage → Prop where
  | done {usage : TypeUsage} {place : Nat} :
      usage.inputs[place]? = none → Follows schema 0 usage place usage
  | round {usage final : TypeUsage} {place rounds : Nat} {name : String} :
      usage.inputs[place]? = some name →
        Follows schema rounds (usage.recordFields schema name) (place + 1) final →
        Follows schema (rounds + 1) usage place final

/-- **Following ends.** -/
theorem exists_follows (schema : Schema) (usage : TypeUsage) (place : Nat) :
    ∃ rounds, Follows schema rounds usage place (usage.followFrom schema place) := by
  induction usage, place using followFrom.induct schema with
  | case1 usage place last =>
      rw [followFrom]
      split
      · exact ⟨0, .done last⟩
      · simp_all
  | case2 usage place name here ih =>
      obtain ⟨rounds, follows⟩ := ih
      rw [followFrom]
      split
      · simp_all
      · rename_i other found
        obtain rfl : other = name := Option.some.inj (found.symm.trans here)
        exact ⟨rounds + 1, .round here follows⟩

/-- The types of the fields of the input objects before the place are recorded. -/
def ClosedBelow (schema : Schema) (usage : TypeUsage) (place : Nat) : Prop :=
  ∀ index < place, ∀ name, usage.inputs[index]? = some name →
    ∀ type, schema.type? name = some type → ∀ field ∈ type.inputFields,
      ∀ other, schema.type? field.type.namedType = some other → usage.Records other

namespace Follows

variable {rounds place : Nat}

theorem extended (follows : Follows schema rounds usage place final) : usage.Extends final := by
  induction follows with
  | done => exact .refl _
  | round _ _ ih => exact (extends_recordFields _ _ _).trans ih

/-- **A round keeps everything before the place closed**, and the input object at the place is
closed by it. -/
theorem closedBelow_recordFields {name : String} (closed : ClosedBelow schema usage place)
    (here : usage.inputs[place]? = some name) :
    ClosedBelow schema (usage.recordFields schema name) (place + 1) := by
  intro index below other found type known field isField target isTarget
  have extended := extends_recordFields schema usage name
  obtain ⟨more, inputs⟩ := extended.inputs
  have inside : place < usage.inputs.length := (List.getElem?_eq_some_iff.mp here).1
  rw [inputs, List.getElem?_append_left (by omega)] at found
  rcases Nat.lt_succ_iff_lt_or_eq.mp below with earlier | rfl
  · exact extended.records (closed index earlier other found type known field isField target
      isTarget)
  · obtain rfl := Option.some.inj (here.symm.trans found)
    rw [recordFields, known]
    exact records_foldl _ isField isTarget usage

/-- **In the end all input objects are closed.** -/
theorem closed (follows : Follows schema rounds usage place final)
    (before : ClosedBelow schema usage place) :
    ClosedBelow schema final final.inputs.length := by
  induction follows with
  | done last =>
      intro index below
      exact before index (Nat.lt_of_lt_of_le below (List.getElem?_eq_none_iff.mp last))
  | round here _ ih => exact ih (closedBelow_recordFields before here)

/-- Following reaches nothing but types of fields. -/
theorem within (follows : Follows schema rounds usage place final)
    (known : ∀ root, roots root → schema.type? root.name = some root)
    (before : usage.Within (schema.Reaches roots)) : final.Within (schema.Reaches roots) := by
  induction follows with
  | done => exact before
  | @round usage _ place _ name here _ ih =>
      refine ih (within_foldl _ (fun field isField type found => ?_) before)
      obtain ⟨type, reaches, _, rfl⟩ := before.inputs name (List.mem_of_getElem? here)
      rw [reaches.known known] at isField
      exact .field reaches isField found

/-- **There is one round for each input object in use.** -/
theorem rounds_eq (follows : Follows schema rounds usage place final)
    (inside : place ≤ usage.inputs.length) : place + rounds = final.inputs.length := by
  induction follows with
  | done last => exact Nat.le_antisymm inside (List.getElem?_eq_none_iff.mp last)
  | @round usage _ place _ name here _ ih =>
      obtain ⟨more, inputs⟩ := (extends_recordFields schema usage name).inputs
      have below : place < usage.inputs.length := (List.getElem?_eq_some_iff.mp here).1
      have longer : place + 1 ≤ (usage.recordFields schema name).inputs.length := by
        rw [inputs, List.length_append]
        omega
      have later := ih longer
      omega

end Follows

/-! ## Reachable types -/

/-- The enums and input objects in use are exactly those that are reached from the roots. -/
structure Covers (usage : TypeUsage) (schema : Schema) (roots : TypeDefinition → Prop) :
    Prop where
  enums : ∀ name, name ∈ usage.enums ↔
    ∃ type, schema.Reaches roots type ∧ type.kind = .enum ∧ type.name = name
  inputs : ∀ name, name ∈ usage.inputs ↔
    ∃ type, schema.Reaches roots type ∧ type.kind = .inputObject ∧ type.name = name

/-- **Everything that is reached is recorded in the end.** -/
theorem Follows.records_of_reaches {rounds : Nat} (follows : Follows schema rounds usage 0 final)
    (known : ∀ root, roots root → schema.type? root.name = some root)
    (needs : ∀ root, roots root → usage.Records root) (reaches : schema.Reaches roots type) :
    final.Records type := by
  have closed := follows.closed fun index below => absurd below (Nat.not_lt_zero index)
  induction reaches with
  | root isRoot => exact follows.extended.records (needs _ isRoot)
  | field reaches isField found ih =>
      have isInput := ih.input (TypeDefinition.kind_of_mem_inputFields isField)
      obtain ⟨index, here⟩ := List.mem_iff_getElem?.mp isInput
      have below : index < final.inputs.length := (List.getElem?_eq_some_iff.mp here).1
      exact closed index below _ here _ (reaches.known known) _ isField _ found

theorem Follows.covers {rounds : Nat} (follows : Follows schema rounds usage 0 final)
    (known : ∀ root, roots root → schema.type? root.name = some root)
    (within : usage.Within (schema.Reaches roots))
    (needs : ∀ root, roots root → usage.Records root) : final.Covers schema roots := by
  have only := follows.within known within
  refine ⟨fun name => ⟨only.enums name, ?_⟩, fun name => ⟨only.inputs name, ?_⟩⟩
  · rintro ⟨type, reaches, kind, rfl⟩
    exact (follows.records_of_reaches known needs reaches).enum kind
  · rintro ⟨type, reaches, kind, rfl⟩
    exact (follows.records_of_reaches known needs reaches).input kind

/-- The observer that records no types at the fields of object values. -/
def outline : Observer TypeUsage :=
  { observer with onObjectField := fun _ _ _ usage => usage }

/-- The types that documents use when their object values are not looked into. -/
def ofOutlines (schema : Schema) (documents : List Document) : TypeUsage :=
  (documents.foldl (outline.notesOn schema) empty).followFrom schema 0

theorem observer_eq_ofStep :
    observer = Observer.ofStep (fun observation usage => usage.recordAny observation.recorded?) :=
  rfl

theorem outline_eq_ofStep :
    outline = Observer.ofStep (fun observation usage => usage.recordAny observation.outlined?) :=
  rfl

/-- Whatever is recorded of observations, the reachable types are in use if nothing is recorded but
at reached types, and everything outside object values. -/
theorem covers_of_read {documents : List Document} (read : Observation → Option TypeDefinition)
    (all : ∀ observation type, observation.outlined? = some type → read observation = some type)
    (only : ∀ observation type, read observation = some type →
      observation.recorded? = some type) :
    (((documents.flatMap (Document.observations schema)).foldl
      (fun usage observation => usage.recordAny (read observation)) empty).followFrom schema
        0).Covers schema (Document.Needs schema documents) := by
  obtain ⟨rounds, follows⟩ := exists_follows schema
    ((documents.flatMap (Document.observations schema)).foldl
      (fun usage observation => usage.recordAny (read observation)) empty) 0
  refine follows.covers (fun root needs => needs.known) ?_ fun root needs => ?_
  · refine within_foldl read (fun observation member type isRead => ?_) ⟨nofun, nofun⟩
    obtain ⟨document, isDocument, here⟩ := List.mem_flatMap.mp member
    exact Document.sound_of_mem_observations isDocument observation here type
      (only observation type isRead)
  · obtain ⟨observation, member, outlined⟩ := needs.exists_observation
    exact records_foldl read member (all observation root outlined) empty

theorem recorded?_of_outlined? {observation : Observation}
    (outlined : observation.outlined? = some type) : observation.recorded? = some type := by
  rcases observation with ⟨_ | _ | _ | _, scope⟩
  · exact outlined
  · exact outlined
  · exact outlined
  · cases outlined

/-- No input object is in use twice, and each is a type of the schema. -/
theorem Known.length_inputs_le (known : Known schema usage) :
    usage.inputs.length ≤ schema.types.length := by
  have named : usage.inputs ⊆ schema.types.map TypeDefinition.name := by
    intro name member
    obtain ⟨type, found, _⟩ := known.inputs name member
    rw [← Schema.name_of_type? found]
    exact List.mem_map_of_mem (List.mem_of_find?_eq_some found)
  have bound := (List.subperm_of_subset usage.distinctInputs.nodup named).length_le
  rwa [List.length_map] at bound

/-- **The types in use are exactly those that are reached from what the documents need**, whether or
not their object values are looked into. Following the fields of input objects takes no more rounds
than the schema has types. -/
theorem covers_ofDocuments (schema : Schema) (documents : List Document) :
    (ofDocuments schema documents).Covers schema (Document.Needs schema documents) ∧
      (ofOutlines schema documents).Covers schema (Document.Needs schema documents) ∧
      ∃ rounds ≤ schema.types.length,
        Follows schema rounds (documents.foldl (observer.notesOn schema) empty) 0
          (ofDocuments schema documents) := by
  refine ⟨?_, ?_, ?_⟩
  · rw [ofDocuments, observer_eq_ofStep, Observer.foldl_notesOn_ofStep]
    exact covers_of_read _ (fun _ _ => recorded?_of_outlined?) fun _ _ => id
  · rw [ofOutlines, outline_eq_ofStep, Observer.foldl_notesOn_ofStep]
    exact covers_of_read _ (fun _ _ => id) fun _ _ => recorded?_of_outlined?
  · obtain ⟨rounds, follows⟩ := exists_follows schema
      (documents.foldl (observer.notesOn schema) empty) 0
    have total := follows.rounds_eq (Nat.zero_le _)
    have bound := (known_ofDocuments schema documents).length_inputs_le
    refine ⟨rounds, ?_, follows⟩
    rw [ofDocuments] at bound
    omega

end TypeUsage

namespace Sample

/-- A gift is for a guest, and a guest brings gifts and further guests. -/
def partySchema : Schema :=
  ⟨[.type ⟨"Mood", none, [], .enum [⟨"CALM", none, []⟩]⟩,
    .type ⟨"Gift", none, [], .inputObject [⟨"for", .named "Guest", none, none, []⟩]⟩,
    .type ⟨"Guest", none, [], .inputObject
      [⟨"gifts", .list (.named "Gift"), none, none, []⟩,
        ⟨"company", .list (.named "Guest"), none, none, []⟩,
        ⟨"mood", .named "Mood", none, none, []⟩]⟩]⟩

/-- Input objects that contain each other and themselves are followed once. -/
example :
    let usage := TypeUsage.ofDocuments partySchema
      [[.operation { query "Q" [] with
        variableDefinitions := [⟨"gift", .named "Gift", none⟩] }]]
    usage.inputs = ["Gift", "Guest"] ∧ usage.enums = ["Mood"] := by
  decide +kernel

end Sample

end ResponseShape

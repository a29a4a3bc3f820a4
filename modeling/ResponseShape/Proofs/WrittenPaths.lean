import ResponseShape.Model.Json
import ResponseShape.Proofs.ExposedFields
import ResponseShape.Proofs.References

/-!
# The written forms of paths

In the JSON form of an operation the positions of its response are the members of one object, each
under the written form of its path. The written form joins the segments with dots, and of two
members of one name the later takes the place of the earlier. So positions would be lost if two of
them were written alike.

A path of at least one segment in which no segment contains a dot is read back from its written form
(`Path.ofWritten_render`). The segments of the paths of an operation are the name of the operation
and response names of fields that the documents write (`Environment.Builds.writes`), because what a
position selects is taken from the documents, fragments included, at every depth. So if the
documents write names without dots only, the JSON form keeps every position
(`AnalysisRequest.keepsPositions_of_analyze`).
-/

set_option autoImplicit false

namespace ResponseShape

/-! ## Paths -/

namespace Path

/-- The path has a segment, and no dot is in any of its segments. -/
structure Dotless (path : Path) : Prop where
  inside : path.segments ≠ []
  segments : ∀ segment ∈ path.segments, '.' ∉ segment.toList

/-- The path whose segments stand between the dots of a text. -/
def ofWritten (text : String) : Path :=
  ⟨(text.split '.').toList.map (fun segment => segment.copy)⟩

/-- **A path without dots in its segments is read back from its written form.** -/
theorem ofWritten_render {path : Path} (dotless : path.Dotless) : ofWritten path.render = path := by
  obtain ⟨segments⟩ := path
  have parts := String.toList_split_intercalate dotless.segments
  rw [if_neg dotless.inside] at parts
  exact congrArg Path.mk parts

/-- Paths without dots in their segments are written differently. -/
theorem render_inj {path other : Path} (dotless : path.Dotless) (dotless' : other.Dotless)
    (same : path.render = other.render) : path = other := by
  rw [← ofWritten_render dotless, same, ofWritten_render dotless']

end Path

/-! ## Objects whose members have different names -/

/-- Entries of different keys stand in the map as they are given. -/
theorem OrderedMap.entries_ofList {κ ν : Type} [DecidableEq κ] {entries : List (κ × ν)}
    (distinct : (entries.map Prod.fst).Nodup) : (ofList entries).entries = entries := by
  have inserted : ∀ map : OrderedMap κ ν, (∀ entry ∈ entries, entry.1 ∉ map.keys) →
      (entries.foldl (fun map entry => map.insert entry.1 entry.2) map).entries =
        map.entries ++ entries := by
    induction entries with
    | nil => intro map _; exact (List.append_nil _).symm
    | cons entry rest ih =>
        obtain ⟨new, distinct⟩ := List.nodup_cons.mp distinct
        intro map absent
        have here := entries_insert_of_absent (absent entry List.mem_cons_self) entry.2
        rw [List.foldl_cons, ih distinct, here, List.append_assoc]
        · rfl
        · intro other member known
          rw [keys_insert, OrderedSet.mem_add] at known
          rcases known with known | same
          · exact absent other (List.mem_cons_of_mem _ member) known
          · exact new (same ▸ List.mem_map_of_mem member)
  exact inserted empty fun _ _ => List.not_mem_nil

/-- The value of the member of an object that has the name. -/
def Json.member? (json : Json) (name : String) : Option Json :=
  match json with
  | .object members => members.lookup name
  | .null | .text _ | .list _ => none

/-- The JSON form has every position of the operation under its own name, and no others: the paths
are written differently, there are as many members as positions, the member of a position is the
name of its model, and the path is read back from the name of the member. -/
structure OperationModel.KeepsPositions (operation : OperationModel) (json : Json) : Prop where
  named : json.member? "name" = some (.text operation.name)
  injective : ∀ path ∈ operation.paths.keys, ∀ other ∈ operation.paths.keys,
    path.render = other.render → path = other
  members : ∃ members, json.member? "paths" = some (.object members) ∧
    members.length = operation.paths.size ∧
    (∀ path ∈ operation.paths.keys,
      members.lookup path.render = (operation.typeAt? path).map Json.text) ∧
    ∀ name ∈ members.map Prod.fst, Path.ofWritten name ∈ operation.paths.keys ∧
      (Path.ofWritten name).render = name
  segments : ∀ path ∈ operation.paths.keys, Path.ofWritten path.render = path

/-- **Where no segment contains a dot, the JSON form of an operation keeps its positions.** -/
theorem OperationModel.keepsPositions_toJson {operation : OperationModel}
    (distinct : operation.paths.keys.Nodup)
    (dotless : ∀ path ∈ operation.paths.keys, path.Dotless) :
    operation.KeepsPositions operation.toJson := by
  have injective : ∀ path ∈ operation.paths.keys, ∀ other ∈ operation.paths.keys,
      path.render = other.render → path = other :=
    fun path member other isOther => Path.render_inj (dotless path member) (dotless other isOther)
  have back : ∀ path ∈ operation.paths.keys, Path.ofWritten path.render = path :=
    fun path member => Path.ofWritten_render (dotless path member)
  let written := operation.paths.entries.map
    (fun entry => (entry.1.render, Json.text entry.2))
  have names : written.map Prod.fst = operation.paths.keys.map Path.render := by
    simp only [written, OrderedMap.keys, List.map_map, Function.comp_def]
  have distinctNames : (written.map Prod.fst).Nodup := by
    rw [names]
    exact distinct.map_on injective
  refine ⟨rfl, injective, ⟨(OrderedMap.ofList written).entries, rfl, ?_, ?_, ?_⟩, back⟩
  all_goals rw [OrderedMap.entries_ofList distinctNames]
  · exact List.length_map _
  · intro path member
    obtain ⟨⟨path, model⟩, isEntry, rfl⟩ := List.mem_map.mp member
    have found : operation.typeAt? path = some model :=
      OrderedMap.get?_of_mem_entries distinct isEntry
    have isWritten : (path.render, Json.text model) ∈ (OrderedMap.mk written).entries :=
      List.mem_map_of_mem isEntry
    rw [found]
    exact OrderedMap.get?_of_mem_entries distinctNames isWritten
  · intro name member
    rw [names] at member
    obtain ⟨path, isPath, rfl⟩ := List.mem_map.mp member
    rw [back path isPath]
    exact ⟨isPath, rfl⟩

/-! ## Response names that documents write -/

namespace Selection

mutual

/-- The response names of the fields of a selection, at every depth. -/
def responseNames : Selection → List String
  | .field head _ items => head.responseName :: listResponseNames items
  | .spread _ _ _ => []
  | .inline _ _ _ _ items => listResponseNames items

/-- The response names of the fields of a list of selections, at every depth. -/
def listResponseNames : List Selection → List String
  | [] => []
  | selection :: rest => selection.responseNames ++ listResponseNames rest

end

theorem listResponseNames_eq_flatMap (items : List Selection) :
    listResponseNames items = items.flatMap responseNames := by
  induction items with
  | nil => rw [listResponseNames, List.flatMap_nil]
  | cons selection rest ih => rw [listResponseNames, List.flatMap_cons, ih]

/-- The names of an item are names of the list. -/
theorem responseNames_subset {selection : Selection} {items : List Selection}
    (member : selection ∈ items) : selection.responseNames ⊆ listResponseNames items := by
  rw [listResponseNames_eq_flatMap]
  exact fun name isName => List.mem_flatMap.mpr ⟨selection, member, isName⟩

end Selection

/-- The response names of all fields that the documents write. -/
def Document.responseNames (documents : List Document) : List String :=
  (operations documents).flatMap (fun operation => Selection.listResponseNames operation.items) ++
    (fragments documents).flatMap (fun fragment => Selection.listResponseNames fragment.items)

/-! ## Segments of paths -/

namespace Environment

variable {environment : Environment} {runtime scope around type : TypeDefinition}
  {items body : List Selection} {names : List String} {path : Path}

/-- Fields of the fragments have response names among the given ones. -/
def NamesFragments (environment : Environment) (names : List String) : Prop :=
  ∀ fragment ∈ environment.fragments.fragments, Selection.listResponseNames fragment.items ⊆ names

/-- What is entered writes names of the selections or of fragments. -/
theorem Enters.responseNames_subset
    (enters : environment.Enters runtime scope items around body)
    (fragments : environment.NamesFragments names)
    (own : Selection.listResponseNames items ⊆ names) :
    Selection.listResponseNames body ⊆ names := by
  induction enters with
  | start => exact own
  | bare _ member _ ih | inline _ member _ _ _ ih =>
      have inside := Selection.responseNames_subset member
      rw [Selection.responseNames] at inside
      exact List.Subset.trans inside ih
  | spread _ _ _ found _ _ _ => exact fragments _ (FragmentTable.mem_of_find? found).1

/-- **What selections select has response names that they or the fragments write**, and so has what
is selected below. -/
theorem responseNames_of_collectFor {fields : List SelectedField}
    (fragments : environment.NamesFragments names)
    (own : Selection.listResponseNames items ⊆ names)
    (collected : environment.collectFor runtime scope items path = .ok fields) :
    ∀ field ∈ fields, field.responseName ∈ names ∧
      Selection.listResponseNames field.node.items ⊆ names := by
  obtain ⟨nodes, after, walk, _, selected⟩ := collectFor_eq_ok_iff.mp collected
  have met : ∀ node ∈ nodes, node.responseName ∈ names ∧
      Selection.listResponseNames node.items ⊆ names := by
    intro node member
    obtain ⟨_, around, body, enters, inBody⟩ := walk.exposesNode Enters.start.exposes node member
    have inside := List.Subset.trans (Selection.responseNames_subset inBody)
      (enters.responseNames_subset fragments own)
    rw [Selection.responseNames] at inside
    exact List.cons_subset.mp inside
  intro field member
  obtain ⟨node, isMerged, here⟩ := exists_left_of_mem selected member
  obtain ⟨first, isFirst, sameHead, _, whole⟩ := FieldNode.exists_of_mem_merged isMerged
  obtain rfl : field.node = node := (selectField_eq_ok_iff.mp here).2.1
  constructor
  · have same : field.responseName = first.responseName := congrArg FieldHead.responseName sameHead
    rw [same]
    exact (met first isFirst).1
  · rw [whole]
    intro name isName
    rw [Selection.listResponseNames_eq_flatMap] at isName
    obtain ⟨selection, inItems, isName⟩ := List.mem_flatMap.mp isName
    obtain ⟨other, isOther, inOther⟩ := List.mem_flatMap.mp inItems
    exact (met other (List.mem_filter.mp isOther).1).2
      (Selection.responseNames_subset inOther isName)

/-- The segments below the root of the task's path, and what the task selects, are among the
names. -/
structure Writes (names : List String) (task : Task) : Prop where
  segments : ∀ segment ∈ task.path.segments.tail, segment ∈ names
  inside : task.path.segments ≠ []
  selected : ∀ occurrence ∈ task.occurrences.toList,
    Selection.listResponseNames occurrence.node.items ⊆ names

/-- **A plan passes on names of the documents only.** -/
theorem Writes.passes {task : Task} {plan : Plan} (writes : Writes names task)
    (fragments : environment.NamesFragments names) (planned : environment.Plans task plan)
    (composite : environment.IsComposite task) : ∀ child ∈ plan.tasks, Writes names child := by
  obtain ⟨type, _, parts⟩ := planned.exists_parts composite
  intro child isChild
  have selecting : ∀ selected ∈ child.occurrences.toList, selected.responseName ∈ names ∧
      Selection.listResponseNames selected.node.items ⊆ names := by
    intro selected member
    obtain ⟨field, isField, _, _, inField⟩ := (parts.origin_of_task isChild).2 selected member
    obtain ⟨_, occurrence, isOccurrence, runtime, fields, collected, here⟩ :=
      parts.exists_selecting isField selected inField
    exact responseNames_of_collectFor fragments (writes.selected occurrence isOccurrence) collected
      selected here
  have path := parts.path_of_task isChild
  refine ⟨?_, ?_, fun selected member => (selecting selected member).2⟩
  · intro segment member
    rw [path, Path.child, List.tail_append_of_ne_nil writes.inside, List.mem_append,
      List.mem_singleton] at member
    rcases member with above | rfl
    · exact writes.segments segment above
    · exact (selecting _ List.mem_cons_self).1
  · rw [path]
    exact List.concat_ne_nil _ _

variable {catalog later : Catalog} {operation : OperationDefinition} {model : OperationModel}
  {history : List Built}

/-- **Every position of an operation is written with names of the documents.** -/
theorem Builds.writes (builds : environment.Builds catalog operation later model history)
    (fragments : environment.NamesFragments names)
    (own : Selection.listResponseNames operation.items ⊆ names) :
    ∀ built ∈ history, Writes names built.task := by
  refine builds.forall_tasks (Writes names) (fun root _ => ?_)
    fun task plan planned composite writes => writes.passes fragments planned composite
  refine ⟨nofun, List.cons_ne_nil _ _, fun occurrence member => ?_⟩
  obtain rfl := List.mem_singleton.mp member
  exact own

/-- The paths of an operation have no dots in their segments when its name and the response names
have none. -/
theorem Builds.dotless (builds : environment.Builds catalog operation later model history)
    (fragments : environment.NamesFragments names)
    (own : Selection.listResponseNames operation.items ⊆ names)
    (named : '.' ∉ model.name.toList) (dotless : ∀ name ∈ names, '.' ∉ name.toList) :
    ∀ path ∈ model.paths.keys, path.Dotless := by
  intro path member
  obtain ⟨⟨_, name⟩, isEntry, rfl⟩ := List.mem_map.mp member
  have found := OrderedMap.get?_of_mem_entries builds.nodup_paths isEntry
  obtain ⟨built, isBuilt, rfl, _⟩ := builds.origin_of_path found
  have writes := builds.writes fragments own built isBuilt
  obtain ⟨below, segments⟩ := builds.segments_of_mem built isBuilt
  refine ⟨writes.inside, fun segment isSegment => ?_⟩
  rw [segments] at isSegment
  rcases List.mem_cons.mp isSegment with rfl | isBelow
  · exact named
  · refine dotless segment (writes.segments segment ?_)
    rw [segments]
    exact isBelow

/-- Every operation of the result was built from one of the operations. -/
theorem BuildsAll.exists_operation {operations : List OperationDefinition}
    {models : List OperationModel} {histories : List (List Built)}
    (builds : environment.BuildsAll catalog operations later models histories) :
    ∀ model ∈ models, ∃ operation ∈ operations, ∃ before after history,
      environment.Builds before operation after model history := by
  induction builds with
  | nil => simp
  | cons first _ ih =>
      intro model member
      rcases List.mem_cons.mp member with rfl | isLater
      · exact ⟨_, List.mem_cons_self, _, _, _, first⟩
      · obtain ⟨operation, isOperation, here⟩ := ih model isLater
        exact ⟨operation, List.mem_cons_of_mem _ isOperation, here⟩

end Environment

namespace AnalysisRequest

variable {request : AnalysisRequest} {document : DocumentModel}

/-- **The JSON form loses no position.** When neither the names of the operations nor the response
names of the fields contain a dot, the JSON form of the result has the operations in their order,
each with all of its positions under names of their own. -/
theorem keepsPositions_of_analyze (analyzed : request.analyze = .ok document)
    (operationNames : ∀ operation ∈ Document.operations request.documents,
      ∀ name, operation.name = some name → '.' ∉ name.toList)
    (responseNames : ∀ name ∈ Document.responseNames request.documents, '.' ∉ name.toList) :
    ∃ jsons, document.toJson.member? "operations" = some (.list jsons) ∧
      List.Forall₂ OperationModel.KeepsPositions document.operations jsons := by
  obtain ⟨schema, _, _, _, given, _⟩ := exists_of_analyze analyzed
  obtain ⟨fragments, catalog, later, histories, accepted, _, builds, _⟩ :=
    exists_builds given analyzed
  obtain ⟨rfl, _⟩ := FragmentTable.ranked_of_ofDocuments accepted
  refine ⟨document.operations.map OperationModel.toJson, rfl, ?_⟩
  refine List.forall₂_map_right_iff.mpr (List.forall₂_same.mpr fun model member => ?_)
  obtain ⟨operation, isOperation, _, _, history, here⟩ := builds.exists_operation model member
  obtain ⟨_, _, _, _, _, named, _⟩ := here.exists_root
  refine OperationModel.keepsPositions_toJson here.nodup_paths ?_
  refine here.dotless
    (?_ : Environment.NamesFragments _ (Document.responseNames request.documents)) ?_
    (operationNames operation isOperation model.name named) responseNames
  · intro fragment isFragment name isName
    exact List.mem_append_right _ (List.mem_flatMap.mpr ⟨fragment, isFragment, isName⟩)
  · intro name isName
    exact List.mem_append_left _ (List.mem_flatMap.mpr ⟨operation, isOperation, isName⟩)

open Sample in
theorem keepsPositions_of_pets : ∃ document,
    analyze ⟨some petSchema, petDocuments, ["Pet"]⟩ = .ok document ∧
      document.operations.map (fun operation => operation.paths.keys.map Path.render) =
        [["Q", "Q.pet", "Q.pet.owner"]] ∧
      ∃ jsons, document.toJson.member? "operations" = some (.list jsons) ∧
        List.Forall₂ OperationModel.KeepsPositions document.operations jsons := by
  have analyzed : (analyze ⟨some petSchema, petDocuments, ["Pet"]⟩).map (fun document =>
      document.operations.map (fun operation => operation.paths.keys.map Path.render)) =
        .ok [["Q", "Q.pet", "Q.pet.owner"]] :=
    map_analyze_of_within 4 (by decide +kernel)
  obtain ⟨document, analyzed, paths⟩ := map_eq_ok_iff.mp analyzed
  have operationNames : ∀ name ∈ (Document.operations petDocuments).filterMap
      OperationDefinition.name, '.' ∉ name.toList := by decide +kernel
  have responseNames : ∀ name ∈ Document.responseNames petDocuments, '.' ∉ name.toList := by
    decide +kernel
  refine ⟨document, analyzed, paths, keepsPositions_of_analyze analyzed ?_ responseNames⟩
  exact fun operation member name named =>
    operationNames name (List.mem_filterMap.mpr ⟨operation, member, named⟩)

end AnalysisRequest

end ResponseShape

import ResponseShape.Proofs.Grouping
import ResponseShape.Proofs.Outcome
import ResponseShape.Proofs.Walk

/-!
# Merging the nodes of a walk

The nodes of one response name that a walk meets become one node: the first of them with the
selections of all (`FieldNode.mergeAll`). They can be merged when none is in conflict with the
first (`FieldNode.Mergeable`). So the fields that a selection set selects are the merged groups
of the nodes of a walk, in the order in which the response names are met, each with the
definition that the runtime type has for it (`Environment.collectFor_eq_ok_iff`).
-/

set_option autoImplicit false

namespace ResponseShape

namespace FieldNode

/-- The node that stands for nodes of one response name. -/
def mergeAll : List FieldNode → Option FieldNode
  | [] => none
  | first :: rest => some { first with items := (first :: rest).flatMap FieldNode.items }

/-- The nodes can stand for one field: none is in conflict with the first. -/
def Mergeable : List FieldNode → Prop
  | [] => True
  | first :: rest => ∀ node ∈ rest, first.conflict? node = none

/-- Nodes in groups of one response name, each group merged. -/
def merged (nodes : List FieldNode) : List FieldNode :=
  OrderedMap.groupBy responseName mergeAll nodes

/-- The nodes of each response name can stand for one field. -/
def AllMergeable (nodes : List FieldNode) : Prop :=
  ∀ name, Mergeable (nodes.filter (fun node => node.responseName = name))

theorem mergeAt_some_eq_ok_iff {path : Path} {first node result : FieldNode} :
    node.mergeAt path (some first) = .ok result ↔
      first.conflict? node = none ∧ first.join node = result := by
  cases clash : first.conflict? node with
  | none => simp [mergeAt, clash]
  | some conflict => simp [mergeAt, clash]

theorem changeAll_mergeAt_some {path : Path} {first : FieldNode} {nodes : List FieldNode}
    {result : Option FieldNode} :
    OrderedMap.changeAll (mergeAt path) nodes (some first) = .ok result ↔
      (∀ node ∈ nodes, first.conflict? node = none) ∧
        some { first with items := first.items ++ nodes.flatMap FieldNode.items } = result := by
  induction nodes generalizing first with
  | nil => simp
  | cons node rest ih =>
      constructor
      · intro changed
        obtain ⟨next, merging, later⟩ := OrderedMap.changeAll_cons_eq_ok changed
        obtain ⟨agreeing, rfl⟩ := mergeAt_some_eq_ok_iff.mp merging
        obtain ⟨others, same⟩ := ih.mp later
        refine ⟨fun other member => ?_, ?_⟩
        · rcases List.mem_cons.mp member with rfl | isOther
          · exact agreeing
          · exact others other isOther
        · rw [← same, join, List.flatMap_cons, List.append_assoc]
      · rintro ⟨agreeing, same⟩
        have merging : node.mergeAt path (some first) = .ok (first.join node) :=
          mergeAt_some_eq_ok_iff.mpr ⟨agreeing node List.mem_cons_self, rfl⟩
        rw [OrderedMap.changeAll_cons_of_ok _ merging]
        refine ih.mpr ⟨fun other member => agreeing other (List.mem_cons_of_mem _ member), ?_⟩
        rw [← same, join, List.flatMap_cons, List.append_assoc]

/-- Nodes are merged in turn when they can stand for one field. -/
theorem changeAll_mergeAt {path : Path} {nodes : List FieldNode} {result : Option FieldNode} :
    OrderedMap.changeAll (mergeAt path) nodes none = .ok result ↔
      Mergeable nodes ∧ mergeAll nodes = result := by
  cases nodes with
  | nil => simp [Mergeable, mergeAll]
  | cons first rest =>
      have taken : first.mergeAt path none = .ok first := rfl
      rw [OrderedMap.changeAll_cons_of_ok _ taken, changeAll_mergeAt_some]
      rfl

/-- **A merged node is one of the nodes, with the selections of all nodes of its name.** -/
theorem exists_of_mem_merged {nodes : List FieldNode} {node : FieldNode}
    (member : node ∈ merged nodes) :
    ∃ first ∈ nodes, node.head = first.head ∧ node.span = first.span ∧
      node.items = (nodes.filter (fun other => other.responseName = node.responseName)).flatMap
        FieldNode.items := by
  obtain ⟨item, isItem, combined⟩ := OrderedMap.mem_groupBy.mp member
  cases group : nodes.filter (fun other => other.responseName = item.responseName) with
  | nil => simp [group, mergeAll] at combined
  | cons first rest =>
      have isFirst : first ∈ nodes.filter (fun other => other.responseName = item.responseName) :=
        group ▸ List.mem_cons_self
      obtain ⟨present, named⟩ := List.mem_filter.mp isFirst
      rw [group] at combined
      obtain rfl := Option.some.inj combined
      refine ⟨first, present, rfl, rfl, ?_⟩
      have same : first.responseName = item.responseName := by simpa using named
      change _ = (nodes.filter (fun other => other.responseName = first.responseName)).flatMap _
      rw [same, group]

/-- The merged nodes have the response names of all nodes, each once. -/
theorem map_responseName_merged (nodes : List FieldNode) :
    (merged nodes).map responseName = OrderedSet.ofList (nodes.map responseName) := by
  refine OrderedMap.map_groupBy fun node member => ?_
  have here : node ∈ nodes.filter (fun other => other.responseName = node.responseName) :=
    List.mem_filter.mpr ⟨member, by simp⟩
  cases group : nodes.filter (fun other => other.responseName = node.responseName) with
  | nil => simp [group] at here
  | cons first rest =>
      have isFirst : first ∈ nodes.filter (fun other => other.responseName = node.responseName) :=
        group ▸ List.mem_cons_self
      exact ⟨_, rfl, of_decide_eq_true (List.mem_filter.mp isFirst).2⟩

end FieldNode

namespace Environment

variable {environment : Environment} {runtime scope : TypeDefinition} {path : Path}

/-- Meeting nodes succeeds when those of each name can be merged, and gives the merged nodes. -/
theorem meetAll_empty_eq_ok_iff (path : Path) {nodes merged : List FieldNode} :
    (∃ groups, meetAll path OrderedMap.empty nodes = .ok groups ∧ groups.values = merged) ↔
      FieldNode.AllMergeable nodes ∧ FieldNode.merged nodes = merged := by
  constructor
  · rintro ⟨groups, met, rfl⟩
    refine ⟨fun name => ?_, ?_⟩
    · exact (FieldNode.changeAll_mergeAt.mp (OrderedMap.get?_of_updates met name)).1
    · refine (OrderedMap.values_of_updates met fun name result changed => ?_).symm
      exact (FieldNode.changeAll_mergeAt.mp changed).2.symm
  · rintro ⟨mergeable, rfl⟩
    obtain ⟨groups, met⟩ := OrderedMap.exists_updates FieldNode.responseName
      (FieldNode.mergeAt path) OrderedMap.empty nodes
      fun name => ⟨_, FieldNode.changeAll_mergeAt.mpr ⟨mergeable name, rfl⟩⟩
    refine ⟨groups, met, OrderedMap.values_of_updates met fun name result changed => ?_⟩
    exact (FieldNode.changeAll_mergeAt.mp changed).2.symm

theorem selectField_eq_ok_iff {node : FieldNode} {field : SelectedField} :
    selectField runtime path node = .ok field ↔
      runtime.field? node.head.name = some field.definition ∧ field.node = node ∧
        field.setPath = path := by
  obtain ⟨definition, selected, setPath⟩ := field
  cases declared : runtime.field? node.head.name with
  | none => simp [selectField, declared]
  | some found =>
      simp only [selectField, declared, Except.ok.injEq, SelectedField.mk.injEq,
        Option.some.injEq]
      exact ⟨fun ⟨first, second, third⟩ => ⟨first, second.symm, third.symm⟩,
        fun ⟨first, second, third⟩ => ⟨first, second.symm, third.symm⟩⟩

/-- **The selected fields are the merged nodes of a walk, defined on the runtime type.** -/
theorem collectFor_eq_ok_iff {items : List Selection} {fields : List SelectedField} :
    environment.collectFor runtime scope items path = .ok fields ↔
      ∃ nodes after, Walk environment runtime (ScopedSelection.inScope scope items) [] nodes after ∧
        FieldNode.AllMergeable nodes ∧
          List.Forall₂ (fun node field => selectField runtime path node = .ok field)
            (FieldNode.merged nodes) fields := by
  rw [collectFor, bind_eq_ok_iff]
  simp only [mapM_eq_ok_iff]
  constructor
  · rintro ⟨gathering, gathered, selected⟩
    obtain ⟨nodes, walk, met⟩ := gather_eq_ok_iff.mp gathered
    obtain ⟨mergeable, same⟩ := (meetAll_empty_eq_ok_iff path).mp ⟨_, met, rfl⟩
    exact ⟨nodes, _, walk, mergeable, same ▸ selected⟩
  · rintro ⟨nodes, after, walk, mergeable, selected⟩
    obtain ⟨groups, met, values⟩ := (meetAll_empty_eq_ok_iff path).mpr ⟨mergeable, rfl⟩
    exact ⟨⟨groups, after⟩, gather_eq_ok_iff.mpr ⟨nodes, walk, met⟩, values ▸ selected⟩

/-- A walk that meets one node selects one field. -/
theorem collectFor_of_walk {items : List Selection} {node : FieldNode} {after : List String}
    {definition : FieldDefinition}
    (walk : Walk environment runtime (ScopedSelection.inScope scope items) [] [node] after)
    (declared : runtime.field? node.head.name = some definition) :
    environment.collectFor runtime scope items path = .ok [⟨definition, node, path⟩] := by
  have mergeable : FieldNode.AllMergeable [node] := by
    intro name
    by_cases named : node.responseName = name
    · simp [named, FieldNode.Mergeable]
    · simp [named, FieldNode.Mergeable]
  have merged : FieldNode.merged [node] = [node] := by
    rw [FieldNode.merged, OrderedMap.groupBy_of_nodup (by simp)]
    simp [FieldNode.mergeAll]
  refine collectFor_eq_ok_iff.mpr ⟨[node], after, walk, mergeable, ?_⟩
  rw [merged]
  exact .cons (selectField_eq_ok_iff.mpr ⟨declared, rfl, rfl⟩) .nil

end Environment

end ResponseShape

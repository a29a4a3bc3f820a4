import ResponseShape.Proofs.Merging
import ResponseShape.Proofs.NodeEquality

/-!
# Alike nodes select alike fields

Nodes are dropped when they equal a node that is there, and equality is not reflexive: a node
that holds a value that is not a number does not equal itself. Two selections are alike when they
are one selection or equal as they are written, and two nodes are alike when their heads and all
their items are. This relation is reflexive and transitive, and goes along with merging.

A relation of selections that goes along with walks and with merging is a congruence
(`Selection.Congruence`). Walks of related agendas meet related nodes (`Environment.Walk.related`),
and related selections select fields of one definition with related nodes
(`Environment.collectFor_of_related`). Being alike is a congruence, so alike selections select alike
fields (`Environment.collectFor_of_alike`).
-/

set_option autoImplicit false

namespace ResponseShape

/-! ## Heads and selections -/

/-- One head, or heads that are equal as they are written. -/
def FieldHead.Alike (left right : FieldHead) : Prop :=
  left = right ∨ left.equals right = true

namespace FieldHead.Alike

variable {left right : FieldHead}

theorem trans {first second third : FieldHead} (earlier : first.Alike second)
    (later : second.Alike third) : first.Alike third := by
  rcases earlier with rfl | earlier
  · exact later
  · rcases later with rfl | later
    · exact .inr earlier
    · exact .inr (FieldHead.equals_trans earlier later)

theorem name_eq (alike : left.Alike right) : left.name = right.name := by
  rcases alike with rfl | same
  · rfl
  · simp only [FieldHead.equals, Bool.and_eq_true, beq_iff_eq] at same
    exact same.1.1.1.2

theorem responseName_eq (alike : left.Alike right) : left.responseName = right.responseName := by
  rcases alike with rfl | same
  · rfl
  · exact FieldHead.responseName_of_equals same

theorem isExcluded_eq (alike : left.Alike right) :
    isExcluded left.directives = isExcluded right.directives := by
  rcases alike with rfl | same
  · rfl
  · simp only [FieldHead.equals, Bool.and_eq_true, beq_iff_eq] at same
    exact isExcluded_of_equals same.1.2

theorem agree_left (alike : left.Alike right) {arguments : List Argument}
    (agreed : Argument.agree left.arguments arguments = true) :
    Argument.agree right.arguments arguments = true := by
  rcases alike with rfl | same
  · exact agreed
  · simp only [FieldHead.equals, Bool.and_eq_true] at same
    exact Argument.agree_of_equals_left same.1.1.2 agreed

theorem agree_right (alike : left.Alike right) {arguments : List Argument}
    (agreed : Argument.agree arguments left.arguments = true) :
    Argument.agree arguments right.arguments = true := by
  rcases alike with rfl | same
  · exact agreed
  · simp only [FieldHead.equals, Bool.and_eq_true] at same
    exact Argument.agree_of_equals_right same.1.1.2 agreed

end FieldHead.Alike

/-- One selection, or selections that are equal as they are written. -/
def Selection.Alike (left right : Selection) : Prop :=
  left = right ∨ left.equals right = true

namespace Selection

theorem Alike.trans {first second third : Selection} (earlier : first.Alike second)
    (later : second.Alike third) : first.Alike third := by
  rcases earlier with rfl | earlier
  · exact later
  · rcases later with rfl | later
    · exact .inr earlier
    · exact .inr (equals_trans earlier later)

theorem alike_of_listEquals {left right : List Selection} (same : listEquals left right = true) :
    List.Forall₂ Alike left right := by
  induction left generalizing right with
  | nil =>
      cases right with
      | nil => exact .nil
      | cons => simp [listEquals] at same
  | cons first rest ih =>
      cases right with
      | nil => simp [listEquals] at same
      | cons second others =>
          simp only [listEquals, Bool.and_eq_true] at same
          exact .cons (.inr same.1) (ih same.2)

theorem alike_refl (items : List Selection) : List.Forall₂ Alike items items :=
  List.forall₂_same.mpr fun _ _ => .inl rfl

/-- What is alike to a field is a field. -/
theorem Alike.exists_field {head : FieldHead} {span : Span} {items : List Selection}
    {other : Selection} (alike : (field head span items).Alike other) :
    ∃ head' span' items', other = field head' span' items' ∧ head.Alike head' ∧
      List.Forall₂ Alike items items' := by
  rcases alike with rfl | same
  · exact ⟨head, span, items, rfl, .inl rfl, alike_refl items⟩
  · cases other with
    | field head' span' items' =>
        simp only [equals, Bool.and_eq_true] at same
        exact ⟨head', span', items', rfl, .inr same.1.1, alike_of_listEquals same.2⟩
    | spread => simp [equals] at same
    | inline => simp [equals] at same

/-- What is alike to an inline fragment is one on the same type. -/
theorem Alike.exists_inline {condition : Option String} {directives : List Directive}
    {position : Position} {span : Span} {items : List Selection} {other : Selection}
    (alike : (inline condition directives position span items).Alike other) :
    ∃ directives' items', other = inline condition directives' position span items' ∧
      isExcluded directives = isExcluded directives' ∧ List.Forall₂ Alike items items' := by
  rcases alike with rfl | same
  · exact ⟨directives, items, rfl, rfl, alike_refl items⟩
  · cases other with
    | inline condition' directives' position' span' items' =>
        simp only [equals, Bool.and_eq_true, beq_iff_eq] at same
        obtain ⟨⟨⟨⟨rfl, directives⟩, rfl⟩, rfl⟩, items⟩ := same
        exact ⟨directives', items', rfl, isExcluded_of_equals directives,
          alike_of_listEquals items⟩
    | field => simp [equals] at same
    | spread => simp [equals] at same

/-- What is alike to a spread spreads the same fragment. -/
theorem Alike.exists_spread {name : String} {directives : List Directive} {position : Position}
    {other : Selection} (alike : (spread name directives position).Alike other) :
    ∃ directives', other = spread name directives' position ∧
      isExcluded directives = isExcluded directives' := by
  rcases alike with rfl | same
  · exact ⟨directives, rfl, rfl⟩
  · cases other with
    | spread name' directives' position' =>
        simp only [equals, Bool.and_eq_true, beq_iff_eq] at same
        obtain ⟨⟨rfl, directives⟩, rfl⟩ := same
        exact ⟨directives', rfl, isExcluded_of_equals directives⟩
    | field => simp [equals] at same
    | inline => simp [equals] at same

theorem Alike.isExcluded_eq {left right : Selection} (alike : left.Alike right) :
    isExcluded left.directives = isExcluded right.directives := by
  cases left with
  | field head span items =>
      obtain ⟨head', span', items', rfl, heads, _⟩ := alike.exists_field
      exact heads.isExcluded_eq
  | spread name directives position =>
      obtain ⟨directives', rfl, same⟩ := alike.exists_spread
      exact same
  | inline condition directives position span items =>
      obtain ⟨directives', items', rfl, same, _⟩ := alike.exists_inline
      exact same

end Selection

/-! ## Nodes -/

/-- Nodes with alike heads and alike items. -/
structure FieldNode.Alike (left right : FieldNode) : Prop where
  head : left.head.Alike right.head
  items : List.Forall₂ Selection.Alike left.items right.items

namespace FieldNode

theorem Alike.refl (node : FieldNode) : node.Alike node :=
  ⟨.inl rfl, Selection.alike_refl node.items⟩

theorem Alike.trans {first second third : FieldNode} (earlier : first.Alike second)
    (later : second.Alike third) : first.Alike third :=
  ⟨earlier.head.trans later.head,
    forall₂_trans (S := Selection.Alike) (fun _ _ _ => Selection.Alike.trans) earlier.items
      later.items⟩

theorem Alike.responseName_eq {left right : FieldNode} (alike : left.Alike right) :
    left.responseName = right.responseName :=
  alike.head.responseName_eq

theorem alike_of_equals {left right : FieldNode} (same : left.equals right = true) :
    left.Alike right := by
  simp only [equals, Bool.and_eq_true] at same
  exact ⟨.inr same.1.1, Selection.alike_of_listEquals same.2⟩

theorem conflict?_eq_none_iff {first second : FieldNode} :
    first.conflict? second = none ↔
      first.head.name = second.head.name ∧
        Argument.agree first.head.arguments second.head.arguments = true := by
  by_cases named : first.head.name = second.head.name
  · by_cases agreed : Argument.agree first.head.arguments second.head.arguments = true
    · simp [conflict?, named, agreed]
    · simp [conflict?, named, agreed]
  · simp [conflict?, named]

/-- Nodes alike to nodes without conflict have no conflict. -/
theorem conflict?_of_alike {first second first' second' : FieldNode}
    (firstAlike : first.Alike first') (secondAlike : second.Alike second')
    (agreeing : first.conflict? second = none) : first'.conflict? second' = none := by
  rw [conflict?_eq_none_iff] at agreeing ⊢
  refine ⟨?_, secondAlike.head.agree_right (firstAlike.head.agree_left agreeing.2)⟩
  rw [← firstAlike.head.name_eq, ← secondAlike.head.name_eq, agreeing.1]

theorem filter_of_alike {nodes nodes' : List FieldNode} (alike : List.Forall₂ Alike nodes nodes')
    (name : String) :
    List.Forall₂ Alike (nodes.filter (fun node => node.responseName = name))
      (nodes'.filter (fun node => node.responseName = name)) := by
  refine List.rel_filter ?_ alike
  intro left right here
  simp [here.responseName_eq]

theorem mergeable_of_alike {nodes nodes' : List FieldNode}
    (alike : List.Forall₂ Alike nodes nodes') (mergeable : Mergeable nodes) :
    Mergeable nodes' := by
  cases alike with
  | nil => trivial
  | cons first rest =>
      intro node member
      obtain ⟨other, isMember, here⟩ := exists_left_of_mem rest member
      exact conflict?_of_alike first here (mergeable other isMember)

theorem allMergeable_of_alike {nodes nodes' : List FieldNode}
    (alike : List.Forall₂ Alike nodes nodes') (mergeable : AllMergeable nodes) :
    AllMergeable nodes' :=
  fun name => mergeable_of_alike (filter_of_alike alike name) (mergeable name)

theorem merged_of_alike {nodes nodes' : List FieldNode}
    (alike : List.Forall₂ Alike nodes nodes') :
    List.Forall₂ Alike (merged nodes) (merged nodes') := by
  refine OrderedMap.forall₂_groupBy (fun _ _ here => Alike.responseName_eq here) ?_ alike
  intro items others related
  cases related with
  | nil => exact .none
  | cons first rest =>
      refine .some ⟨first.head, ?_⟩
      exact List.rel_flatMap (List.Forall₂.cons first rest) fun _ _ => Alike.items

end FieldNode

/-! ## Walks -/

/-- A relation of selections, with one of nodes, that goes along with walks: related selections are
of one kind, are excluded alike and lead to what is related, and nodes that are related one by one
are related once they are merged. -/
structure Selection.Congruence (selections : Selection → Selection → Prop)
    (nodes : FieldNode → FieldNode → Prop) : Prop where
  excluded : ∀ {left right : Selection}, selections left right →
    isExcluded left.directives = isExcluded right.directives
  field : ∀ {head : FieldHead} {span : Span} {items : List Selection} {other : Selection},
    selections (.field head span items) other → ∃ head' span' items',
      other = .field head' span' items' ∧ nodes ⟨head, span, items⟩ ⟨head', span', items'⟩
  inline : ∀ {condition : Option String} {directives : List Directive} {position : Position}
    {span : Span} {items : List Selection} {other : Selection},
    selections (.inline condition directives position span items) other → ∃ directives' items',
      other = .inline condition directives' position span items' ∧
        List.Forall₂ selections items items'
  spread : ∀ {name : String} {directives : List Directive} {position : Position}
    {other : Selection}, selections (.spread name directives position) other →
      ∃ directives', other = .spread name directives' position
  alike : ∀ {left right : FieldNode}, nodes left right → left.Alike right
  merged : ∀ {left right : List FieldNode}, List.Forall₂ nodes left right →
    List.Forall₂ nodes (FieldNode.merged left) (FieldNode.merged right)

/-- Being alike goes along with walks. -/
theorem Selection.congruence_alike : Selection.Congruence Selection.Alike FieldNode.Alike where
  excluded := Selection.Alike.isExcluded_eq
  field := by
    intro head span items other alike
    obtain ⟨head', span', items', rfl, heads, itemsAlike⟩ := alike.exists_field
    exact ⟨head', span', items', rfl, heads, itemsAlike⟩
  inline := by
    intro condition directives position span items other alike
    obtain ⟨directives', items', rfl, _, itemsAlike⟩ := alike.exists_inline
    exact ⟨directives', items', rfl, itemsAlike⟩
  spread := by
    intro name directives position other alike
    obtain ⟨directives', rfl, _⟩ := alike.exists_spread
    exact ⟨directives', rfl⟩
  alike := id
  merged := FieldNode.merged_of_alike

/-- Related selections in one scope. -/
structure ScopedSelection.Related (selections : Selection → Selection → Prop)
    (left right : ScopedSelection) : Prop where
  scope : left.scope = right.scope
  selection : selections left.selection right.selection

theorem ScopedSelection.inScope_of_related {selections : Selection → Selection → Prop}
    {items items' : List Selection} (scope : TypeDefinition)
    (related : List.Forall₂ selections items items') :
    List.Forall₂ (Related selections) (inScope scope items) (inScope scope items') := by
  rw [inScope, inScope, List.forall₂_map_left_iff, List.forall₂_map_right_iff]
  exact related.imp fun _ _ here => ⟨rfl, here⟩

namespace Environment

variable {environment : Environment} {runtime scope : TypeDefinition} {path : Path}
  {selections : Selection → Selection → Prop} {nodeRelation : FieldNode → FieldNode → Prop}

/-- **Walks of related agendas meet related nodes**, when every fragment is related to itself. -/
theorem Walk.related (congruence : Selection.Congruence selections nodeRelation)
    (bodies : ∀ fragment ∈ environment.fragments.fragments,
      List.Forall₂ selections fragment.items fragment.items)
    {agenda agenda' : List ScopedSelection} {spread after : List String} {nodes : List FieldNode}
    (walk : Walk environment runtime agenda spread nodes after)
    (related : List.Forall₂ (ScopedSelection.Related selections) agenda agenda') :
    ∃ nodes', Walk environment runtime agenda' spread nodes' after ∧
      List.Forall₂ nodeRelation nodes nodes' := by
  induction walk generalizing agenda' with
  | nil spread =>
      cases related
      exact ⟨[], .nil spread, .nil⟩
  | excluded isExcluded _ ih =>
      obtain ⟨⟨_, _⟩, rest, ⟨rfl, here⟩, later, rfl⟩ := List.forall₂_cons_left_iff.mp related
      obtain ⟨nodes', walk, nodesRelated⟩ := ih later
      exact ⟨nodes', .excluded (congruence.excluded here ▸ isExcluded) walk, nodesRelated⟩
  | field included _ ih =>
      obtain ⟨⟨_, _⟩, rest, ⟨rfl, here⟩, later, rfl⟩ := List.forall₂_cons_left_iff.mp related
      have same := congruence.excluded here
      obtain ⟨head', span', items', rfl, nodeRelated⟩ := congruence.field here
      obtain ⟨nodes', walk, nodesRelated⟩ := ih later
      exact ⟨_, .field (same.symm.trans included) walk, .cons nodeRelated nodesRelated⟩
  | inlineEntered included admitted applies _ _ inner ih =>
      obtain ⟨⟨_, _⟩, rest, ⟨rfl, here⟩, later, rfl⟩ := List.forall₂_cons_left_iff.mp related
      have same := congruence.excluded here
      obtain ⟨directives', items', rfl, itemsRelated⟩ := congruence.inline here
      obtain ⟨inside, walkInside, insideRelated⟩ :=
        inner (ScopedSelection.inScope_of_related _ itemsRelated)
      obtain ⟨outside, walkOutside, outsideRelated⟩ := ih later
      exact ⟨_, .inlineEntered (same.symm.trans included) admitted applies walkInside walkOutside,
        List.rel_append insideRelated outsideRelated⟩
  | inlinePassed included admitted passes _ ih =>
      obtain ⟨⟨_, _⟩, rest, ⟨rfl, here⟩, later, rfl⟩ := List.forall₂_cons_left_iff.mp related
      have same := congruence.excluded here
      obtain ⟨directives', items', rfl, _⟩ := congruence.inline here
      obtain ⟨nodes', walk, nodesRelated⟩ := ih later
      exact ⟨nodes', .inlinePassed (same.symm.trans included) admitted passes walk, nodesRelated⟩
  | spreadRepeated included known _ ih =>
      obtain ⟨⟨_, _⟩, rest, ⟨rfl, here⟩, later, rfl⟩ := List.forall₂_cons_left_iff.mp related
      have same := congruence.excluded here
      obtain ⟨directives', rfl⟩ := congruence.spread here
      obtain ⟨nodes', walk, nodesRelated⟩ := ih later
      exact ⟨nodes', .spreadRepeated (same.symm.trans included) known walk, nodesRelated⟩
  | spreadEntered included fresh found admitted applies _ _ inner ih =>
      obtain ⟨⟨_, _⟩, rest, ⟨rfl, here⟩, later, rfl⟩ := List.forall₂_cons_left_iff.mp related
      have same := congruence.excluded here
      obtain ⟨directives', rfl⟩ := congruence.spread here
      have body := bodies _ (FragmentTable.mem_of_find? found).1
      obtain ⟨inside, walkInside, insideRelated⟩ :=
        inner (ScopedSelection.inScope_of_related _ body)
      obtain ⟨outside, walkOutside, outsideRelated⟩ := ih later
      exact ⟨_, .spreadEntered (same.symm.trans included) fresh found admitted applies walkInside
        walkOutside, List.rel_append insideRelated outsideRelated⟩
  | spreadPassed included fresh found admitted passes _ ih =>
      obtain ⟨⟨_, _⟩, rest, ⟨rfl, here⟩, later, rfl⟩ := List.forall₂_cons_left_iff.mp related
      have same := congruence.excluded here
      obtain ⟨directives', rfl⟩ := congruence.spread here
      obtain ⟨nodes', walk, nodesRelated⟩ := ih later
      exact ⟨nodes', .spreadPassed (same.symm.trans included) fresh found admitted passes walk,
        nodesRelated⟩

/-- **Related selections select fields with one definition and with related nodes.** -/
theorem collectFor_of_related (congruence : Selection.Congruence selections nodeRelation)
    (bodies : ∀ fragment ∈ environment.fragments.fragments,
      List.Forall₂ selections fragment.items fragment.items)
    {items items' : List Selection} {fields : List SelectedField}
    (related : List.Forall₂ selections items items')
    (collected : environment.collectFor runtime scope items path = .ok fields) :
    ∃ fields', environment.collectFor runtime scope items' path = .ok fields' ∧
      List.Forall₂ (fun field field' => field.definition = field'.definition ∧
        field.setPath = field'.setPath ∧ nodeRelation field.node field'.node) fields fields' := by
  obtain ⟨nodes, after, walk, mergeable, selected⟩ := collectFor_eq_ok_iff.mp collected
  obtain ⟨nodes', walk', nodesRelated⟩ :=
    walk.related congruence bodies (ScopedSelection.inScope_of_related scope related)
  have placed : List.Forall₂ (fun field node => runtime.field? node.head.name =
      some field.definition ∧ nodeRelation field.node node ∧ field.setPath = path) fields
      (FieldNode.merged nodes') := by
    refine forall₂_trans ?_ selected.flip (congruence.merged nodesRelated)
    intro field node other here there
    obtain ⟨declared, rfl, placed⟩ := selectField_eq_ok_iff.mp here
    exact ⟨(congruence.alike there).head.name_eq ▸ declared, there, placed⟩
  obtain ⟨fields', selected', fieldsRelated⟩ := exists_forall₂
    (S := fun node field => selectField runtime path node = .ok field)
    (T := fun field field' => field.definition = field'.definition ∧
      field.setPath = field'.setPath ∧ nodeRelation field.node field'.node)
    (fun field node ⟨declared, here, placed⟩ =>
      ⟨⟨field.definition, node, path⟩, selectField_eq_ok_iff.mpr ⟨declared, rfl, rfl⟩,
        rfl, placed, here⟩) placed
  have nodesAlike := nodesRelated.imp fun _ _ => congruence.alike
  exact ⟨fields', collectFor_eq_ok_iff.mpr ⟨nodes', after, walk',
    FieldNode.allMergeable_of_alike nodesAlike mergeable, selected'⟩, fieldsRelated⟩

end Environment

/-- Fields with one definition, at one path, with alike nodes. -/
structure SelectedField.Alike (left right : SelectedField) : Prop where
  definition : left.definition = right.definition
  setPath : left.setPath = right.setPath
  node : left.node.Alike right.node

namespace SelectedField.Alike

variable {left right : SelectedField}

theorem responseName_eq (alike : left.Alike right) : left.responseName = right.responseName :=
  alike.node.responseName_eq

theorem namedType_eq (alike : left.Alike right) : left.namedType = right.namedType :=
  congrArg (fun definition => definition.type.namedType) alike.definition

end SelectedField.Alike

namespace Environment

variable {environment : Environment} {runtime scope : TypeDefinition} {path : Path}

/-- **Alike selections select alike fields.** -/
theorem collectFor_of_alike {items items' : List Selection} {fields : List SelectedField}
    (alike : List.Forall₂ Selection.Alike items items')
    (collected : environment.collectFor runtime scope items path = .ok fields) :
    ∃ fields', environment.collectFor runtime scope items' path = .ok fields' ∧
      List.Forall₂ SelectedField.Alike fields fields' := by
  obtain ⟨fields', collected', related⟩ := collectFor_of_related Selection.congruence_alike
    (fun fragment _ => Selection.alike_refl fragment.items) alike collected
  exact ⟨fields', collected', related.imp fun _ _ ⟨definition, setPath, node⟩ =>
    ⟨definition, setPath, node⟩⟩

end Environment

end ResponseShape

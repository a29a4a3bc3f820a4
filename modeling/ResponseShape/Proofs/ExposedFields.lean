import ResponseShape.Proofs.Merging
import ResponseShape.Proofs.ScopeChecks

/-!
# The fields that a walk meets

A walk meets the fields that are exposed and not excluded, and it meets no others
(`Environment.Walk.mem_nodes_iff`). That every node was exposed is an invariant of the agenda. For
the other direction, whatever is come to was walked as a part of the walk, at the first spread of
the fragment around it if not where it is come to: a fragment is entered or passed over by what its
condition applies to, which is the same wherever it is spread.

So the response names that are selected for a type can be read off what is exposed for it
(`Environment.mem_responseNames_iff`), whatever the order is in which it is walked. A type gets all
that another type gets when every type that applies to the other one applies to it
(`Environment.map_responseName_subset`).
-/

set_option autoImplicit false

namespace ResponseShape

namespace Environment

/-- The node is that of a field which is exposed and not excluded. -/
def ExposesNode (environment : Environment) (runtime scope : TypeDefinition)
    (items : List Selection) (node : FieldNode) : Prop :=
  isExcluded node.head.directives = false ∧
    ∃ around, environment.Exposes runtime scope items
      ⟨around, .field node.head node.span node.items⟩

variable {environment : Environment} {runtime scope around type : TypeDefinition}
  {items body inner : List Selection} {agenda : List ScopedSelection}
  {spread after : List String} {nodes : List FieldNode}

/-! ## What is met is exposed -/

/-- **A walk of what is exposed meets exposed fields.** -/
theorem Walk.exposesNode (walk : Walk environment runtime agenda spread nodes after)
    (exposed : ∀ entry ∈ agenda, environment.Exposes runtime scope items entry) :
    ∀ node ∈ nodes, environment.ExposesNode runtime scope items node := by
  induction walk with
  | nil => simp
  | excluded _ _ ih | inlinePassed _ _ _ _ ih | spreadRepeated _ _ _ ih
  | spreadPassed _ _ _ _ _ _ ih =>
      exact ih (List.forall_mem_cons.mp exposed).2
  | field included _ ih =>
      obtain ⟨here, later⟩ := List.forall_mem_cons.mp exposed
      intro node member
      rcases List.mem_cons.mp member with rfl | isLater
      · exact ⟨included, _, here⟩
      · exact ih later node isLater
  | inlineEntered included admitted applies _ _ ihInside ihOutside =>
      obtain ⟨here, later⟩ := List.forall_mem_cons.mp exposed
      have entered := here.inside_inline included admitted applies
      intro node member
      rcases List.mem_append.mp member with inside | outside
      · exact ihInside entered.exposes node inside
      · exact ihOutside later node outside
  | spreadEntered included _ found admitted applies _ _ ihInside ihOutside =>
      obtain ⟨here, later⟩ := List.forall_mem_cons.mp exposed
      have entered := here.inside_spread included found admitted applies
      intro node member
      rcases List.mem_append.mp member with inside | outside
      · exact ihInside entered.exposes node inside
      · exact ihOutside later node outside

/-! ## What is exposed is met -/

/-- The selections are walked in the scope, in a walk in which at most `nodes` are met and at most
the fragments `after` are spread. -/
def Met (environment : Environment) (runtime : TypeDefinition) (nodes : List FieldNode)
    (after : List String) (scope : TypeDefinition) (items : List Selection) : Prop :=
  ∃ before found between,
    Walk environment runtime (ScopedSelection.inScope scope items) before found between ∧
      found ⊆ nodes ∧ between ⊆ after

namespace Met

theorem walked (met : environment.Met runtime nodes after scope items) :
    environment.Walked runtime after scope items := by
  obtain ⟨before, found, between, walk, _, within⟩ := met
  exact ⟨before, found, between, walk, within⟩

theorem mono {moreNodes : List FieldNode} {more : List String}
    (met : environment.Met runtime nodes after scope items) (wider : nodes ⊆ moreNodes)
    (longer : after ⊆ more) : environment.Met runtime moreNodes more scope items := by
  obtain ⟨before, found, between, walk, met, within⟩ := met
  exact ⟨before, found, between, walk, List.Subset.trans met wider,
    List.Subset.trans within longer⟩

/-- Each of the selections is walked as a part of the walk. -/
theorem exists_of_mem (met : environment.Met runtime nodes after scope items)
    {selection : Selection} (member : selection ∈ items) :
    ∃ before found between, Walk environment runtime [⟨scope, selection⟩] before found between ∧
      found ⊆ nodes ∧ between ⊆ after := by
  obtain ⟨before, found, last, walk, met, within⟩ := met
  obtain ⟨left, right, rfl⟩ := List.append_of_mem member
  have parted : ScopedSelection.inScope scope (left ++ selection :: right) =
      ScopedSelection.inScope scope left ++
        ([⟨scope, selection⟩] ++ ScopedSelection.inScope scope right) := by
    simp [ScopedSelection.inScope]
  rw [parted] at walk
  obtain ⟨earlier, middle, others, _, later, rfl⟩ := Walk.append_iff.mp walk
  obtain ⟨here, between, last, walked, rest, rfl⟩ := Walk.append_iff.mp later
  refine ⟨middle, here, between, walked, ?_, List.Subset.trans rest.subset within⟩
  intro node isHere
  apply met
  simp [isHere]

theorem mem_of_field (met : environment.Met runtime nodes after scope items) {node : FieldNode}
    (member : .field node.head node.span node.items ∈ items)
    (included : isExcluded node.head.directives = false) : node ∈ nodes := by
  obtain ⟨_, _, _, walk, met, _⟩ := met.exists_of_mem member
  cases walk with
  | excluded isExcluded _ => simp [Selection.directives, included] at isExcluded
  | field _ _ => exact met List.mem_cons_self

/-- Inline fragments that apply are walked as a part of the walk. -/
theorem inline (met : environment.Met runtime nodes after scope items)
    {condition : Option String} {directives : List Directive} {position : Position} {span : Span}
    (member : .inline condition directives position span inner ∈ items)
    (included : isExcluded directives = false) :
    ∃ type, environment.AdmitsInline condition scope type ∧
      (type.appliesTo runtime = true → environment.Met runtime nodes after type inner) := by
  obtain ⟨_, _, _, walk, met, within⟩ := met.exists_of_mem member
  cases walk with
  | excluded isExcluded _ => simp [Selection.directives, included] at isExcluded
  | inlineEntered _ admitted _ inside outside =>
      refine ⟨_, admitted, fun _ => ⟨_, _, _, inside, ?_, List.Subset.trans outside.subset within⟩⟩
      exact List.Subset.trans (List.subset_append_left _ _) met
  | inlinePassed _ admitted passes _ =>
      exact ⟨_, admitted, fun applies => by simp [passes] at applies⟩

end Met

/-- The condition of the named fragment is that of the type, and its selections are walked as a part
of the walk if it applies. -/
structure MetFragment (environment : Environment) (runtime : TypeDefinition)
    (nodes : List FieldNode) (after : List String) (name : String)
    (fragment : FragmentDefinition) (type : TypeDefinition) : Prop where
  found : environment.fragments.find? name = some fragment
  known : environment.schema.type? fragment.condition = some type
  met : type.appliesTo runtime = true → environment.Met runtime nodes after type fragment.items

theorem MetFragment.mono {moreNodes : List FieldNode} {more : List String} {name : String}
    {fragment : FragmentDefinition}
    (here : environment.MetFragment runtime nodes after name fragment type)
    (wider : nodes ⊆ moreNodes) (longer : after ⊆ more) :
    environment.MetFragment runtime moreNodes more name fragment type :=
  { here with met := fun applies => (here.met applies).mono wider longer }

/-- **Every fragment that is spread in a walk is walked as a part of it if it applies.** -/
theorem Walk.exists_metFragment (walk : Walk environment runtime agenda spread nodes after) :
    ∀ name ∈ after, name ∈ spread ∨ ∃ fragment type,
      environment.MetFragment runtime nodes after name fragment type := by
  -- A name is spread by the rest of the walk, inside the fragment, or by the selection itself.
  induction walk with
  | nil => exact fun name member => .inl member
  | excluded _ _ ih | inlinePassed _ _ _ _ ih | spreadRepeated _ _ _ ih => exact ih
  | field _ _ ih =>
      intro name member
      rcases ih name member with known | ⟨_, _, here⟩
      · exact .inl known
      · exact .inr ⟨_, _, here.mono (List.subset_cons_self _ _) (List.Subset.refl _)⟩
  | inlineEntered _ _ _ _ outside ihInside ihOutside =>
      intro name member
      rcases ihOutside name member with before | ⟨_, _, here⟩
      · rcases ihInside name before with known | ⟨_, _, here⟩
        · exact .inl known
        · exact .inr ⟨_, _, here.mono (List.subset_append_left _ _) outside.subset⟩
      · exact .inr ⟨_, _, here.mono (List.subset_append_right _ _) (List.Subset.refl _)⟩
  | spreadEntered _ _ found admitted _ inside outside ihInside ihOutside =>
      intro name member
      rcases ihOutside name member with before | ⟨_, _, here⟩
      · rcases ihInside name before with known | ⟨_, _, here⟩
        · rcases List.mem_cons.mp known with rfl | known
          · exact .inr ⟨_, _, found, admitted.1,
              fun _ => ⟨_, _, _, inside, List.subset_append_left _ _, outside.subset⟩⟩
          · exact .inl known
        · exact .inr ⟨_, _, here.mono (List.subset_append_left _ _) outside.subset⟩
      · exact .inr ⟨_, _, here.mono (List.subset_append_right _ _) (List.Subset.refl _)⟩
  | spreadPassed _ _ found admitted passes _ ih =>
      intro name member
      rcases ih name member with known | here
      · rcases List.mem_cons.mp known with rfl | known
        · exact .inr ⟨_, _, found, admitted.1, fun applies => by simp [passes] at applies⟩
        · exact .inl known
      · exact .inr here

section Whole

variable (walk : Walk environment runtime (ScopedSelection.inScope scope items) [] nodes after)
  (applies : scope.appliesTo runtime = true)

include walk applies

/-- **Whatever is come to was walked as a part of the walk.** -/
theorem met_of_enters (enters : environment.Enters runtime scope items around body) :
    around.appliesTo runtime = true ∧ environment.Met runtime nodes after around body := by
  -- The scope applies to the object type all along, so bare inline fragments are walked, too.
  induction enters with
  | start => exact ⟨applies, _, _, _, walk, List.Subset.refl _, List.Subset.refl _⟩
  | bare _ member included ih =>
      obtain ⟨around, met⟩ := ih
      obtain ⟨type, rfl, inside⟩ := met.inline member included
      exact ⟨around, inside around⟩
  | inline _ member included known here ih =>
      obtain ⟨type, admitted, inside⟩ := ih.2.inline member included
      obtain rfl := Option.some.inj (known.symm.trans admitted.1)
      exact ⟨here, inside here⟩
  | spread _ member included found known here ih =>
      have isSpread := ih.2.walked.mem_of_spread member included
      obtain ⟨fragment, type, first⟩ :=
        (walk.exists_metFragment _ isSpread).resolve_left List.not_mem_nil
      obtain rfl := Option.some.inj (found.symm.trans first.found)
      obtain rfl := Option.some.inj (known.symm.trans first.known)
      exact ⟨here, first.met here⟩

/-- **A walk meets the fields that are exposed and not excluded.** -/
theorem Walk.mem_nodes_iff {node : FieldNode} :
    node ∈ nodes ↔ environment.ExposesNode runtime scope items node := by
  constructor
  · exact walk.exposesNode Enters.start.exposes node
  · rintro ⟨included, around, body, enters, member⟩
    exact (met_of_enters walk applies enters).2.mem_of_field member included

end Whole

/-! ## What is selected -/

variable {path : Path} {fields : List SelectedField}

/-- The selected fields have the response names of the nodes of a walk. -/
theorem exists_walk_of_collectFor
    (collected : environment.collectFor runtime scope items path = .ok fields) :
    ∃ nodes after, Walk environment runtime (ScopedSelection.inScope scope items) [] nodes after ∧
      fields.map SelectedField.responseName =
        OrderedSet.ofList (nodes.map FieldNode.responseName) := by
  obtain ⟨nodes, after, walk, _, selected⟩ := collectFor_eq_ok_iff.mp collected
  refine ⟨nodes, after, walk, ?_⟩
  calc fields.map SelectedField.responseName
      = (FieldNode.merged nodes).map FieldNode.responseName := by
        refine (forall₂_map_eq (fun node field here => ?_) selected).symm
        exact congrArg FieldNode.responseName (selectField_eq_ok_iff.mp here).2.1.symm
    _ = OrderedSet.ofList (nodes.map FieldNode.responseName) :=
        FieldNode.map_responseName_merged nodes

/-- **The response names of the selected fields are those of the fields that are exposed.** -/
theorem mem_responseNames_iff (applies : scope.appliesTo runtime = true)
    (collected : environment.collectFor runtime scope items path = .ok fields) {name : String} :
    name ∈ fields.map SelectedField.responseName ↔
      ∃ node, environment.ExposesNode runtime scope items node ∧ node.responseName = name := by
  obtain ⟨nodes, after, walk, names⟩ := exists_walk_of_collectFor collected
  simp only [names, OrderedSet.mem_ofList, List.mem_map, walk.mem_nodes_iff applies]

/-- Fragments that apply to one type are entered for another when whatever applies to the first
applies to the second. -/
theorem Enters.of_applies {other : TypeDefinition}
    (enters : environment.Enters runtime scope items around body)
    (applies : ∀ name type, environment.schema.type? name = some type →
      type.appliesTo runtime = true → type.appliesTo other = true) :
    environment.Enters other scope items around body := by
  induction enters with
  | start => exact .start
  | bare _ member included ih => exact .bare ih member included
  | inline _ member included known here ih =>
      exact .inline ih member included known (applies _ _ known here)
  | spread _ member included found known here ih =>
      exact .spread ih member included found known (applies _ _ known here)

/-- **A type gets the fields of another** when whatever applies to the other one applies to it. -/
theorem map_responseName_subset {other : TypeDefinition} {otherFields : List SelectedField}
    {otherPath : Path} (appliesHere : scope.appliesTo runtime = true)
    (applies : ∀ name type, environment.schema.type? name = some type →
      type.appliesTo runtime = true → type.appliesTo other = true)
    (appliesThere : scope.appliesTo other = true)
    (collected : environment.collectFor runtime scope items path = .ok fields)
    (collectedThere : environment.collectFor other scope items otherPath = .ok otherFields) :
    fields.map SelectedField.responseName ⊆ otherFields.map SelectedField.responseName := by
  intro name member
  obtain ⟨node, ⟨included, around, body, enters, isItem⟩, rfl⟩ :=
    (mem_responseNames_iff appliesHere collected).mp member
  apply (mem_responseNames_iff appliesThere collectedThere).mpr
  exact ⟨node, ⟨included, around, body, enters.of_applies applies, isItem⟩, rfl⟩

end Environment

end ResponseShape

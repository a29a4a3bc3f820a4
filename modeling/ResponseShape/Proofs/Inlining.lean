import ResponseShape.Proofs.Expansion
import ResponseShape.Proofs.Thinning

/-!
# Walks of inlined fragments

Selections whose fragments are expanded can be walked without spreads. Such a walk meets the nodes
of a fragment again wherever it is spread, while a walk of the selections as they are written
enters a fragment once. What it leaves out was met before: when a fragment is spread again, the
nodes of its expansion have all been seen (`Environment.Exhausts`). So the nodes of a walk of the
expansion, thinned by leaving out repeated nodes, are the expanded nodes of a walk of the
selections (`Environment.retraces_of_expands`).

Merging such nodes gives selections that are repeated in turn. Selections are inlined by selections
that thin to their expansion (`FragmentTable.Inlines`), and this relation goes along with
collecting (`Environment.collectFor_of_inlines`).
-/

set_option autoImplicit false

namespace ResponseShape

/-! ## Walks without spreads -/

namespace FragmentTable

variable {table : FragmentTable}

/-- An expansion spreads nothing. -/
theorem Expands.listSpreads_eq_nil {items full : List Selection}
    (expands : Expands table items full) :
    Selection.listSpreads full = [] := by
  induction expands with
  | nil => rfl
  | field _ _ inside ih | inline _ _ inside ih | spread _ _ _ inside ih =>
      rw [Selection.listSpreads, Selection.spreads, inside, ih]
      rfl
  | undefined _ _ ih => exact ih

/-- Everything that the selections spread is defined. -/
def Defines (table : FragmentTable) (items : List Selection) : Prop :=
  ∀ spread ∈ Selection.listSpreads items, (table.find? spread.name).isSome = true

/-- Everything that the fragments spread is defined. -/
def Closed (table : FragmentTable) : Prop :=
  ∀ name fragment, table.find? name = some fragment → table.Defines fragment.items

namespace Defines

variable {items rest : List Selection}

theorem tail {selection : Selection} (defined : table.Defines (selection :: rest)) :
    table.Defines rest := fun spread member =>
  defined spread (by simp [Selection.listSpreads, member])

theorem field {head : FieldHead} {span : Span}
    (defined : table.Defines (.field head span items :: rest)) : table.Defines items :=
  fun spread member =>
    defined spread (by simp [Selection.listSpreads, Selection.spreads, member])

theorem inline {condition : Option String} {directives : List Directive} {position : Position}
    {span : Span}
    (defined : table.Defines (.inline condition directives position span items :: rest)) :
    table.Defines items := fun spread member =>
  defined spread (by simp [Selection.listSpreads, Selection.spreads, member])

theorem find?_ne_none {name : String} {directives : List Directive} {position : Position}
    (defined : table.Defines (.spread name directives position :: rest)) :
    table.find? name ≠ none := by
  intro missing
  have here := defined ⟨name, position⟩ (by simp [Selection.listSpreads, Selection.spreads])
  simp [missing] at here

end Defines

end FragmentTable

namespace Environment

variable {environment : Environment} {runtime scope : TypeDefinition}
  {spread after after' : List String} {nodes nodes' : List FieldNode}

theorem Admits.unique {condition : String} {type type' : TypeDefinition}
    (first : environment.Admits condition scope type)
    (second : environment.Admits condition scope type') : type = type' :=
  Option.some.inj (first.1.symm.trans second.1)

theorem AdmitsInline.unique {condition : Option String} {type type' : TypeDefinition}
    (first : environment.AdmitsInline condition scope type)
    (second : environment.AdmitsInline condition scope type') : type = type' := by
  cases condition with
  | none => exact first.trans second.symm
  | some name => exact Admits.unique first second

namespace Walk

theorem after_eq {agenda : List ScopedSelection}
    (walk : Walk environment runtime agenda spread nodes after)
    (flat : Selection.listSpreads (agenda.map ScopedSelection.selection) = []) :
    after = spread := by
  induction walk with
  | nil => rfl
  | excluded _ _ ih | field _ _ ih | inlinePassed _ _ _ _ ih =>
      rw [List.map_cons, Selection.listSpreads, List.append_eq_nil_iff] at flat
      exact ih flat.2
  | inlineEntered _ _ _ _ _ inside ih =>
      rw [List.map_cons, Selection.listSpreads, List.append_eq_nil_iff] at flat
      rw [ih flat.2, inside]
      simpa [ScopedSelection.inScope, Function.comp_def, Selection.spreads] using flat.1
  | spreadRepeated | spreadEntered | spreadPassed =>
      simp [Selection.listSpreads, Selection.spreads] at flat

/-- A walk of selections without spreads spreads nothing. -/
theorem after_eq_of_inScope {items : List Selection}
    (walk : Walk environment runtime (ScopedSelection.inScope scope items) spread nodes after)
    (none : Selection.listSpreads items = []) : after = spread := by
  refine walk.after_eq ?_
  simpa [ScopedSelection.inScope, Function.comp_def] using none

/-- **An agenda has one walk at most.** -/
theorem unique {agenda : List ScopedSelection}
    (first : Walk environment runtime agenda spread nodes after)
    (second : Walk environment runtime agenda spread nodes' after') :
    nodes = nodes' ∧ after = after' := by
  induction first generalizing nodes' after' with
  | nil =>
      cases second
      exact ⟨rfl, rfl⟩
  | excluded excludes _ ih =>
      cases second with
      | excluded _ later => exact ih later
      | field included | inlineEntered included | inlinePassed included
      | spreadRepeated included | spreadEntered included | spreadPassed included =>
          simp [Selection.directives, included] at excludes
  | field included _ ih =>
      cases second with
      | excluded excludes => simp [Selection.directives, included] at excludes
      | field _ later =>
          obtain ⟨rfl, rfl⟩ := ih later
          exact ⟨rfl, rfl⟩
  | inlineEntered included admitted applies _ _ inside ih =>
      cases second with
      | excluded excludes => simp [Selection.directives, included] at excludes
      | inlineEntered _ admitted' _ inner later =>
          obtain rfl := admitted.unique admitted'
          obtain ⟨rfl, rfl⟩ := inside inner
          obtain ⟨rfl, rfl⟩ := ih later
          exact ⟨rfl, rfl⟩
      | inlinePassed _ admitted' passes =>
          obtain rfl := admitted.unique admitted'
          simp [passes] at applies
  | inlinePassed included admitted passes _ ih =>
      cases second with
      | excluded excludes => simp [Selection.directives, included] at excludes
      | inlineEntered _ admitted' applies =>
          obtain rfl := admitted.unique admitted'
          simp [passes] at applies
      | inlinePassed _ _ _ later => exact ih later
  | spreadRepeated included known _ ih =>
      cases second with
      | excluded excludes => simp [Selection.directives, included] at excludes
      | spreadRepeated _ _ later => exact ih later
      | spreadEntered _ fresh | spreadPassed _ fresh => exact absurd known fresh
  | spreadEntered included fresh found admitted applies _ _ inside ih =>
      cases second with
      | excluded excludes => simp [Selection.directives, included] at excludes
      | spreadRepeated _ known => exact absurd known fresh
      | spreadEntered _ _ found' admitted' _ inner later =>
          obtain rfl := Option.some.inj (found.symm.trans found')
          obtain rfl := admitted.unique admitted'
          obtain ⟨rfl, rfl⟩ := inside inner
          obtain ⟨rfl, rfl⟩ := ih later
          exact ⟨rfl, rfl⟩
      | spreadPassed _ _ found' admitted' passes =>
          obtain rfl := Option.some.inj (found.symm.trans found')
          obtain rfl := admitted.unique admitted'
          simp [passes] at applies
  | spreadPassed included fresh found admitted passes _ ih =>
      cases second with
      | excluded excludes => simp [Selection.directives, included] at excludes
      | spreadRepeated _ known => exact absurd known fresh
      | spreadEntered _ _ found' admitted' applies =>
          obtain rfl := Option.some.inj (found.symm.trans found')
          obtain rfl := admitted.unique admitted'
          simp [passes] at applies
      | spreadPassed _ _ _ _ _ later => exact ih later

end Walk

end Environment

/-! ## Walks of an expansion -/

/-- The second node is the first with the fragments in its selections expanded, all of which are
defined. -/
structure FragmentTable.ExpandsNode (table : FragmentTable) (node expanded : FieldNode) : Prop where
  head : node.head = expanded.head
  span : node.span = expanded.span
  items : table.Expands node.items expanded.items
  defined : table.Defines node.items

namespace Environment

open FragmentTable

variable {schema : Schema} {table flat : FragmentTable} {runtime scope : TypeDefinition}
  {seen seen' : List FieldNode} {name : String}

/-- All nodes that the expanded fragment of the name gives on values of the type `runtime` are
among those seen. -/
def Exhausts (schema : Schema) (table flat : FragmentTable) (runtime : TypeDefinition)
    (seen : List FieldNode) (name : String) : Prop :=
  ∀ fragment type body inner, table.find? name = some fragment →
    schema.type? fragment.condition = some type → type.appliesTo runtime = true →
    table.Expands fragment.items body →
    Walk ⟨schema, flat⟩ runtime (ScopedSelection.inScope type body) [] inner [] →
      ∀ node ∈ inner, node ∈ seen

theorem Exhausts.mono (exhausts : Exhausts schema table flat runtime seen name)
    (more : ∀ node ∈ seen, node ∈ seen') : Exhausts schema table flat runtime seen' name :=
  fun fragment type body inner found known applies expands walk node member =>
    more node (exhausts fragment type body inner found known applies expands walk node member)

/-- A fragment that does not apply has nothing to give. -/
theorem exhausts_of_passed {fragment : FragmentDefinition} {type : TypeDefinition}
    (found : table.find? name = some fragment)
    (resolved : schema.type? fragment.condition = some type)
    (passes : type.appliesTo runtime = false) (seen : List FieldNode) :
    Exhausts schema table flat runtime seen name := by
  intro other type' body inner found' known applies
  obtain rfl := Option.some.inj (found.symm.trans found')
  obtain rfl := Option.some.inj (resolved.symm.trans known)
  simp [passes] at applies

/-- A fragment whose expansion was walked has nothing more to give. -/
theorem exhausts_of_walk {fragment : FragmentDefinition} {type : TypeDefinition}
    {body : List Selection} {inner : List FieldNode} (found : table.find? name = some fragment)
    (resolved : schema.type? fragment.condition = some type)
    (expands : table.Expands fragment.items body)
    (walk : Walk ⟨schema, flat⟩ runtime (ScopedSelection.inScope type body) [] inner [])
    (all : ∀ node ∈ inner, node ∈ seen) : Exhausts schema table flat runtime seen name := by
  intro other type' body' inner' found' known _ expands' walk'
  obtain rfl := Option.some.inj (found.symm.trans found')
  obtain rfl := Option.some.inj (resolved.symm.trans known)
  obtain rfl := expands.unique expands'
  obtain ⟨rfl, _⟩ := walk.unique walk'
  exact all

/-- What is thinned out of a list, with nothing but equal items covering each other, was seen or
is kept. -/
theorem mem_of_thins {full kept : List FieldNode} (thins : Thins (· = ·) seen full kept) :
    ∀ node ∈ full, node ∈ kept ++ seen := by
  intro node member
  rcases thins.kept_or_covered node member with isKept | ⟨known, before | isKept, rfl⟩
  · exact List.mem_append_left _ isKept
  · exact List.mem_append_right _ before
  · exact List.mem_append_left _ isKept

/-- What was spread before a second part was spread before the first, or is exhausted by both. -/
theorem exhausts_append {spread between : List String} {kept kept' : List FieldNode}
    (first : ∀ name ∈ between, name ∈ spread ∨
      Exhausts schema table flat runtime (kept ++ seen) name)
    (second : name ∈ between ∨ Exhausts schema table flat runtime (kept' ++ (kept ++ seen)) name) :
    name ∈ spread ∨ Exhausts schema table flat runtime ((kept ++ kept') ++ seen) name := by
  have more : ∀ node ∈ kept' ++ (kept ++ seen), node ∈ (kept ++ kept') ++ seen := by
    intro node member
    simp only [List.mem_append] at member ⊢
    tauto
  rcases second with before | exhausts
  · refine (first name before).imp_right fun exhausts => exhausts.mono fun node member => ?_
    exact more node (List.mem_append_right _ member)
  · exact .inr (exhausts.mono more)

/-- What a walk of selections makes of a walk of their expansion: it meets the nodes that are not
seen yet, and exhausts the fragments that it spreads. -/
def Retraces (schema : Schema) (table flat : FragmentTable) (runtime scope : TypeDefinition)
    (items : List Selection) (spread : List String) (seen expandedNodes : List FieldNode) : Prop :=
  ∃ nodes kept after,
    Walk ⟨schema, table⟩ runtime (ScopedSelection.inScope scope items) spread nodes after ∧
    List.Forall₂ table.ExpandsNode nodes kept ∧ Thins (· = ·) seen expandedNodes kept ∧
    ∀ name ∈ after, name ∈ spread ∨ Exhausts schema table flat runtime (kept ++ seen) name

/-- Fragments that were spread before a second part are exhausted before it, as those before the
first were. -/
theorem exhausted_of_left {rank : String → Nat} {bound : Nat} {spread between : List String}
    {kept : List FieldNode}
    (exhausted : ∀ name ∈ spread, rank name < bound →
      Exhausts schema table flat runtime seen name)
    (left : ∀ name ∈ between, name ∈ spread ∨
      Exhausts schema table flat runtime (kept ++ seen) name) :
    ∀ name ∈ between, rank name < bound →
      Exhausts schema table flat runtime (kept ++ seen) name := by
  intro name member small
  rcases left name member with before | exhausts
  · exact (exhausted name before small).mono fun node => List.mem_append_right _
  · exact exhausts

namespace Retraces

variable {type : TypeDefinition} {spread : List String} {rest : List Selection}
  {inner later : List FieldNode} {directives : List Directive} {position : Position} {span : Span}

theorem excluded {selection : Selection} (excludes : isExcluded selection.directives = true)
    (retraces : Retraces schema table flat runtime scope rest spread seen later) :
    Retraces schema table flat runtime scope (selection :: rest) spread seen later := by
  obtain ⟨nodes, kept, after, walked, here, thins, left⟩ := retraces
  exact ⟨nodes, kept, after, .excluded excludes walked, here, thins, left⟩

theorem field {head : FieldHead} {items items' : List Selection}
    (included : isExcluded head.directives = false) (expands : table.Expands items items')
    (defined : table.Defines items)
    (retraces : Retraces schema table flat runtime scope rest spread (⟨head, span, items'⟩ :: seen)
      later) :
    Retraces schema table flat runtime scope (.field head span items :: rest) spread seen
      (⟨head, span, items'⟩ :: later) := by
  obtain ⟨nodes, kept, after, walked, here, thins, left⟩ := retraces
  refine ⟨⟨head, span, items⟩ :: nodes, ⟨head, span, items'⟩ :: kept, after,
    .field included walked, .cons ⟨rfl, rfl, expands, defined⟩ here, .keep _ thins,
    fun name member => (left name member).imp_right fun exhausts =>
      exhausts.mono fun node => ?_⟩
  simp only [List.cons_append, List.mem_append, List.mem_cons]
  tauto

theorem inlinePassed {condition : Option String} {items : List Selection}
    (included : isExcluded directives = false)
    (admitted : (Environment.mk schema table).AdmitsInline condition scope type)
    (passes : type.appliesTo runtime = false)
    (retraces : Retraces schema table flat runtime scope rest spread seen later) :
    Retraces schema table flat runtime scope
      (.inline condition directives position span items :: rest) spread seen later := by
  obtain ⟨nodes, kept, after, walked, here, thins, left⟩ := retraces
  exact ⟨nodes, kept, after, .inlinePassed included admitted passes walked, here, thins, left⟩

theorem inlineEntered {condition : Option String} {items : List Selection}
    (included : isExcluded directives = false)
    (admitted : (Environment.mk schema table).AdmitsInline condition scope type)
    (applies : type.appliesTo runtime = true)
    (inside : Retraces schema table flat runtime type items spread seen inner)
    (outside : ∀ between kept, (∀ name ∈ between, name ∈ spread ∨
        Exhausts schema table flat runtime (kept ++ seen) name) →
      Retraces schema table flat runtime scope rest between (kept ++ seen) later) :
    Retraces schema table flat runtime scope
      (.inline condition directives position span items :: rest) spread seen (inner ++ later) := by
  obtain ⟨nodes, kept, between, walked, here, thins, left⟩ := inside
  obtain ⟨nodes', kept', after, walked', here', thins', left'⟩ := outside between kept left
  exact ⟨nodes ++ nodes', kept ++ kept', after,
    .inlineEntered included admitted applies walked walked', List.rel_append here here',
    thins.append thins', fun name member => exhausts_append left (left' name member)⟩

/-- A fragment that is spread again gives nothing that was not seen. -/
theorem spreadRepeated (included : isExcluded directives = false) (known : name ∈ spread)
    (given : ∀ node ∈ inner, node ∈ seen)
    (retraces : Retraces schema table flat runtime scope rest spread seen later) :
    Retraces schema table flat runtime scope (.spread name directives position :: rest) spread seen
      (inner ++ later) := by
  obtain ⟨nodes, kept, after, walked, here, thins, left⟩ := retraces
  exact ⟨nodes, kept, after, .spreadRepeated included known walked, here,
    thins.drop_all fun node member => ⟨node, given node member, rfl⟩, left⟩

variable {fragment : FragmentDefinition} (included : isExcluded directives = false)
  (fresh : name ∉ spread) (found : table.find? name = some fragment)
  (admitted : (Environment.mk schema table).Admits fragment.condition scope type)

include included fresh found admitted

theorem spreadPassed (passes : type.appliesTo runtime = false)
    (retraces : Retraces schema table flat runtime scope rest (name :: spread) seen later) :
    Retraces schema table flat runtime scope (.spread name directives position :: rest) spread seen
      later := by
  obtain ⟨nodes, kept, after, walked, here, thins, left⟩ := retraces
  refine ⟨nodes, kept, after, .spreadPassed included fresh found admitted passes walked, here,
    thins, fun other member => ?_⟩
  rcases left other member with before | exhausts
  · rcases List.mem_cons.mp before with rfl | before
    · exact .inr (exhausts_of_passed found admitted.1 passes _)
    · exact .inl before
  · exact .inr exhausts

theorem spreadEntered (applies : type.appliesTo runtime = true) {body : List Selection}
    (expands : table.Expands fragment.items body)
    (walk : Walk ⟨schema, flat⟩ runtime (ScopedSelection.inScope type body) [] inner [])
    (inside : Retraces schema table flat runtime type fragment.items (name :: spread) seen inner)
    (outside : ∀ between kept, (∀ other ∈ between, other ∈ spread ∨
        Exhausts schema table flat runtime (kept ++ seen) other) →
      Retraces schema table flat runtime scope rest between (kept ++ seen) later) :
    Retraces schema table flat runtime scope (.spread name directives position :: rest) spread seen
      (inner ++ later) := by
  obtain ⟨nodes, kept, between, walked, here, thins, left⟩ := inside
  have all := exhausts_of_walk found admitted.1 expands walk (mem_of_thins thins)
  have leftBefore : ∀ other ∈ between, other ∈ spread ∨
      Exhausts schema table flat runtime (kept ++ seen) other := by
    intro other member
    rcases left other member with before | exhausts
    · rcases List.mem_cons.mp before with rfl | before
      · exact .inr all
      · exact .inl before
    · exact .inr exhausts
  obtain ⟨nodes', kept', after, walked', here', thins', left'⟩ := outside between kept leftBefore
  exact ⟨nodes ++ nodes', kept ++ kept', after,
    .spreadEntered included fresh found admitted applies walked walked',
    List.rel_append here here', thins.append thins',
    fun other member => exhausts_append leftBefore (left' other member)⟩

end Retraces

/-- **A walk of selections retraces a walk of their expansion.** The fragments that were spread
before and can be spread again are exhausted; only those around the selections are not, which
have higher ranks. -/
theorem retraces_of_expands {rank : String → Nat} (ranked : table.Ranked rank)
    (closed : table.Closed) {items full : List Selection} (expands : table.Expands items full)
    {bound : Nat} {spread : List String} {expandedNodes : List FieldNode}
    (below : SpreadsBelow table rank bound items) (defined : table.Defines items)
    (walk : Walk ⟨schema, flat⟩ runtime (ScopedSelection.inScope scope full) [] expandedNodes [])
    (exhausted : ∀ name ∈ spread, rank name < bound →
      Exhausts schema table flat runtime seen name) :
    Retraces schema table flat runtime scope items spread seen expandedNodes := by
  induction expands generalizing bound spread seen scope expandedNodes with
  | nil =>
      cases walk
      exact ⟨[], [], spread, .nil spread, .nil, .nil, fun _ => .inl⟩
  | field inner later _ ih =>
      cases walk with
      | excluded excludes tail =>
          exact .excluded excludes (ih below.tail defined.tail tail exhausted)
      | field included tail =>
          exact .field included inner defined.field <|
            ih below.tail defined.tail tail fun name member small =>
              (exhausted name member small).mono fun node => List.mem_cons_of_mem _
  | inline inner later inside ih =>
      cases walk with
      | excluded excludes tail =>
          exact .excluded excludes (ih below.tail defined.tail tail exhausted)
      | inlinePassed included admitted passes tail =>
          exact .inlinePassed included admitted passes (ih below.tail defined.tail tail exhausted)
      | inlineEntered included admitted applies body tail =>
          obtain rfl := body.after_eq_of_inScope inner.listSpreads_eq_nil
          refine .inlineEntered included admitted applies
            (inside below.inline defined.inline body exhausted) fun between kept left => ?_
          exact ih below.tail defined.tail tail (exhausted_of_left exhausted left)
  | @spread name directives position fragment items' rest rest' found inner later inside ih =>
      cases walk with
      | excluded excludes tail =>
          exact .excluded excludes (ih below.tail defined.tail tail exhausted)
      | inlinePassed included admitted passes tail =>
          by_cases known : name ∈ spread
          · exact .spreadRepeated included known (List.forall_mem_nil _)
              (ih below.tail defined.tail tail exhausted)
          · refine .spreadPassed included known found admitted passes ?_
            refine ih below.tail defined.tail tail fun other member small => ?_
            rcases List.mem_cons.mp member with rfl | before
            · exact exhausts_of_passed found admitted.1 passes seen
            · exact exhausted other before small
      | inlineEntered included admitted applies body tail =>
          obtain rfl := body.after_eq_of_inScope inner.listSpreads_eq_nil
          by_cases known : name ∈ spread
          · exact .spreadRepeated included known
              (exhausted name known (below.rank_lt found) fragment _ _ _ found admitted.1 applies
                inner body)
              (ih below.tail defined.tail tail exhausted)
          · refine .spreadEntered included known found admitted applies inner body ?_
              fun between kept left =>
                ih below.tail defined.tail tail (exhausted_of_left exhausted left)
            refine inside (ranked.spreadsBelow found) (closed name fragment found) body ?_
            intro other member small
            rcases List.mem_cons.mp member with rfl | before
            · exact absurd small (Nat.lt_irrefl _)
            · exact exhausted other before (Nat.lt_trans small (below.rank_lt found))
  | undefined missing _ _ => exact absurd missing defined.find?_ne_none

end Environment

/-! ## Repeated selections -/

namespace FragmentTable

variable {table : FragmentTable}

theorem listSpreads_eq_nil_iff {items : List Selection} :
    Selection.listSpreads items = [] ↔ ∀ item ∈ items, item.spreads = [] := by
  induction items with
  | nil => simp [Selection.listSpreads]
  | cons item rest ih => simp [Selection.listSpreads, ih]

theorem listSpreads_append (first second : List Selection) :
    Selection.listSpreads (first ++ second) =
      Selection.listSpreads first ++ Selection.listSpreads second := by
  induction first with
  | nil => rfl
  | cons item rest ih => simp [Selection.listSpreads, ih]

/-- The second list of selections is, but for repetitions, the first with the fragments expanded,
all of which are defined. -/
structure Inlines (table : FragmentTable) (items inlined : List Selection) : Prop where
  defined : table.Defines items
  expanded : ∃ full, table.Expands items full ∧ Thins (· = ·) [] inlined full

theorem Expands.inlines {items full : List Selection} (expands : table.Expands items full)
    (defined : table.Defines items) : table.Inlines items full :=
  ⟨defined, full, expands, .refl [] full⟩

/-- The second node is the first with inlined selections. -/
structure InlinesNode (table : FragmentTable) (node inlined : FieldNode) : Prop where
  head : node.head = inlined.head
  span : node.span = inlined.span
  items : table.Inlines node.items inlined.items

theorem Defines.flatMap {nodes : List FieldNode}
    (defined : ∀ node ∈ nodes, table.Defines node.items) :
    table.Defines (nodes.flatMap FieldNode.items) := by
  induction nodes with
  | nil => exact fun _ member => by cases member
  | cons node rest ih =>
      rw [List.flatMap_cons]
      intro spread member
      rw [listSpreads_append, List.mem_append] at member
      rcases member with here | later
      · exact defined node List.mem_cons_self spread here
      · exact ih (fun other isOther => defined other (List.mem_cons_of_mem _ isOther)) spread later

theorem Expands.flatMap {nodes kept : List FieldNode}
    (expanded : List.Forall₂ table.ExpandsNode nodes kept) :
    table.Expands (nodes.flatMap FieldNode.items) (kept.flatMap FieldNode.items) := by
  induction expanded with
  | nil => exact .nil
  | cons first _ ih =>
      rw [List.flatMap_cons, List.flatMap_cons]
      exact first.items.append ih

end FragmentTable

namespace Environment

open FragmentTable

variable {schema : Schema} {table flat : FragmentTable} {runtime scope : TypeDefinition}

/-- A walk without spreads is a walk of the first selection and one of the others. -/
theorem Walk.exists_cons {item : Selection} {rest : List Selection} {nodes : List FieldNode}
    (none : Selection.listSpreads (item :: rest) = [])
    (walk : Walk ⟨schema, flat⟩ runtime (ScopedSelection.inScope scope (item :: rest)) [] nodes
      []) :
    ∃ inner later,
      Walk ⟨schema, flat⟩ runtime (ScopedSelection.inScope scope [item]) [] inner [] ∧
      Walk ⟨schema, flat⟩ runtime (ScopedSelection.inScope scope rest) [] later [] ∧
      nodes = inner ++ later := by
  change Walk _ _ (ScopedSelection.inScope scope [item] ++ ScopedSelection.inScope scope rest)
    _ _ _ at walk
  obtain ⟨inner, between, later, first, second, rfl⟩ := walk.exists_append
  have alone : Selection.listSpreads [item] = [] :=
    listSpreads_eq_nil_iff.mpr fun other member =>
      listSpreads_eq_nil_iff.mp none other (by simp_all)
  obtain rfl := first.after_eq_of_inScope alone
  exact ⟨inner, later, first, second, rfl⟩

/-- **Repeated selections give repeated nodes.** -/
theorem exists_walk_of_thins {seenItems items full : List Selection} {seen nodes : List FieldNode}
    (thins : Thins (· = ·) seenItems items full) (none : Selection.listSpreads items = [])
    (walk : Walk ⟨schema, flat⟩ runtime (ScopedSelection.inScope scope items) [] nodes [])
    (known : ∀ item ∈ seenItems, ∀ inner,
      Walk ⟨schema, flat⟩ runtime (ScopedSelection.inScope scope [item]) [] inner [] →
        ∀ node ∈ inner, node ∈ seen) :
    ∃ nodes', Walk ⟨schema, flat⟩ runtime (ScopedSelection.inScope scope full) [] nodes' [] ∧
      Thins (· = ·) seen nodes nodes' := by
  induction thins generalizing seen nodes with
  | nil =>
      cases walk
      exact ⟨[], .nil [], .nil⟩
  | @keep before _ _ item _ ih =>
      obtain ⟨inner, later, first, second, rfl⟩ := walk.exists_cons none
      rw [Selection.listSpreads, List.append_eq_nil_iff] at none
      have grown : ∀ other ∈ item :: before, ∀ inner',
          Walk ⟨schema, flat⟩ runtime (ScopedSelection.inScope scope [other]) [] inner' [] →
            ∀ node ∈ inner', node ∈ inner ++ seen := by
        intro other member inner' walk' node isNode
        rcases List.mem_cons.mp member with rfl | isBefore
        · obtain ⟨rfl, _⟩ := first.unique walk'
          exact List.mem_append_left _ isNode
        · exact List.mem_append_right _ (known other isBefore inner' walk' node isNode)
      obtain ⟨nodes', walked, thins⟩ := ih none.2 second grown
      exact ⟨inner ++ nodes', first.append walked, (Thins.refl seen inner).append thins⟩
  | drop present same _ ih =>
      obtain rfl := same
      obtain ⟨inner, later, first, second, rfl⟩ := walk.exists_cons none
      rw [Selection.listSpreads, List.append_eq_nil_iff] at none
      obtain ⟨nodes', walked, thins⟩ := ih none.2 second known
      exact ⟨nodes', walked, thins.drop_all fun node member =>
        ⟨node, known _ present inner first node member, rfl⟩⟩

/-- **A walk of selections meets the nodes of a walk of inlined selections, but for
repetitions.** -/
theorem exists_walk_of_inlines {rank : String → Nat} (ranked : table.Ranked rank)
    (closed : table.Closed) {items inlined : List Selection} (inlines : table.Inlines items inlined)
    {inlinedNodes : List FieldNode} {after : List String}
    (walk : Walk ⟨schema, flat⟩ runtime (ScopedSelection.inScope scope inlined) [] inlinedNodes
      after) :
    ∃ nodes kept left,
      Walk ⟨schema, table⟩ runtime (ScopedSelection.inScope scope items) [] nodes left ∧
        List.Forall₂ table.ExpandsNode nodes kept ∧ Thins (· = ·) [] inlinedNodes kept := by
  obtain ⟨defined, full, expands, thins⟩ := inlines
  have none : Selection.listSpreads inlined = [] := by
    refine listSpreads_eq_nil_iff.mpr fun item member => ?_
    have flat := listSpreads_eq_nil_iff.mp expands.listSpreads_eq_nil
    rcases thins.kept_or_covered item member with isKept | ⟨other, seen | isKept, rfl⟩
    · exact flat item isKept
    · cases seen
    · exact flat other isKept
  obtain rfl := walk.after_eq_of_inScope none
  obtain ⟨expandedNodes, walked, repeated⟩ := exists_walk_of_thins thins none walk (by simp)
  obtain ⟨bound, below⟩ := SpreadsBelow.exists_bound table rank items
  have retraces : Retraces schema table flat runtime scope items [] [] expandedNodes :=
    retraces_of_expands ranked closed expands below defined walked (by simp)
  obtain ⟨nodes, kept, left, retraced, expanded, kept', _⟩ := retraces
  refine ⟨nodes, kept, left, retraced, expanded, repeated.trans ?_ kept'⟩
  exact fun _ _ _ first second => first.trans second

end Environment

/-! ## Merged nodes -/

namespace FragmentTable

variable {table : FragmentTable} {nodes kept inlined : List FieldNode}

theorem ExpandsNode.responseName_eq {node expanded : FieldNode}
    (expands : table.ExpandsNode node expanded) : node.responseName = expanded.responseName :=
  congrArg FieldHead.responseName expands.head

theorem conflict?_congr {first second first' second' : FieldNode}
    (firsts : first.head = first'.head) (seconds : second.head = second'.head) :
    first.conflict? second = first'.conflict? second' := by
  rw [FieldNode.conflict?, FieldNode.conflict?, firsts, seconds]

theorem mergeable_of_expandsNode (expanded : List.Forall₂ table.ExpandsNode nodes kept)
    (thins : Thins (· = ·) [] inlined kept) (mergeable : FieldNode.Mergeable inlined) :
    FieldNode.Mergeable nodes := by
  cases inlined with
  | nil =>
      cases thins
      cases expanded
      trivial
  | cons first rest =>
      obtain ⟨others, rfl, thinsRest⟩ := thins.exists_cons
      cases expanded with
      | cons here later =>
          intro node member
          obtain ⟨other, isOther, expands⟩ := exists_right_of_mem later member
          rw [conflict?_congr here.head expands.head]
          exact mergeable other (thinsRest.subset other isOther)

theorem mergeAll_of_expandsNode (expanded : List.Forall₂ table.ExpandsNode nodes kept)
    (thins : Thins (· = ·) [] inlined kept) :
    Option.Rel table.InlinesNode (FieldNode.mergeAll nodes) (FieldNode.mergeAll inlined) := by
  cases inlined with
  | nil =>
      cases thins
      cases expanded
      exact .none
  | cons first rest =>
      have defined : ∀ node ∈ nodes, table.Defines node.items := fun node member =>
        (exists_right_of_mem expanded member).elim fun _ here => here.2.defined
      have items := Expands.flatMap expanded
      have repeated : Thins (· = ·) [] ((first :: rest).flatMap FieldNode.items)
          (kept.flatMap FieldNode.items) := by
        refine thins.flatMap fun known other same part member => ?_
        exact ⟨part, same.symm ▸ member, rfl⟩
      obtain ⟨others, rfl, _⟩ := thins.exists_cons
      cases expanded with
      | cons here later =>
          exact .some ⟨here.head, here.span, Defines.flatMap defined, _, items, repeated⟩

theorem filter_of_expandsNode (expanded : List.Forall₂ table.ExpandsNode nodes kept)
    (thins : Thins (· = ·) [] inlined kept) (name : String) :
    List.Forall₂ table.ExpandsNode (nodes.filter (fun node => node.responseName = name))
        (kept.filter (fun node => node.responseName = name)) ∧
      Thins (· = ·) [] (inlined.filter (fun node => node.responseName = name))
        (kept.filter (fun node => node.responseName = name)) := by
  refine ⟨List.rel_filter (fun left right here => ?_) expanded,
    thins.filter fun _ _ same => same ▸ rfl⟩
  simp [here.responseName_eq]

theorem allMergeable_of_expandsNode (expanded : List.Forall₂ table.ExpandsNode nodes kept)
    (thins : Thins (· = ·) [] inlined kept) (mergeable : FieldNode.AllMergeable inlined) :
    FieldNode.AllMergeable nodes := by
  intro name
  obtain ⟨expandedName, thinsName⟩ := filter_of_expandsNode expanded thins name
  exact mergeable_of_expandsNode expandedName thinsName (mergeable name)

/-- **Merging nodes that are met once and nodes that are met repeatedly gives the same nodes, but
for repeated selections.** -/
theorem merged_of_expandsNode (expanded : List.Forall₂ table.ExpandsNode nodes kept)
    (thins : Thins (· = ·) [] inlined kept) :
    List.Forall₂ table.InlinesNode (FieldNode.merged nodes) (FieldNode.merged inlined) := by
  have names : OrderedSet.ofList (inlined.map FieldNode.responseName) =
      OrderedSet.ofList (nodes.map FieldNode.responseName) := by
    rw [forall₂_map_eq (fun _ _ here => ExpandsNode.responseName_eq here) expanded]
    exact thins.addAll_keys (fun _ _ same => same ▸ rfl) (by simp)
  rw [FieldNode.merged, FieldNode.merged, OrderedMap.groupBy, OrderedMap.groupBy, names]
  refine List.rel_filterMap (R := Eq) ?_ (List.forall₂_same.mpr fun _ _ => rfl)
  rintro name _ rfl
  obtain ⟨expandedName, thinsName⟩ := filter_of_expandsNode expanded thins name
  exact mergeAll_of_expandsNode expandedName thinsName

/-- The second field is the first with an inlined node. -/
structure InlinesField (table : FragmentTable) (field inlined : SelectedField) : Prop where
  definition : field.definition = inlined.definition
  setPath : field.setPath = inlined.setPath
  node : table.InlinesNode field.node inlined.node

end FragmentTable

/-- Variants of one type with related fields. -/
def Variant.Related {φ ψ : Type} (related : φ → ψ → Prop) (left : Variant φ) (right : Variant ψ) :
    Prop :=
  left.typeName = right.typeName ∧ List.Forall₂ related left.fields right.fields

namespace Environment

open FragmentTable

variable {schema : Schema} {table flat : FragmentTable} {runtime scope type : TypeDefinition}
  {items inlined : List Selection} {path : Path} {rank : String → Nat}

/-- **Selections select what inlined selections select.** -/
theorem collectFor_of_inlines (ranked : table.Ranked rank) (closed : table.Closed)
    (inlines : table.Inlines items inlined) {inlinedFields : List SelectedField}
    (collected : (Environment.mk schema flat).collectFor runtime scope inlined path =
      .ok inlinedFields) :
    ∃ fields, (Environment.mk schema table).collectFor runtime scope items path = .ok fields ∧
      List.Forall₂ table.InlinesField fields inlinedFields := by
  obtain ⟨inlinedNodes, after, walk, mergeable, selected⟩ := collectFor_eq_ok_iff.mp collected
  obtain ⟨nodes, kept, left, walked, expanded, thins⟩ :=
    exists_walk_of_inlines ranked closed inlines walk
  obtain ⟨fields, selected', related⟩ := exists_forall₂
    (S := fun node field => selectField runtime path node = .ok field)
    (T := fun inlined field => table.InlinesField field inlined)
    (fun inlined node ⟨declared, here, placed⟩ =>
      ⟨⟨inlined.definition, node, path⟩, selectField_eq_ok_iff.mpr ⟨declared, rfl, rfl⟩,
        rfl, placed.symm, here⟩)
    (forall₂_trans (T := fun inlined node => runtime.field? node.head.name =
        some inlined.definition ∧ table.InlinesNode node inlined.node ∧ inlined.setPath = path)
      (fun inlined other node here there => by
        obtain ⟨declared, rfl, placed⟩ := selectField_eq_ok_iff.mp here
        exact ⟨there.head ▸ declared, there, placed⟩)
      selected.flip (merged_of_expandsNode expanded thins).flip)
  exact ⟨fields, collectFor_eq_ok_iff.mpr ⟨nodes, left, walked,
    allMergeable_of_expandsNode expanded thins mergeable, selected'⟩, related.flip⟩

theorem collect_of_inlines (ranked : table.Ranked rank) (closed : table.Closed)
    (inlines : table.Inlines items inlined) {inlinedVariants : List (Variant SelectedField)}
    (collected : (Environment.mk schema flat).collect type inlined path = .ok inlinedVariants) :
    ∃ variants, (Environment.mk schema table).collect type items path = .ok variants ∧
      List.Forall₂ (Variant.Related table.InlinesField) variants inlinedVariants := by
  obtain ⟨variants, collected', related⟩ := exists_forall₂
    (S := fun runtime variant => variant.typeName = runtime.name ∧
      (Environment.mk schema table).collectFor runtime type items path = .ok variant.fields)
    (T := fun inlined variant => Variant.Related table.InlinesField variant inlined)
    (fun inlined runtime ⟨named, selects⟩ => by
      obtain ⟨fields, selects', related⟩ := collectFor_of_inlines ranked closed inlines selects
      exact ⟨⟨runtime.name, fields⟩, ⟨rfl, selects'⟩, named.symm, related⟩)
    (collect_eq_ok_iff.mp collected).flip
  exact ⟨variants, collect_eq_ok_iff.mpr collected', related.flip⟩

end Environment

end ResponseShape

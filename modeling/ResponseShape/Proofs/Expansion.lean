import ResponseShape.Proofs.Acyclicity
import ResponseShape.Proofs.Children

/-!
# Selections with their fragments expanded

A spread expands to an inline fragment that has the condition and the expanded body of the
fragment, and the directives and the position of the spread; a spread of a fragment that is not
defined expands to nothing (`FragmentTable.Expands`). Selections have at most one expansion, and
when the fragments are ranked they have one (`FragmentTable.Ranked.exists_expansion`).

The expansion of selections nests no more fields into each other than the selections and the
bodies of all fragments together do (`FragmentTable.Ranked.depth_le`). What a selection set
selects has selections of a smaller expanded depth than the set
(`Environment.within_of_collectFor`).
-/

set_option autoImplicit false

namespace ResponseShape

namespace FragmentTable

variable {table : FragmentTable}

/-- The second list is the first with the fragments expanded. -/
inductive Expands (table : FragmentTable) : List Selection → List Selection → Prop where
  | nil : Expands table [] []
  | field {head : FieldHead} {span : Span} {items items' rest rest' : List Selection} :
      Expands table items items' → Expands table rest rest' →
        Expands table (.field head span items :: rest) (.field head span items' :: rest')
  | inline {condition : Option String} {directives : List Directive} {position : Position}
      {span : Span} {items items' rest rest' : List Selection} :
      Expands table items items' → Expands table rest rest' →
        Expands table (.inline condition directives position span items :: rest)
          (.inline condition directives position span items' :: rest')
  | spread {name : String} {directives : List Directive} {position : Position}
      {fragment : FragmentDefinition} {items' rest rest' : List Selection} :
      table.find? name = some fragment → Expands table fragment.items items' →
        Expands table rest rest' →
        Expands table (.spread name directives position :: rest)
          (.inline (some fragment.condition) directives position fragment.span items' :: rest')
  | undefined {name : String} {directives : List Directive} {position : Position}
      {rest rest' : List Selection} :
      table.find? name = none → Expands table rest rest' →
        Expands table (.spread name directives position :: rest) rest'

namespace Expands

variable {items items' rest rest' : List Selection}

theorem append (first : Expands table items items') (second : Expands table rest rest') :
    Expands table (items ++ rest) (items' ++ rest') := by
  induction first with
  | nil => exact second
  | field inner _ _ ih => exact .field inner ih
  | inline inner _ _ ih => exact .inline inner ih
  | spread found inner _ _ ih => exact .spread found inner ih
  | undefined missing _ ih => exact .undefined missing ih

/-- **Selections have one expansion at most.** -/
theorem unique (first : Expands table items items') (second : Expands table items rest) :
    items' = rest := by
  induction first generalizing rest with
  | nil =>
      cases second
      rfl
  | field _ _ inside ih =>
      cases second with
      | field inner later => rw [inside inner, ih later]
  | inline _ _ inside ih =>
      cases second with
      | inline inner later => rw [inside inner, ih later]
  | spread found _ _ inside ih =>
      cases second with
      | spread found' inner later =>
          obtain rfl := Option.some.inj (found.symm.trans found')
          rw [inside inner, ih later]
      | undefined missing _ => simp [missing] at found
  | undefined missing _ ih =>
      cases second with
      | spread found _ _ => simp [missing] at found
      | undefined _ later => exact ih later

end Expands

/-! ## Expansions of ranked fragments -/

/-- The defined fragments that the selections spread have ranks below the bound. -/
def SpreadsBelow (table : FragmentTable) (rank : String → Nat) (bound : Nat)
    (items : List Selection) : Prop :=
  ∀ spread ∈ Selection.listSpreads items, (table.find? spread.name).isSome = true →
    rank spread.name < bound

namespace SpreadsBelow

variable {rank : String → Nat} {bound : Nat} {items rest : List Selection}

theorem tail {selection : Selection} (below : SpreadsBelow table rank bound (selection :: rest)) :
    SpreadsBelow table rank bound rest := fun spread member =>
  below spread (by simp [Selection.listSpreads, member])

theorem field {head : FieldHead} {span : Span}
    (below : SpreadsBelow table rank bound (.field head span items :: rest)) :
    SpreadsBelow table rank bound items := fun spread member =>
  below spread (by simp [Selection.listSpreads, Selection.spreads, member])

theorem inline {condition : Option String} {directives : List Directive} {position : Position}
    {span : Span}
    (below : SpreadsBelow table rank bound
      (.inline condition directives position span items :: rest)) :
    SpreadsBelow table rank bound items := fun spread member =>
  below spread (by simp [Selection.listSpreads, Selection.spreads, member])

theorem rank_lt {name : String} {directives : List Directive} {position : Position}
    {fragment : FragmentDefinition}
    (below : SpreadsBelow table rank bound (.spread name directives position :: rest))
    (found : table.find? name = some fragment) : rank name < bound :=
  below ⟨name, position⟩ (by simp [Selection.listSpreads, Selection.spreads]) (by simp [found])

theorem exists_bound (table : FragmentTable) (rank : String → Nat) (items : List Selection) :
    ∃ bound, SpreadsBelow table rank bound items := by
  unfold SpreadsBelow
  generalize Selection.listSpreads items = spreads
  induction spreads with
  | nil => exact ⟨0, by simp⟩
  | cons spread rest ih =>
      obtain ⟨bound, below⟩ := ih
      refine ⟨max (rank spread.name + 1) bound, fun other member defined => ?_⟩
      rcases List.mem_cons.mp member with rfl | later
      · omega
      · have here := below other later defined
        omega

end SpreadsBelow

namespace Ranked

variable {rank : String → Nat} {bound : Nat}

theorem spreadsBelow (ranked : table.Ranked rank) {name : String}
    {fragment : FragmentDefinition} (found : table.find? name = some fragment) :
    SpreadsBelow table rank (rank name) fragment.items :=
  ranked name fragment found

/-- Selections expand when the bodies of the fragments that they spread do. -/
theorem exists_expansion_of_bodies
    (bodies : ∀ name fragment, table.find? name = some fragment → rank name < bound →
      ∃ expanded, Expands table fragment.items expanded) :
    ∀ items : List Selection, SpreadsBelow table rank bound items →
      ∃ expanded, Expands table items expanded
  | [], _ => ⟨[], .nil⟩
  | .field _ _ items :: rest, below => by
      obtain ⟨inside, inner⟩ := exists_expansion_of_bodies bodies items below.field
      obtain ⟨later, others⟩ := exists_expansion_of_bodies bodies rest below.tail
      exact ⟨_, .field inner others⟩
  | .inline _ _ _ _ items :: rest, below => by
      obtain ⟨inside, inner⟩ := exists_expansion_of_bodies bodies items below.inline
      obtain ⟨later, others⟩ := exists_expansion_of_bodies bodies rest below.tail
      exact ⟨_, .inline inner others⟩
  | .spread name _ _ :: rest, below => by
      obtain ⟨later, others⟩ := exists_expansion_of_bodies bodies rest below.tail
      cases found : table.find? name with
      | none => exact ⟨later, .undefined found others⟩
      | some fragment =>
          obtain ⟨inside, inner⟩ := bodies name fragment found (below.rank_lt found)
          exact ⟨_, .spread found inner others⟩
termination_by items => Selection.listSize items
decreasing_by all_goals simp only [Selection.listSize, Selection.size]; omega

/-- **Selections have an expansion when the fragments are ranked.** -/
theorem exists_expansion (ranked : table.Ranked rank) (items : List Selection) :
    ∃ expanded, Expands table items expanded := by
  have below : ∀ bound items, SpreadsBelow table rank bound items →
      ∃ expanded, Expands table items expanded := by
    intro bound
    induction bound with
    | zero => exact exists_expansion_of_bodies fun _ _ _ none => absurd none (Nat.not_lt_zero _)
    | succ bound ih =>
        refine exists_expansion_of_bodies fun name fragment found small => ?_
        refine ih fragment.items fun spread member defined => ?_
        exact Nat.lt_of_lt_of_le (ranked.spreadsBelow found spread member defined)
          (Nat.le_of_lt_succ small)
  obtain ⟨bound, here⟩ := SpreadsBelow.exists_bound table rank items
  exact below bound items here

end Ranked

/-! ## Depths of expansions -/

/-- How many fields the bodies of all fragments nest together. -/
def totalDepth (table : FragmentTable) : Nat :=
  table.fragments.foldr (fun fragment depth => Selection.listFieldDepth fragment.items + depth) 0

/-- How many fields the bodies of the fragments with ranks below the bound nest together. -/
def depthBelow (table : FragmentTable) (rank : String → Nat) (bound : Nat) : Nat :=
  table.fragments.foldr
    (fun fragment depth =>
      if rank fragment.name < bound then Selection.listFieldDepth fragment.items + depth
      else depth) 0

theorem depthBelow_le_totalDepth (table : FragmentTable) (rank : String → Nat) (bound : Nat) :
    table.depthBelow rank bound ≤ table.totalDepth := by
  obtain ⟨fragments⟩ := table
  induction fragments with
  | nil => exact Nat.le_refl _
  | cons fragment rest ih =>
      simp only [depthBelow, totalDepth, List.foldr_cons] at ih ⊢
      split <;> omega

theorem depthBelow_mono (fragments : List FragmentDefinition) (rank : String → Nat)
    {lower upper : Nat} (le : lower ≤ upper) :
    depthBelow ⟨fragments⟩ rank lower ≤ depthBelow ⟨fragments⟩ rank upper := by
  induction fragments with
  | nil => exact Nat.le_refl _
  | cons fragment rest ih =>
      simp only [depthBelow, List.foldr_cons] at ih ⊢
      split <;> split <;> omega

/-- A fragment of a rank below the bound counts in addition to those of smaller ranks. -/
theorem depth_add_depthBelow_le {rank : String → Nat} {bound : Nat} {name : String}
    {fragment : FragmentDefinition} (found : table.find? name = some fragment)
    (small : rank name < bound) :
    Selection.listFieldDepth fragment.items + table.depthBelow rank (rank name) ≤
      table.depthBelow rank bound := by
  obtain ⟨fragments⟩ := table
  obtain ⟨member, rfl⟩ := mem_of_find? found
  clear found
  induction fragments with
  | nil => cases member
  | cons first rest ih =>
      have rest_le := depthBelow_mono rest rank (Nat.le_of_lt small)
      simp only [depthBelow, List.foldr_cons] at ih rest_le ⊢
      rcases List.mem_cons.mp member with rfl | later
      · simp only [Nat.lt_irrefl, if_false, small, if_true]
        omega
      · have below := ih later
        split <;> split <;> omega

theorem fieldDepth_spread {name : String} {directives : List Directive} {position : Position}
    {rest : List Selection} :
    Selection.listFieldDepth (.spread name directives position :: rest) =
      Selection.listFieldDepth rest := by
  simp [Selection.listFieldDepth, Selection.fieldDepth]

/-- **An expansion is no deeper than the selections and the bodies of all fragments together.** -/
theorem Ranked.depth_le {rank : String → Nat} (ranked : table.Ranked rank)
    {items expanded : List Selection} (expands : Expands table items expanded) {bound : Nat}
    (below : SpreadsBelow table rank bound items) :
    Selection.listFieldDepth expanded ≤
      Selection.listFieldDepth items + table.depthBelow rank bound := by
  induction expands generalizing bound with
  | nil => simp [Selection.listFieldDepth]
  | field _ _ inside ih =>
      have inner := inside below.field
      have later := ih below.tail
      simp only [Selection.listFieldDepth, Selection.fieldDepth] at inner later ⊢
      omega
  | inline _ _ inside ih =>
      have inner := inside below.inline
      have later := ih below.tail
      simp only [Selection.listFieldDepth, Selection.fieldDepth] at inner later ⊢
      omega
  | spread found _ _ inside ih =>
      have inner := inside (ranked.spreadsBelow found)
      have later := ih below.tail
      have weight := depth_add_depthBelow_le found (below.rank_lt found)
      rw [fieldDepth_spread]
      simp only [Selection.listFieldDepth, Selection.fieldDepth] at inner later ⊢
      omega
  | undefined _ _ ih =>
      rw [fieldDepth_spread]
      exact ih below.tail

/-! ## Selections of bounded depth -/

/-- The selections have an expansion that nests no more fields than the bound. -/
def Within (table : FragmentTable) (depth : Nat) (items : List Selection) : Prop :=
  ∃ expanded, Expands table items expanded ∧ Selection.listFieldDepth expanded ≤ depth

theorem listFieldDepth_append (first second : List Selection) :
    Selection.listFieldDepth (first ++ second) =
      max (Selection.listFieldDepth first) (Selection.listFieldDepth second) := by
  induction first with
  | nil => simp [Selection.listFieldDepth]
  | cons selection rest ih => simp [Selection.listFieldDepth, ih, Nat.max_assoc]

theorem within_nil (depth : Nat) : Within table depth [] :=
  ⟨[], .nil, Nat.zero_le _⟩

theorem Within.append {depth : Nat} {first second : List Selection}
    (earlier : Within table depth first) (later : Within table depth second) :
    Within table depth (first ++ second) := by
  obtain ⟨expanded, expands, bounded⟩ := earlier
  obtain ⟨expanded', expands', bounded'⟩ := later
  refine ⟨expanded ++ expanded', expands.append expands', ?_⟩
  rw [listFieldDepth_append]
  exact Nat.max_le.mpr ⟨bounded, bounded'⟩

theorem Within.mono {depth depth' : Nat} {items : List Selection}
    (within : Within table depth items) (le : depth ≤ depth') : Within table depth' items :=
  within.imp fun _ ⟨expands, bounded⟩ => ⟨expands, Nat.le_trans bounded le⟩

theorem within_flatMap {depth : Nat} {nodes : List FieldNode}
    (each : ∀ node ∈ nodes, Within table depth node.items) :
    Within table depth (nodes.flatMap FieldNode.items) := by
  induction nodes with
  | nil => exact within_nil depth
  | cons node rest ih =>
      rw [List.flatMap_cons]
      exact (each node List.mem_cons_self).append
        (ih fun other member => each other (List.mem_cons_of_mem _ member))

/-- **Selections of ranked fragments have a bounded depth.** -/
theorem Ranked.within {rank : String → Nat} (ranked : table.Ranked rank)
    (items : List Selection) :
    Within table (Selection.listFieldDepth items + table.totalDepth) items := by
  obtain ⟨expanded, expands⟩ := ranked.exists_expansion items
  obtain ⟨bound, below⟩ := SpreadsBelow.exists_bound table rank items
  refine ⟨expanded, expands, Nat.le_trans (ranked.depth_le expands below) ?_⟩
  exact Nat.add_le_add_left (depthBelow_le_totalDepth table rank bound) _

end FragmentTable

namespace Environment

variable {environment : Environment} {runtime scope : TypeDefinition} {path : Path}

open FragmentTable

/-- What a walk meets has selections of a smaller expanded depth. -/
theorem Walk.within {agenda : List ScopedSelection} {spread after : List String}
    {nodes : List FieldNode} (walk : Walk environment runtime agenda spread nodes after)
    {depth : Nat} {expanded : List Selection}
    (expands : Expands environment.fragments (agenda.map ScopedSelection.selection) expanded)
    (bounded : Selection.listFieldDepth expanded ≤ depth) :
    ∀ node ∈ nodes, ∃ less, less < depth ∧ Within environment.fragments less node.items := by
  induction walk generalizing expanded with
  | nil => simp
  | @excluded _ selection _ _ _ _ _ _ ih =>
      cases expands with
      | field _ later | inline _ later | spread _ _ later =>
          refine ih later ?_
          simp only [Selection.listFieldDepth] at bounded
          omega
      | undefined _ later => exact ih later bounded
  | field _ _ ih =>
      cases expands with
      | field inner later =>
          simp only [Selection.listFieldDepth, Selection.fieldDepth] at bounded
          intro node member
          rcases List.mem_cons.mp member with rfl | isLater
          · exact ⟨depth - 1, by omega, _, inner, by omega⟩
          · exact ih later (by omega) node isLater
  | inlineEntered _ _ _ _ _ inside ih =>
      cases expands with
      | inline inner later =>
          simp only [Selection.listFieldDepth, Selection.fieldDepth] at bounded
          intro node member
          rcases List.mem_append.mp member with isInner | isLater
          · refine inside ?_ (Nat.le_trans (Nat.le_max_left _ _) bounded) node isInner
            simpa [ScopedSelection.inScope, Function.comp_def] using inner
          · exact ih later (by omega) node isLater
  | inlinePassed _ _ _ _ ih =>
      cases expands with
      | inline _ later =>
          simp only [Selection.listFieldDepth] at bounded
          exact ih later (by omega)
  | spreadRepeated _ _ _ ih =>
      cases expands with
      | spread _ _ later =>
          simp only [Selection.listFieldDepth] at bounded
          exact ih later (by omega)
      | undefined _ later => exact ih later bounded
  | spreadEntered _ _ found _ _ _ _ inside ih =>
      cases expands with
      | spread found' inner later =>
          obtain rfl := Option.some.inj (found.symm.trans found')
          simp only [Selection.listFieldDepth, Selection.fieldDepth] at bounded
          intro node member
          rcases List.mem_append.mp member with isInner | isLater
          · refine inside ?_ (Nat.le_trans (Nat.le_max_left _ _) bounded) node isInner
            simpa [ScopedSelection.inScope, Function.comp_def] using inner
          · exact ih later (by omega) node isLater
      | undefined missing _ => simp [missing] at found
  | spreadPassed _ _ _ _ _ _ ih =>
      cases expands with
      | spread _ _ later =>
          simp only [Selection.listFieldDepth] at bounded
          exact ih later (by omega)
      | undefined _ later => exact ih later bounded

/-- **What selections select has selections of a smaller expanded depth.** -/
theorem within_of_collectFor {items : List Selection} {fields : List SelectedField} {depth : Nat}
    (within : Within environment.fragments depth items)
    (collected : environment.collectFor runtime scope items path = .ok fields) :
    ∀ field ∈ fields, 0 < depth ∧ Within environment.fragments (depth - 1) field.node.items := by
  obtain ⟨expanded, expands, bounded⟩ := within
  obtain ⟨nodes, after, walk, _, selected⟩ := collectFor_eq_ok_iff.mp collected
  have less : ∀ node ∈ nodes, 0 < depth ∧ Within environment.fragments (depth - 1) node.items := by
    intro node member
    have same : (ScopedSelection.inScope scope items).map ScopedSelection.selection = items := by
      simp [ScopedSelection.inScope, Function.comp_def]
    obtain ⟨less, isLess, here⟩ := walk.within (same.symm ▸ expands) bounded node member
    exact ⟨Nat.lt_of_le_of_lt (Nat.zero_le _) isLess, here.mono (by omega)⟩
  intro field member
  obtain ⟨node, isMerged, here⟩ := exists_left_of_mem selected member
  obtain ⟨first, isFirst, _, _, whole⟩ := FieldNode.exists_of_mem_merged isMerged
  rw [(selectField_eq_ok_iff.mp here).2.1, whole]
  refine ⟨(less first isFirst).1, within_flatMap fun other isOther => ?_⟩
  exact (less other (List.mem_filter.mp isOther).1).2

end Environment

end ResponseShape

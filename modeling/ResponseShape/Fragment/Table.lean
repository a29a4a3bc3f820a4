import ResponseShape.Syntax.Document

/-!
# Fragments by name

Selections spread fragments by their names. A fragment table resolves the names, and weighs the
fragments whose names a walk has not met yet (`FragmentTable.unmetWeight`). A walk that enters a
fragment by a name it has not met before takes the fragment's weight from the rest
(`FragmentTable.weight_add_unmetWeight_le`), which is why such walks end even when fragments
spread each other in a circle.
-/

set_option autoImplicit false

namespace ResponseShape

/-- A use of a fragment, by name. -/
structure FragmentSpread where
  name : String
  position : Position

namespace Selection

mutual

/-- The spreads in a selection, at any depth and in document order. -/
def spreads : Selection → List FragmentSpread
  | field _ _ items => listSpreads items
  | spread fragment _ position => [⟨fragment, position⟩]
  | inline _ _ _ _ items => listSpreads items

/-- The spreads in a list of selections, at any depth and in document order. -/
def listSpreads : List Selection → List FragmentSpread
  | [] => []
  | selection :: rest => selection.spreads ++ listSpreads rest

end

end Selection

/-- The spreads in the body of a fragment. -/
def FragmentDefinition.spreads (fragment : FragmentDefinition) : List FragmentSpread :=
  Selection.listSpreads fragment.items

/-- Fragments to be found by their names. -/
structure FragmentTable where
  fragments : List FragmentDefinition

namespace FragmentTable

/-- The fragment of the given name. -/
def find? (table : FragmentTable) (name : String) : Option FragmentDefinition :=
  table.fragments.find? (fun fragment => fragment.name == name)

/-- The total weight of the fragments whose names are not among `met`. -/
def unmetWeight (table : FragmentTable) (weight : FragmentDefinition → Nat)
    (met : List String) : Nat :=
  table.fragments.foldr
    (fun fragment total =>
      if met.contains fragment.name then total else weight fragment + total) 0

theorem mem_of_find? {table : FragmentTable} {name : String} {fragment : FragmentDefinition}
    (found : table.find? name = some fragment) :
    fragment ∈ table.fragments ∧ fragment.name = name :=
  ⟨List.mem_of_find?_eq_some found, by simpa using List.find?_some found⟩

/-- Meeting one more name leaves no more weight unmet. -/
theorem unmetWeight_cons_le (fragments : List FragmentDefinition)
    (weight : FragmentDefinition → Nat) (met : List String) (name : String) :
    unmetWeight ⟨fragments⟩ weight (name :: met) ≤
      unmetWeight ⟨fragments⟩ weight met := by
  induction fragments with
  | nil => exact Nat.le_refl _
  | cons first rest ih =>
      simp only [unmetWeight, List.foldr_cons, List.contains_cons, Bool.or_eq_true] at ih ⊢
      by_cases before : met.contains first.name = true
      · rw [if_pos (.inr before), if_pos before]
        exact ih
      · rw [if_neg before]
        split <;> omega

/-- **Meeting the name of a fragment for the first time takes its weight from what is unmet.** -/
theorem weight_add_unmetWeight_le {table : FragmentTable} {met : List String} {name : String}
    {fragment : FragmentDefinition} (weight : FragmentDefinition → Nat)
    (found : table.find? name = some fragment) (fresh : met.contains name = false) :
    weight fragment + table.unmetWeight weight (name :: met) ≤ table.unmetWeight weight met := by
  obtain ⟨fragments⟩ := table
  obtain ⟨member, named⟩ := mem_of_find? found
  clear found
  induction fragments with
  | nil => cases member
  | cons first rest ih =>
      rcases List.mem_cons.mp member with here | later
      · subst here
        have rest_le := unmetWeight_cons_le rest weight met name
        simp only [unmetWeight, List.foldr_cons, List.contains_cons, Bool.or_eq_true] at rest_le ⊢
        rw [if_pos (.inl (beq_iff_eq.mpr named)), named, fresh]
        simpa using rest_le
      · have rest_le := ih later
        simp only [unmetWeight, List.foldr_cons, List.contains_cons, Bool.or_eq_true] at rest_le ⊢
        by_cases before : met.contains first.name = true
        · rw [if_pos (.inr before), if_pos before]
          exact rest_le
        · rw [if_neg before]
          split <;> omega

end FragmentTable

end ResponseShape

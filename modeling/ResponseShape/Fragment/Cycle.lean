import ResponseShape.Fragment.Table
import ResponseShape.Error

/-!
# Fragments that spread themselves

A fragment must not reach itself by spreading. The search walks the spreads depth first. It
keeps a trail of the fragments it is inside of, innermost first, each with the spreads of its
body that are still to be looked at, and it enters each fragment once. A spread of a fragment on
the trail closes a cycle.
-/

set_option autoImplicit false

namespace ResponseShape

/-- A fragment that the search is inside of, and what is left of its spreads. -/
structure TrailEntry where
  name : String
  pending : List FragmentSpread

namespace FragmentTable

/-- The fragments of the trail from `name` on, outermost first, when `name` is on the trail. -/
def closedCycle? (trail : List TrailEntry) (name : String) : Option (List String) :=
  let entered := trail.reverse.map TrailEntry.name
  if entered.contains name then some (entered.dropWhile (fun other => other != name)) else none

/-- The spreads that are still to be looked at, plus one for every fragment on the trail. -/
def trailSize (trail : List TrailEntry) : Nat :=
  trail.foldr (fun entry total => entry.pending.length + 1 + total) 0

/-- What a fragment adds to the trail when it is entered. -/
def spreadWeight (fragment : FragmentDefinition) : Nat :=
  fragment.spreads.length + 1

/-- Searches what is left of the trail. The result is the names of all fragments entered. -/
def searchTrail (table : FragmentTable) (entered : List String) :
    List TrailEntry → Outcome (List String)
  | [] => .ok entered
  | ⟨_, []⟩ :: trail => searchTrail table entered trail
  | ⟨name, spread :: pending⟩ :: trail =>
      match closedCycle? (⟨name, pending⟩ :: trail) spread.name with
      | some via => .error (.fragmentCycle spread.name via spread.position)
      | none =>
          match _ : table.find? spread.name with
          | none => searchTrail table entered (⟨name, pending⟩ :: trail)
          | some fragment =>
              match _ : entered.contains spread.name with
              | true => searchTrail table entered (⟨name, pending⟩ :: trail)
              | false =>
                  searchTrail table (spread.name :: entered)
                    (⟨spread.name, fragment.spreads⟩ :: ⟨name, pending⟩ :: trail)
termination_by trail => trailSize trail + table.unmetWeight spreadWeight entered
decreasing_by
  · simp only [trailSize, List.foldr_cons]
    omega
  · simp only [trailSize, List.foldr_cons, List.length_cons]
    omega
  · simp only [trailSize, List.foldr_cons, List.length_cons]
    omega
  · have bound := weight_add_unmetWeight_le spreadWeight ‹_› ‹_›
    simp only [trailSize, spreadWeight, List.foldr_cons, List.length_cons] at bound ⊢
    omega

/-- Searches everything that a fragment reaches, unless the fragment was entered before. -/
def searchFrom (table : FragmentTable) (entered : List String) (fragment : FragmentDefinition) :
    Outcome (List String) :=
  if entered.contains fragment.name then .ok entered
  else table.searchTrail (fragment.name :: entered) [⟨fragment.name, fragment.spreads⟩]

/-- Succeeds when no fragment of the table reaches itself. -/
def checkAcyclic (table : FragmentTable) : Outcome Unit := do
  let _ ← table.fragments.foldlM table.searchFrom []

/-- The first name that an earlier fragment of the list, or one of `seen`, has already. -/
def repeatedName? (seen : List String) : List FragmentDefinition → Option String
  | [] => none
  | fragment :: rest =>
      if seen.contains fragment.name then some fragment.name
      else repeatedName? (fragment.name :: seen) rest

/-- The fragments of all documents, provided that their names differ and that none reaches
itself. A repeated name is reported before any cycle. -/
def ofDocuments (documents : List Document) : Outcome FragmentTable := do
  let table : FragmentTable := ⟨Document.fragments documents⟩
  match repeatedName? [] table.fragments with
  | some name => throw (.duplicateFragmentName name)
  | none =>
      table.checkAcyclic
      return table

end FragmentTable

end ResponseShape

import Mathlib.Data.List.Nodup
import Mathlib.Data.List.Perm.Subperm
import ResponseShape.Catalog

/-!
# Fresh names

The name that a catalog finds for a new owner was given to nobody before and is not among the
names to avoid (`Catalog.isFree_freshName`). Different numbers make different names of one proposal
(`Catalog.numbered_inj`), so among more numbers than there are names that are not free, one makes a
free name (`Catalog.exists_firstFreeNumber?`).
-/

set_option autoImplicit false

namespace ResponseShape

namespace Catalog

variable {catalog : Catalog} {avoided : List String} {proposed name : String}

/-- The names that were given, in order. -/
def given (catalog : Catalog) : List String :=
  catalog.allotments.map Allotment.name

theorem mem_given_iff : name ∈ catalog.given ↔ (catalog.ownerOf? name).isSome = true := by
  rw [ownerOf?, Option.isSome_map, List.find?_isSome, given, List.mem_map]
  simp only [beq_iff_eq]

/-- The name of an owner was given. -/
theorem mem_given_of_nameOf? {owner : NameOwner} (named : catalog.nameOf? owner = some name) :
    name ∈ catalog.given := by
  obtain ⟨allotment, found, rfl⟩ := Option.map_eq_some_iff.mp named
  exact List.mem_map_of_mem (List.mem_of_find?_eq_some found)

theorem isFree_iff :
    catalog.isFree avoided name = true ↔ name ∉ catalog.given ∧ name ∉ avoided := by
  simp [isFree, given]

theorem not_isFree_iff :
    catalog.isFree avoided name = false ↔ name ∈ catalog.given ∨ name ∈ avoided := by
  rw [← Bool.not_eq_true, isFree_iff, ← not_or, not_not]

/-- Different numbers make different names. -/
theorem numbered_inj {first second : Nat} :
    numbered proposed first = numbered proposed second ↔ first = second := by
  refine ⟨fun same => ?_, congrArg _⟩
  have characters := congrArg String.toList same
  simp only [numbered, String.toList_append, List.append_cancel_left_eq] at characters
  have read := congrArg (fun digits => Nat.ofDigitChars 10 digits 0) characters
  simpa [Nat.toString_eq_ofList_toDigits] using read

theorem isFree_of_firstFreeNumber? {attempts number found : Nat}
    (searched : catalog.firstFreeNumber? avoided proposed attempts number = some found) :
    catalog.isFree avoided (numbered proposed found) = true := by
  induction attempts generalizing number with
  | zero => cases searched
  | succ attempts ih =>
      rw [firstFreeNumber?] at searched
      split at searched
      · rename_i free
        exact Option.some.inj searched ▸ free
      · exact ih searched

/-- A search that finds no number has tried names that are not free. -/
theorem not_isFree_of_firstFreeNumber? {attempts number : Nat}
    (searched : catalog.firstFreeNumber? avoided proposed attempts number = none) :
    ∀ tried ∈ List.range' number attempts,
      catalog.isFree avoided (numbered proposed tried) = false := by
  induction attempts generalizing number with
  | zero => simp
  | succ attempts ih =>
      rw [firstFreeNumber?] at searched
      split at searched
      · cases searched
      · rename_i taken
        intro tried member
        rw [List.range'_succ] at member
        rcases List.mem_cons.mp member with rfl | later
        · exact eq_false_of_ne_true taken
        · exact ih searched tried later

/-- **Among more numbers than there are names that are not free, one makes a free name.** -/
theorem exists_firstFreeNumber? (catalog : Catalog) (avoided : List String) (proposed : String)
    {attempts : Nat} (enough : catalog.allotments.length + avoided.length < attempts)
    (number : Nat) :
    ∃ found, catalog.firstFreeNumber? avoided proposed attempts number = some found := by
  cases searched : catalog.firstFreeNumber? avoided proposed attempts number with
  | some found => exact ⟨found, rfl⟩
  | none =>
      -- all names that were tried are taken, and they are too many for that
      have taken : (List.range' number attempts).map (numbered proposed) ⊆
          catalog.given ++ avoided := by
        intro name member
        obtain ⟨tried, isTried, rfl⟩ := List.mem_map.mp member
        have notFree := not_isFree_of_firstFreeNumber? searched tried isTried
        exact List.mem_append.mpr (not_isFree_iff.mp notFree)
      have distinct : ((List.range' number attempts).map (numbered proposed)).Nodup :=
        List.Nodup.map (fun _ _ => numbered_inj.mp) List.nodup_range'
      have bound := (List.subperm_of_subset distinct taken).length_le
      simp only [List.length_map, List.length_range', List.length_append, given] at bound
      omega

/-- **A fresh name is free.** -/
theorem isFree_freshName (catalog : Catalog) (avoided : List String) (proposed : String) :
    catalog.isFree avoided (catalog.freshName avoided proposed) = true := by
  rw [freshName]
  split
  · assumption
  · obtain ⟨number, found⟩ := catalog.exists_firstFreeNumber? avoided proposed
      (Nat.lt_succ_self (catalog.allotments.length + avoided.length)) 1
    rw [found]
    exact isFree_of_firstFreeNumber? found

/-- **A fresh name was given to nobody before.** -/
theorem freshName_notMem_given (catalog : Catalog) (avoided : List String) (proposed : String) :
    catalog.freshName avoided proposed ∉ catalog.given :=
  (isFree_iff.mp (catalog.isFree_freshName avoided proposed)).1

end Catalog

end ResponseShape

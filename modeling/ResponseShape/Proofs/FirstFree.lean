import Mathlib.Data.Finset.Card
import Mathlib.Order.Interval.Finset.Nat
import ResponseShape.Proofs.FreshNames

/-!
# The first free name

An owner without a name is given the proposed name when that is free, and otherwise the proposed
name with the least number from one on that makes it free (`Catalog.FirstFree`). Names with smaller
numbers and the proposed name itself are all taken or to be avoided, and they are different
(`Catalog.numbered_ne`), so the number is no greater than the number of names that are taken or to
be avoided (`Catalog.FirstFree.le_card`).

Counting up to that number is safe (`Catalog.CountsTo`). A counter of 32 bits that is moved on each
time before its number is tried stays within bounds when there are fewer such names than it has
positive values, and the search never ends without a number (`Catalog.allot_firstFree`).
-/

set_option autoImplicit false

namespace ResponseShape

namespace Catalog

variable {catalog : Catalog} {avoided : List String} {proposed : String} {number found : Nat}

/-- A name with a number is not the name without one. -/
theorem numbered_ne (positive : 0 < number) : numbered proposed number ≠ proposed := by
  intro same
  have characters := congrArg String.toList same
  rw [numbered, String.toList_append] at characters
  have none : (toString number).toList = [] := List.append_right_eq_self.mp characters
  have read := congrArg (fun digits => Nat.ofDigitChars 10 digits 0) none
  rw [Nat.toString_eq_ofList_toDigits] at read
  simp at read
  omega

/-- Of the numbers from one on, this is the least that makes the proposed name free. -/
structure FirstFree (catalog : Catalog) (avoided : List String) (proposed : String)
    (number : Nat) : Prop where
  positive : 0 < number
  free : catalog.isFree avoided (numbered proposed number) = true
  first : ∀ smaller, 0 < smaller → smaller < number →
    catalog.isFree avoided (numbered proposed smaller) = false

/-- A search finds the least number from where it starts. -/
theorem first_of_firstFreeNumber? {attempts : Nat}
    (searched : catalog.firstFreeNumber? avoided proposed attempts number = some found) :
    number ≤ found ∧ ∀ smaller, number ≤ smaller → smaller < found →
      catalog.isFree avoided (numbered proposed smaller) = false := by
  induction attempts generalizing number with
  | zero => cases searched
  | succ attempts ih =>
      rw [firstFreeNumber?] at searched
      split at searched
      · obtain rfl := Option.some.inj searched
        exact ⟨Nat.le_refl _, fun smaller here less => absurd less (Nat.not_lt.mpr here)⟩
      · rename_i taken
        obtain ⟨later, notFree⟩ := ih searched
        refine ⟨Nat.le_of_succ_le later, fun smaller here less => ?_⟩
        rcases Nat.eq_or_lt_of_le here with rfl | beyond
        · exact eq_false_of_ne_true taken
        · exact notFree smaller beyond less

/-- **There are as many names that are not free as the number says.** -/
theorem FirstFree.le_card (firstFree : catalog.FirstFree avoided proposed number)
    (taken : catalog.isFree avoided proposed = false) :
    number ≤ catalog.given.toFinset.card + avoided.toFinset.card := by
  -- the names that were tried: the proposed one, and those with smaller numbers
  let tried := insert proposed ((Finset.Ico 1 number).image (numbered proposed))
  have card : tried.card = number := by
    have without : proposed ∉ (Finset.Ico 1 number).image (numbered proposed) := by
      intro member
      obtain ⟨smaller, range, same⟩ := Finset.mem_image.mp member
      exact numbered_ne (Finset.mem_Ico.mp range).1 same
    rw [Finset.card_insert_of_notMem without,
      Finset.card_image_of_injective _ fun _ _ => numbered_inj.mp, Nat.card_Ico]
    exact Nat.sub_add_cancel firstFree.positive
  have notFree : ∀ name, catalog.isFree avoided name = false →
      name ∈ catalog.given.toFinset ∪ avoided.toFinset := by
    intro name here
    rw [Finset.mem_union, List.mem_toFinset, List.mem_toFinset]
    exact not_isFree_iff.mp here
  have subset : tried ⊆ catalog.given.toFinset ∪ avoided.toFinset := by
    intro name member
    rcases Finset.mem_insert.mp member with rfl | numberedName
    · exact notFree _ taken
    · obtain ⟨smaller, range, rfl⟩ := Finset.mem_image.mp numberedName
      obtain ⟨positive, less⟩ := Finset.mem_Ico.mp range
      exact notFree _ (firstFree.first smaller positive less)
  calc number = tried.card := card.symm
    _ ≤ (catalog.given.toFinset ∪ avoided.toFinset).card := Finset.card_le_card subset
    _ ≤ catalog.given.toFinset.card + avoided.toFinset.card := Finset.card_union_le _ _

/-! ## Counting with 32 bits -/

/-- The largest number that a counter of 32 bits with a sign can hold. -/
def largestCount : Nat :=
  2 ^ 31 - 1

/-- Counting up from `number` comes to `found`, the first that makes the proposed name free. The
counter is moved on before a number is tried, so the number has to be less than the largest. -/
inductive CountsTo (catalog : Catalog) (avoided : List String) (proposed : String) :
    Nat → Nat → Prop where
  | found {number : Nat} : number < largestCount →
      catalog.isFree avoided (numbered proposed number) = true →
      CountsTo catalog avoided proposed number number
  | next {number found : Nat} : number < largestCount →
      catalog.isFree avoided (numbered proposed number) = false →
      CountsTo catalog avoided proposed (number + 1) found →
      CountsTo catalog avoided proposed number found

/-- Counting comes to a number that makes the name free when no smaller one does, unless the
counter overflows. -/
theorem countsTo_of_first (bounded : found < largestCount)
    (free : catalog.isFree avoided (numbered proposed found) = true) (start : number ≤ found)
    (first : ∀ smaller, number ≤ smaller → smaller < found →
      catalog.isFree avoided (numbered proposed smaller) = false) :
    catalog.CountsTo avoided proposed number found := by
  induction steps : found - number generalizing number with
  | zero =>
      obtain rfl : number = found := by omega
      exact .found bounded free
  | succ steps ih =>
      have before : number < found := by omega
      refine .next (Nat.lt_trans before bounded) (first number (Nat.le_refl _) before) ?_
      exact ih before (fun smaller here => first smaller (Nat.le_of_succ_le here)) (by omega)

/-- **A new name is the first free one, and the search for it always finds it.** When the names that
are taken and those to be avoided are fewer than a counter of 32 bits can count, an owner without a
name is given the proposed one if it is free. Otherwise it is given the proposed name with the least
number that makes it free; that is no greater than the number of these names, the counter comes to
it without an overflow, and the search within the catalog's own bound finds it. -/
theorem allot_firstFree {owner : NameOwner} (unnamed : catalog.nameOf? owner = none)
    (few : catalog.given.toFinset.card + avoided.toFinset.card < largestCount)
    (proposed : String) :
    (catalog.isFree avoided proposed = true →
      (catalog.allot owner proposed avoided).1 = proposed) ∧
    (catalog.isFree avoided proposed = false →
      ∃ number, catalog.FirstFree avoided proposed number ∧
        number ≤ catalog.given.toFinset.card + avoided.toFinset.card ∧
        (catalog.allot owner proposed avoided).1 = numbered proposed number ∧
        catalog.CountsTo avoided proposed 1 number ∧
        catalog.firstFreeNumber? avoided proposed
          (catalog.allotments.length + avoided.length + 1) 1 = some number) := by
  rw [allot_of_unnamed unnamed]
  refine ⟨fun free => if_pos free, fun taken => ?_⟩
  obtain ⟨number, searched⟩ := catalog.exists_firstFreeNumber? avoided proposed
    (Nat.lt_succ_self (catalog.allotments.length + avoided.length)) 1
  obtain ⟨positive, first⟩ := first_of_firstFreeNumber? searched
  have free := isFree_of_firstFreeNumber? searched
  have firstFree : catalog.FirstFree avoided proposed number := ⟨positive, free, first⟩
  have bound := firstFree.le_card taken
  refine ⟨number, firstFree, bound, ?_, ?_, searched⟩
  · simp only [freshName, taken, searched, Bool.false_eq_true, if_false]
  · exact countsTo_of_first (Nat.lt_of_le_of_lt bound few) free positive first

/-- A catalog in which a type of the schema has the name `Dog`. -/
def dogCatalog : Catalog :=
  ⟨[⟨.schemaType "Dog", "Dog"⟩], OrderedMap.empty⟩

/-- `Dog` is taken and `Dog1` is to be avoided, so the field is given `Dog2`. -/
theorem allot_firstFree_dog :
    dogCatalog.nameOf? (.field ⟨["Query", "dog"]⟩) = none ∧
    dogCatalog.given.toFinset.card + ["Dog1"].toFinset.card < largestCount ∧
    (dogCatalog.allot (.field ⟨["Query", "dog"]⟩) "Dog" ["Dog1"]).1 = "Dog2" ∧
    dogCatalog.CountsTo ["Dog1"] "Dog" 1 2 := by
  have unnamed : dogCatalog.nameOf? (.field ⟨["Query", "dog"]⟩) = none := by decide +kernel
  have few : dogCatalog.given.toFinset.card + ["Dog1"].toFinset.card < largestCount := by
    decide +kernel
  have taken : dogCatalog.isFree ["Dog1"] "Dog" = false := by decide +kernel
  have searched : dogCatalog.firstFreeNumber? ["Dog1"] "Dog" 3 1 = some 2 := by decide +kernel
  obtain ⟨number, -, -, given, counts, found⟩ :=
    (allot_firstFree unnamed few "Dog").2 taken
  obtain rfl : 2 = number := Option.some.inj (searched.symm.trans found)
  exact ⟨unnamed, few, given.trans (by decide +kernel), counts⟩

end Catalog

end ResponseShape

import ResponseShape.OrderedMap
import ResponseShape.Proofs.Outcome

/-!
# Items that are known

A state takes up items one after the other. Once it has taken up an item it keeps what it took up,
and it stays as it is, in what matters of it, when an item comes that is the same (`Retains`). What
an item is the same as is told by a relation to keys, which may be the items themselves. Such steps
can be put together: lists are taken up item by item (`Retains.list`), items may be computed first
(`Retains.comp`), and the values of a map take up the items of their own place each
(`Retains.update`).

So an item may be put into a list anywhere behind one that is the same
(`Retains.foldlM_insert`).
-/

set_option autoImplicit false

namespace ResponseShape

/-! ## Maps with changed values -/

namespace OrderedMap

variable {κ ν ρ : Type}

/-- The map with every value changed. -/
def mapValues (change : ν → ρ) (map : OrderedMap κ ν) : OrderedMap κ ρ :=
  ⟨map.entries.map (fun entry => (entry.1, change entry.2))⟩

@[simp]
theorem values_mapValues (change : ν → ρ) (map : OrderedMap κ ν) :
    (map.mapValues change).values = map.values.map change := by
  simp only [values, mapValues, List.map_map, Function.comp_def]

@[simp]
theorem mapValues_id : (mapValues id : OrderedMap κ ν → OrderedMap κ ν) = id := by
  funext map
  exact congrArg OrderedMap.mk (List.map_id map.entries)

variable [DecidableEq κ]

@[simp]
theorem get?_mapValues (change : ν → ρ) (map : OrderedMap κ ν) (key : κ) :
    (map.mapValues change).get? key = (map.get? key).map change := by
  obtain ⟨entries⟩ := map
  change (entries.map _).lookup key = (entries.lookup key).map change
  induction entries with
  | nil => rfl
  | cons entry rest ih =>
      rw [List.map_cons, lookup_entry, lookup_entry, ih]
      split <;> rfl

theorem mapValues_insert (change : ν → ρ) (map : OrderedMap κ ν) (key : κ) (value : ν) :
    (map.insert key value).mapValues change = (map.mapValues change).insert key (change value) := by
  obtain ⟨entries⟩ := map
  simp only [insert, mapValues, OrderedMap.mk.injEq]
  induction entries with
  | nil => rfl
  | cons entry rest ih =>
      rw [List.map_cons, insertEntry, insertEntry]
      by_cases same : key = entry.1
      · rw [if_pos same, if_pos same, List.map_cons]
      · rw [if_neg same, if_neg same, List.map_cons, ih]

/-- A key that gets the value it has changes nothing. -/
theorem insert_of_get? {map : OrderedMap κ ν} {key : κ} {value : ν}
    (found : map.get? key = some value) : map.insert key value = map := by
  obtain ⟨entries⟩ := map
  change entries.lookup key = some value at found
  simp only [insert, OrderedMap.mk.injEq]
  induction entries with
  | nil => cases found
  | cons entry rest ih =>
      obtain ⟨other, present⟩ := entry
      rw [lookup_entry] at found
      rw [insertEntry]
      by_cases same : key = other
      · rw [if_pos same] at found
        obtain rfl := Option.some.inj found
        rw [if_pos same]
      · rw [if_neg same] at found
        rw [if_neg same, ih found]

end OrderedMap

/-! ## Steps that retain -/

variable {σ α κ ρ : Type}

/-- The step takes up items and keeps what it took up. `same` says that an item is of a key,
`holds` that a state has taken up an item of the key, and `norm` tells what matters of a state. -/
structure Retains (norm : σ → ρ) (same : α → κ → Prop) (holds : σ → κ → Prop)
    (step : σ → α → Outcome σ) : Prop where
  takes : ∀ {state item next known}, same item known → step state item = .ok next →
    holds next known
  keeps : ∀ {state item next known}, step state item = .ok next → holds state known →
    holds next known
  idle : ∀ {state item known}, same item known → holds state known →
    ∃ next, step state item = .ok next ∧ norm next = norm state

namespace Retains

variable {norm : σ → ρ} {same : α → κ → Prop} {holds : σ → κ → Prop} {step : σ → α → Outcome σ}

/-- Fewer items may count as the same. -/
theorem mono {same' : α → κ → Prop} (retains : Retains norm same holds step)
    (fewer : ∀ item known, same' item known → same item known) :
    Retains norm same' holds step where
  takes := fun isSame done => retains.takes (fewer _ _ isSame) done
  keeps := retains.keeps
  idle := fun isSame held => retains.idle (fewer _ _ isSame) held

/-- What was taken up stays while a list is taken up. -/
theorem keeps_foldlM (retains : Retains norm same holds step) {items : List α} {state next : σ}
    {known : κ} (done : items.foldlM step state = .ok next) (held : holds state known) :
    holds next known := by
  induction items generalizing state with
  | nil =>
      obtain rfl := Except.ok.inj done
      exact held
  | cons item rest ih =>
      rw [List.foldlM_cons] at done
      obtain ⟨between, first, later⟩ := bind_eq_ok_iff.mp done
      exact ih later (retains.keeps first held)

/-- Every item of a list has been taken up in the end. -/
theorem takes_foldlM (retains : Retains norm same holds step) {items : List α} {state next : σ}
    (done : items.foldlM step state = .ok next) {item : α} {known : κ} (member : item ∈ items)
    (isSame : same item known) : holds next known := by
  obtain ⟨before, after, rfl⟩ := List.append_of_mem member
  rw [List.foldlM_append, bind_eq_ok_iff] at done
  obtain ⟨between, _, done⟩ := done
  rw [List.foldlM_cons, bind_eq_ok_iff] at done
  obtain ⟨here, taken, later⟩ := done
  exact retains.keeps_foldlM later (retains.takes isSame taken)

/-- **Lists are retained when their items are.** -/
theorem list (retains : Retains norm same holds step) :
    Retains norm (List.Forall₂ same) (fun state knowns => ∀ known ∈ knowns, holds state known)
      (fun state items => items.foldlM step state) where
  takes := by
    intro state items next knowns related done known member
    obtain ⟨item, isItem, isSame⟩ := exists_left_of_mem related member
    exact retains.takes_foldlM done isItem isSame
  keeps := fun done held known member => retains.keeps_foldlM done (held known member)
  idle := by
    intro state items knowns related held
    induction related generalizing state with
    | nil => exact ⟨state, rfl, rfl⟩
    | @cons item known _ _ isSame _ ih =>
        obtain ⟨between, first, equal⟩ := retains.idle isSame (held known List.mem_cons_self)
        obtain ⟨next, later, equalLater⟩ := ih fun other member =>
          retains.keeps first (held other (List.mem_cons_of_mem _ member))
        refine ⟨next, ?_, equalLater.trans equal⟩
        rw [List.foldlM_cons, first]
        exact later

/-- **Items may be computed before they are retained**, when the keys of what is computed are found
from keys. -/
theorem comp {β μ : Type} (retains : Retains norm same holds step) (compute : β → Outcome α)
    (sameFirst : β → μ → Prop) (finds : μ → κ → Prop)
    (found : ∀ item known value, sameFirst item known → compute item = .ok value →
      ∃ key, finds known key ∧ same value key)
    (computed : ∀ item known key, sameFirst item known → finds known key →
      ∃ value, compute item = .ok value ∧ same value key) :
    Retains norm sameFirst (fun state known => ∃ key, finds known key ∧ holds state key)
      (fun state item => compute item >>= step state) where
  takes := by
    intro state item next known isSame done
    obtain ⟨value, here, taken⟩ := bind_eq_ok_iff.mp done
    obtain ⟨key, isFound, sameKey⟩ := found item known value isSame here
    exact ⟨key, isFound, retains.takes sameKey taken⟩
  keeps := by
    intro state item next known done held
    obtain ⟨key, isFound, held⟩ := held
    obtain ⟨value, _, taken⟩ := bind_eq_ok_iff.mp done
    exact ⟨key, isFound, retains.keeps taken held⟩
  idle := by
    intro state item known isSame held
    obtain ⟨key, isFound, held⟩ := held
    obtain ⟨value, here, sameKey⟩ := computed item known key isSame isFound
    obtain ⟨next, taken, equal⟩ := retains.idle sameKey held
    exact ⟨next, by rw [here]; exact taken, equal⟩

/-- A value that may be missing retains items when the value that stands for it does. -/
theorem orElse (retains : Retains norm same holds step) (start : σ) :
    Retains (Option.map norm) same
      (fun present known => ∃ state, present = some state ∧ holds state known)
      (fun present item => (step (present.getD start) item).map some) where
  takes := by
    intro present item next known isSame done
    obtain ⟨next, taken, rfl⟩ := map_eq_ok_iff.mp done
    exact ⟨next, rfl, retains.takes isSame taken⟩
  keeps := by
    intro present item next known done held
    obtain ⟨next, taken, rfl⟩ := map_eq_ok_iff.mp done
    obtain ⟨state, rfl, held⟩ := held
    exact ⟨next, rfl, retains.keeps taken held⟩
  idle := by
    intro present item known isSame held
    obtain ⟨state, rfl, held⟩ := held
    obtain ⟨next, taken, equal⟩ := retains.idle isSame held
    exact ⟨some next, by rw [Option.getD_some, taken]; rfl, congrArg some equal⟩

/-- **The values of a map retain the items of their places.** -/
theorem update {ν π : Type} [DecidableEq π] {norm : ν → ρ} {holds : Option ν → κ → Prop}
    {change : α → Option ν → Outcome ν} (place : α → π) (placeOf : κ → π)
    (placed : ∀ item known, same item known → place item = placeOf known)
    (retains : Retains (Option.map norm) same holds
      (fun present item => (change item present).map some)) :
    Retains (OrderedMap.mapValues norm) same
      (fun map known => holds (map.get? (placeOf known)) known)
      (fun (map : OrderedMap π ν) item => map.update (place item) (change item)) where
  takes := by
    intro map item next known isSame done
    rw [OrderedMap.update_eq] at done
    obtain ⟨value, changed, rfl⟩ := map_eq_ok_iff.mp done
    rw [OrderedMap.get?_insert, if_pos (placed _ _ isSame).symm]
    exact retains.takes isSame (map_eq_ok_iff.mpr ⟨value, changed, rfl⟩)
  keeps := by
    intro map item next known done held
    rw [OrderedMap.update_eq] at done
    obtain ⟨value, changed, rfl⟩ := map_eq_ok_iff.mp done
    rw [OrderedMap.get?_insert]
    by_cases here : placeOf known = place item
    · rw [if_pos here]
      rw [here] at held
      exact retains.keeps (map_eq_ok_iff.mpr ⟨value, changed, rfl⟩) held
    · rw [if_neg here]
      exact held
  idle := by
    intro map item known isSame held
    rw [← placed _ _ isSame] at held
    obtain ⟨present, taken, equal⟩ := retains.idle isSame held
    obtain ⟨value, changed, rfl⟩ := map_eq_ok_iff.mp taken
    refine ⟨map.insert (place item) value, ?_, ?_⟩
    · rw [OrderedMap.update_eq, changed]
      rfl
    · rw [OrderedMap.mapValues_insert]
      apply OrderedMap.insert_of_get?
      rw [OrderedMap.get?_mapValues, ← equal]
      rfl

/-- **An item may be put in behind one that is the same.** -/
theorem foldlM_insert (retains : Retains id same holds step) {before after : List α}
    {earlier again : α} {known : κ} (member : earlier ∈ before) (isEarlier : same earlier known)
    (isAgain : same again known) (state : σ) :
    (before ++ again :: after).foldlM step state = (before ++ after).foldlM step state := by
  rw [List.foldlM_append, List.foldlM_append]
  cases done : before.foldlM step state with
  | error error => rfl
  | ok between =>
      have held := retains.takes_foldlM done member isEarlier
      obtain ⟨next, idle, rfl⟩ := retains.idle isAgain held
      change (again :: after).foldlM step next = after.foldlM step next
      rw [List.foldlM_cons]
      exact congrArg (fun outcome => outcome >>= fun state => after.foldlM step state) idle

end Retains

end ResponseShape

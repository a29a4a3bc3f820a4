import ResponseShape.OrderedSet

/-!
# Maps in order of insertion

Results are reported in the order in which they were found, so a map keeps its entries in the
order in which the keys were first inserted. Writing to a key that is present changes its value
and not its place.

A map is changed by `OrderedMap.insert`, or by `OrderedMap.update`, which computes the new value
of one key from the present one, if there is one, and may fail. An update is the insertion of
what it computes (`update_eq`). An insertion adds its key to the ordered set of keys
(`keys_insert`) and changes the value of that key alone (`get?_insert`).
-/

set_option autoImplicit false

namespace ResponseShape

/-- A map whose entries stand in the order in which their keys were inserted. -/
structure OrderedMap (κ ν : Type) where
  entries : List (κ × ν)
  deriving DecidableEq

namespace OrderedMap

variable {κ ν ε : Type}

/-- The map without entries. -/
def empty : OrderedMap κ ν :=
  ⟨[]⟩

/-- The keys, in order. -/
def keys (map : OrderedMap κ ν) : List κ :=
  map.entries.map Prod.fst

/-- The values, in the order of their keys. -/
def values (map : OrderedMap κ ν) : List ν :=
  map.entries.map Prod.snd

/-- The number of entries. -/
def size (map : OrderedMap κ ν) : Nat :=
  map.entries.length

variable [DecidableEq κ]

/-- The value of a key. -/
def get? (map : OrderedMap κ ν) (key : κ) : Option ν :=
  map.entries.lookup key

/-- Whether the key has a value. -/
def contains (map : OrderedMap κ ν) (key : κ) : Bool :=
  (map.get? key).isSome

/-- Entries after the value of `key` was recomputed by `change`; a new key comes last. -/
def updateEntries (key : κ) (change : Option ν → Except ε ν) :
    List (κ × ν) → Except ε (List (κ × ν))
  | [] =>
      match change none with
      | .error error => .error error
      | .ok value => .ok [(key, value)]
  | (other, value) :: rest =>
      if key = other then
        match change (some value) with
        | .error error => .error error
        | .ok changed => .ok ((other, changed) :: rest)
      else
        match updateEntries key change rest with
        | .error error => .error error
        | .ok changedRest => .ok ((other, value) :: changedRest)

/-- The map after the value of `key` was recomputed by `change` from the present value. -/
def update (map : OrderedMap κ ν) (key : κ) (change : Option ν → Except ε ν) :
    Except ε (OrderedMap κ ν) :=
  match updateEntries key change map.entries with
  | .error error => .error error
  | .ok entries => .ok ⟨entries⟩

/-- Entries after `key` got the value `value`. -/
def insertEntry (key : κ) (value : ν) : List (κ × ν) → List (κ × ν)
  | [] => [(key, value)]
  | (other, present) :: rest =>
      if key = other then (other, value) :: rest
      else (other, present) :: insertEntry key value rest

/-- The map after `key` got the value `value`. -/
def insert (map : OrderedMap κ ν) (key : κ) (value : ν) : OrderedMap κ ν :=
  ⟨insertEntry key value map.entries⟩

/-- The map with the given entries, inserted one after the other. -/
def ofList (entries : List (κ × ν)) : OrderedMap κ ν :=
  entries.foldl (fun map entry => map.insert entry.1 entry.2) empty

/-! ## Entries -/

/-- The first entry gives its own key the value, and the rest gives the others theirs. -/
theorem lookup_entry (key : κ) (entry : κ × ν) (rest : List (κ × ν)) :
    (entry :: rest).lookup key = if key = entry.1 then some entry.2 else rest.lookup key := by
  obtain ⟨other, value⟩ := entry
  rw [List.lookup_cons]
  by_cases same : key = other
  · rw [if_pos same, beq_iff_eq.mpr same]
  · rw [if_neg same, beq_eq_false_iff_ne.mpr same]

theorem keys_insertEntry (key : κ) (value : ν) (entries : List (κ × ν)) :
    (insertEntry key value entries).map Prod.fst =
      OrderedSet.add (entries.map Prod.fst) key := by
  induction entries with
  | nil => rfl
  | cons entry rest ih =>
      by_cases same : key = entry.1
      · simp [insertEntry, same, OrderedSet.add]
      · simp only [insertEntry, same, if_false, List.map_cons, ih, OrderedSet.add, List.mem_cons,
          false_or]
        split <;> rfl

theorem lookup_insertEntry (key other : κ) (value : ν) (entries : List (κ × ν)) :
    (insertEntry key value entries).lookup other =
      if other = key then some value else entries.lookup other := by
  induction entries with
  | nil => rw [insertEntry, lookup_entry]
  | cons entry rest ih =>
      by_cases here : key = entry.1
      · rw [insertEntry, if_pos here, lookup_entry, lookup_entry, ← here]
        split <;> rfl
      · rw [insertEntry, if_neg here, lookup_entry, lookup_entry, ih]
        by_cases first : other = entry.1
        · have apart : other ≠ key := fun same => here (same.symm.trans first)
          rw [if_pos first, if_neg apart, if_pos first]
        · rw [if_neg first, if_neg first]

theorem updateEntries_of_ok {key : κ} {change : Option ν → Except ε ν}
    {entries : List (κ × ν)} {value : ν} (computed : change (entries.lookup key) = .ok value) :
    updateEntries key change entries = .ok (insertEntry key value entries) := by
  induction entries with
  | nil =>
      rw [List.lookup_nil] at computed
      simp only [updateEntries, insertEntry, computed]
  | cons entry rest ih =>
      rw [lookup_entry] at computed
      by_cases same : key = entry.1
      · rw [if_pos same] at computed
        simp only [updateEntries, insertEntry, if_pos same, computed]
      · rw [if_neg same] at computed
        simp only [updateEntries, insertEntry, if_neg same, ih computed]

theorem updateEntries_of_error {key : κ} {change : Option ν → Except ε ν}
    {entries : List (κ × ν)} {error : ε} (failed : change (entries.lookup key) = .error error) :
    updateEntries key change entries = .error error := by
  induction entries with
  | nil =>
      rw [List.lookup_nil] at failed
      simp only [updateEntries, failed]
  | cons entry rest ih =>
      rw [lookup_entry] at failed
      by_cases same : key = entry.1
      · rw [if_pos same] at failed
        simp only [updateEntries, if_pos same, failed]
      · rw [if_neg same] at failed
        simp only [updateEntries, if_neg same, ih failed]

/-! ## Maps -/

/-- A key has a value exactly when it is among the keys. -/
theorem contains_iff_mem_keys {map : OrderedMap κ ν} {key : κ} :
    map.contains key = true ↔ key ∈ map.keys := by
  obtain ⟨entries⟩ := map
  change (entries.lookup key).isSome = true ↔ key ∈ entries.map Prod.fst
  induction entries with
  | nil => simp
  | cons entry rest ih =>
      rw [lookup_entry, List.map_cons, List.mem_cons]
      by_cases same : key = entry.1
      · simp [same]
      · rw [if_neg same, ih, or_iff_right same]

/-- **An insertion adds its key to the ordered set of keys.** -/
@[simp]
theorem keys_insert (map : OrderedMap κ ν) (key : κ) (value : ν) :
    (map.insert key value).keys = OrderedSet.add map.keys key :=
  keys_insertEntry key value map.entries

/-- **An insertion gives its key the value and leaves the other keys as they are.** -/
theorem get?_insert (map : OrderedMap κ ν) (key other : κ) (value : ν) :
    (map.insert key value).get? other = if other = key then some value else map.get? other :=
  lookup_insertEntry key other value map.entries

/-- **An update inserts what it computes, and fails when its computation fails.** -/
theorem update_eq (map : OrderedMap κ ν) (key : κ) (change : Option ν → Except ε ν) :
    map.update key change = (change (map.get? key)).map (map.insert key) := by
  cases computed : change (map.get? key) with
  | error error =>
      have failed := updateEntries_of_error computed
      simp only [update, failed, Except.map]
  | ok value =>
      have done := updateEntries_of_ok computed
      simp only [update, done, Except.map, insert]

end OrderedMap

end ResponseShape

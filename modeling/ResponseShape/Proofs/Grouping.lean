import ResponseShape.OrderedMap
import ResponseShape.Proofs.Outcome

/-!
# Grouping items by their keys

Many maps of the library arise by updating the key of one item after the other. What stands at a
key in the end depends on the items of that key alone, in their order
(`OrderedMap.get?_of_updates`); the keys stand in the order in which items first have them
(`OrderedMap.keys_of_updates`); and the updates succeed when they succeed for the items of each
key (`OrderedMap.exists_updates`). When the items of one key are combined by a function, the
values are the combined groups (`OrderedMap.values_of_updates`).
-/

set_option autoImplicit false

namespace ResponseShape

namespace OrderedSet

variable {α β : Type} [DecidableEq α]

theorem addAll_append (members first second : List α) :
    addAll members (first ++ second) = addAll (addAll members first) second :=
  List.foldl_append

theorem addAll_of_subset {members added : List α} (known : ∀ member ∈ added, member ∈ members) :
    addAll members added = members := by
  induction added with
  | nil => rfl
  | cons first rest ih =>
      change addAll (add members first) rest = members
      rw [add_of_mem (known first List.mem_cons_self)]
      exact ih fun member later => known member (List.mem_cons_of_mem _ later)

theorem addAll_of_nodup {members added : List α} (distinct : (members ++ added).Nodup) :
    addAll members added = members ++ added := by
  induction added generalizing members with
  | nil => rw [List.append_nil]; rfl
  | cons first rest ih =>
      have absent : first ∉ members := by
        intro present
        exact (List.nodup_append.mp distinct).2.2 first present first List.mem_cons_self rfl
      change addAll (add members first) rest = _
      rw [add_of_notMem absent, ih (by simpa using distinct), List.append_assoc]
      rfl

theorem ofList_of_nodup {members : List α} (distinct : members.Nodup) : ofList members = members :=
  addAll_of_nodup distinct

theorem ofList_eq_singleton {first : α} {rest : List α}
    (same : ∀ member ∈ rest, member = first) : ofList (first :: rest) = [first] := by
  change addAll (add [] first) rest = [first]
  rw [add_of_notMem List.not_mem_nil]
  exact addAll_of_subset fun member later => List.mem_singleton.mpr (same member later)

/-- The only item of a key, when no key repeats. -/
theorem filter_key_eq {key : β → α} {items : List β} (distinct : (items.map key).Nodup)
    {item : β} (member : item ∈ items) :
    items.filter (fun other => key other = key item) = [item] := by
  induction items with
  | nil => cases member
  | cons first rest ih =>
      rw [List.map_cons, List.nodup_cons] at distinct
      rcases List.mem_cons.mp member with rfl | later
      · rw [List.filter_cons_of_pos (by simp)]
        refine congrArg _ (List.filter_eq_nil_iff.mpr fun other isOther same => distinct.1 ?_)
        exact List.mem_map.mpr ⟨other, isOther, of_decide_eq_true same⟩
      · rw [List.filter_cons_of_neg, ih distinct.2 later]
        intro same
        exact distinct.1 (List.mem_map.mpr ⟨item, later, (of_decide_eq_true same).symm⟩)

/-- An item is found by its key, when no key repeats. -/
theorem find?_key_eq {key : β → α} {items : List β} (distinct : (items.map key).Nodup)
    {item : β} (member : item ∈ items) :
    items.find? (fun other => key other == key item) = some item := by
  rw [← List.head?_filter]
  exact congrArg List.head? (filter_key_eq distinct member)

end OrderedSet

namespace OrderedMap

variable {κ ν ε α : Type} [DecidableEq κ]

/-! ## Updates in turn -/

/-- What stands at a key after items of the key changed it in turn. -/
def changeAll (change : α → Option ν → Except ε ν) (items : List α) (present : Option ν) :
    Except ε (Option ν) :=
  items.foldlM (fun present item => (change item present).map some) present

@[simp]
theorem changeAll_nil (change : α → Option ν → Except ε ν) (present : Option ν) :
    changeAll change [] present = .ok present :=
  rfl

theorem changeAll_cons_of_ok (change : α → Option ν → Except ε ν) {item : α}
    {present : Option ν} {value : ν} (changed : change item present = .ok value)
    (items : List α) :
    changeAll change (item :: items) present = changeAll change items (some value) := by
  simp only [changeAll, List.foldlM_cons, changed]
  rfl

theorem changeAll_cons_eq_ok {change : α → Option ν → Except ε ν} {item : α} {items : List α}
    {present result : Option ν} (changed : changeAll change (item :: items) present = .ok result) :
    ∃ value, change item present = .ok value ∧
      changeAll change items (some value) = .ok result := by
  cases first : change item present with
  | error error =>
      simp only [changeAll, List.foldlM_cons, first] at changed
      cases changed
  | ok value => exact ⟨value, rfl, changeAll_cons_of_ok change first items ▸ changed⟩

/-- The map after the keys of items were updated in turn. -/
def updateAll (key : α → κ) (change : α → Option ν → Except ε ν) (map : OrderedMap κ ν)
    (items : List α) : Except ε (OrderedMap κ ν) :=
  items.foldlM (fun map item => map.update (key item) (change item)) map

variable {key : α → κ} {change : α → Option ν → Except ε ν}

theorem updateAll_cons_eq_ok {map done : OrderedMap κ ν} {item : α} {items : List α}
    (updated : updateAll key change map (item :: items) = .ok done) :
    ∃ value, change item (map.get? (key item)) = .ok value ∧
      updateAll key change (map.insert (key item) value) items = .ok done := by
  rw [updateAll, List.foldlM_cons, update_eq] at updated
  cases first : change item (map.get? (key item)) with
  | error error =>
      rw [first] at updated
      cases updated
  | ok value =>
      rw [first] at updated
      exact ⟨value, rfl, updated⟩

theorem updateAll_cons_of_ok {map : OrderedMap κ ν} {item : α} {value : ν}
    (changed : change item (map.get? (key item)) = .ok value) (items : List α) :
    updateAll key change map (item :: items) =
      updateAll key change (map.insert (key item) value) items := by
  simp only [updateAll, List.foldlM_cons, update_eq, changed]
  rfl

/-- **The keys stand in the order in which items first have them.** -/
theorem keys_of_updates {map done : OrderedMap κ ν} {items : List α}
    (updated : updateAll key change map items = .ok done) :
    done.keys = OrderedSet.addAll map.keys (items.map key) := by
  induction items generalizing map with
  | nil =>
      cases updated
      rfl
  | cons item rest ih =>
      obtain ⟨value, _, later⟩ := updateAll_cons_eq_ok updated
      rw [ih later, keys_insert, List.map_cons]
      rfl

/-- **What stands at a key depends on the items of the key alone.** -/
theorem get?_of_updates {map done : OrderedMap κ ν} {items : List α}
    (updated : updateAll key change map items = .ok done) (place : κ) :
    changeAll change (items.filter (fun item => key item = place)) (map.get? place) =
      .ok (done.get? place) := by
  induction items generalizing map with
  | nil =>
      cases updated
      rfl
  | cons item rest ih =>
      obtain ⟨value, changed, later⟩ := updateAll_cons_eq_ok updated
      have atPlace := ih later
      rw [get?_insert] at atPlace
      by_cases here : key item = place
      · subst here
        rw [if_pos rfl] at atPlace
        rw [List.filter_cons_of_pos (by simp), changeAll_cons_of_ok change changed]
        exact atPlace
      · rw [if_neg (Ne.symm here)] at atPlace
        rw [List.filter_cons_of_neg (by simpa using here)]
        exact atPlace

/-- **Updates succeed when those of each key do.** -/
theorem exists_updates (key : α → κ) (change : α → Option ν → Except ε ν)
    (map : OrderedMap κ ν) (items : List α)
    (each : ∀ place, ∃ result,
      changeAll change (items.filter (fun item => key item = place)) (map.get? place) =
        .ok result) :
    ∃ done, updateAll key change map items = .ok done := by
  induction items generalizing map with
  | nil => exact ⟨map, rfl⟩
  | cons item rest ih =>
      obtain ⟨result, here⟩ := each (key item)
      rw [List.filter_cons_of_pos (by simp)] at here
      obtain ⟨value, changed, later⟩ := changeAll_cons_eq_ok here
      rw [updateAll_cons_of_ok changed]
      refine ih _ fun place => ?_
      rw [get?_insert]
      by_cases same : place = key item
      · rw [if_pos same, same]
        exact ⟨result, later⟩
      · obtain ⟨other, there⟩ := each place
        rw [List.filter_cons_of_neg (by simpa using Ne.symm same)] at there
        rw [if_neg same]
        exact ⟨other, there⟩

/-! ## Entries of maps without repeated keys -/

/-- The entry of a key is its value, when no key repeats. -/
theorem get?_of_mem_entries {map : OrderedMap κ ν} (distinct : map.keys.Nodup) {entry : κ × ν}
    (member : entry ∈ map.entries) : map.get? entry.1 = some entry.2 := by
  obtain ⟨entries⟩ := map
  change entries.lookup entry.1 = some entry.2
  change entry ∈ entries at member
  change (entries.map Prod.fst).Nodup at distinct
  induction entries with
  | nil => cases member
  | cons first rest ih =>
      rw [List.map_cons, List.nodup_cons] at distinct
      rw [lookup_entry]
      rcases List.mem_cons.mp member with rfl | later
      · rw [if_pos rfl]
      · have apart : entry.1 ≠ first.1 := fun same =>
          distinct.1 (same ▸ List.mem_map_of_mem later)
        rw [if_neg apart, ih later distinct.2]

theorem mem_entries_of_get? {map : OrderedMap κ ν} {key : κ} {value : ν}
    (found : map.get? key = some value) : (key, value) ∈ map.entries := by
  obtain ⟨entries⟩ := map
  change entries.lookup key = some value at found
  change (key, value) ∈ entries
  induction entries with
  | nil => cases found
  | cons first rest ih =>
      rw [lookup_entry] at found
      by_cases same : key = first.1
      · rw [if_pos same] at found
        obtain rfl := Option.some.inj found
        exact same ▸ List.mem_cons_self
      · rw [if_neg same] at found
        exact List.mem_cons_of_mem _ (ih found)

/-- Keys and values make up the entries. -/
theorem entries_eq_filterMap {map : OrderedMap κ ν} (distinct : map.keys.Nodup) :
    map.entries = map.keys.filterMap (fun place => (map.get? place).map (place, ·)) := by
  obtain ⟨entries⟩ := map
  simp only [keys, get?] at distinct ⊢
  induction entries with
  | nil => rfl
  | cons entry rest ih =>
      obtain ⟨place, value⟩ := entry
      rw [List.map_cons, List.nodup_cons] at distinct
      have tail := ih distinct.2
      rw [List.map_cons, List.filterMap_cons, lookup_entry, if_pos rfl, Option.map_some]
      refine congrArg _ (tail.trans (List.filterMap_congr fun other member => ?_))
      have apart : other ≠ place := fun same => distinct.1 (same ▸ member)
      rw [lookup_entry, if_neg apart]

theorem values_eq_filterMap {map : OrderedMap κ ν} (distinct : map.keys.Nodup) :
    map.values = map.keys.filterMap map.get? := by
  rw [values, entries_eq_filterMap distinct, List.map_filterMap]
  refine List.filterMap_congr fun place _ => ?_
  cases map.get? place <;> rfl

theorem nodup_keys_of_updates {map done : OrderedMap κ ν} {items : List α}
    (distinct : map.keys.Nodup) (updated : updateAll key change map items = .ok done) :
    done.keys.Nodup :=
  keys_of_updates updated ▸ OrderedSet.nodup_addAll distinct

/-! ## Groups -/

/-- The groups of the items of one key, each combined, in the order in which items first have
the keys. -/
def groupBy (key : α → κ) (combine : List α → Option ν) (items : List α) : List ν :=
  (OrderedSet.ofList (items.map key)).filterMap
    (fun place => combine (items.filter (fun item => key item = place)))

/-- **The values are the combined groups, when items of one key are combined by a function.** -/
theorem values_of_updates {done : OrderedMap κ ν} {items : List α}
    {combine : List α → Option ν}
    (updated : updateAll key change empty items = .ok done)
    (combined : ∀ place result,
      changeAll change (items.filter (fun item => key item = place)) none = .ok result →
        result = combine (items.filter (fun item => key item = place))) :
    done.values = groupBy key combine items := by
  have start : (empty : OrderedMap κ ν).keys.Nodup := List.nodup_nil
  have distinct := nodup_keys_of_updates start updated
  rw [values_eq_filterMap distinct, keys_of_updates updated]
  refine List.filterMap_congr fun place _ => ?_
  exact combined place _ (get?_of_updates updated place)

theorem mem_groupBy {combine : List α → Option ν} {items : List α} {value : ν} :
    value ∈ groupBy key combine items ↔
      ∃ item ∈ items, combine (items.filter (fun other => key other = key item)) = some value := by
  simp [groupBy, List.mem_filterMap]

/-- The groups have the keys of the items, each once. -/
theorem map_groupBy {combine : List α → Option ν} {items : List α} {key' : ν → κ}
    (combined : ∀ item ∈ items, ∃ value,
      combine (items.filter (fun other => key other = key item)) = some value ∧
        key' value = key item) :
    (groupBy key combine items).map key' = OrderedSet.ofList (items.map key) := by
  rw [groupBy, List.map_filterMap]
  refine Eq.trans (List.filterMap_congr fun place member => ?_) List.filterMap_some
  rw [OrderedSet.mem_ofList, List.mem_map] at member
  obtain ⟨item, isItem, rfl⟩ := member
  obtain ⟨value, here, same⟩ := combined item isItem
  rw [here, Option.map_some, same]

/-- Items without repeated keys are groups of their own. -/
theorem groupBy_of_nodup {combine : List α → Option ν} {items : List α}
    (distinct : (items.map key).Nodup) :
    groupBy key combine items = items.filterMap (fun item => combine [item]) := by
  rw [groupBy, OrderedSet.ofList_of_nodup distinct, List.filterMap_map]
  refine List.filterMap_congr fun item member => ?_
  rw [Function.comp_apply, OrderedSet.filter_key_eq distinct member]

/-- Related items make related groups. -/
theorem forall₂_groupBy {α' ν' : Type} {key' : α' → κ} {combine : List α → Option ν}
    {combine' : List α' → Option ν'} {R : α → α' → Prop} {S : ν → ν' → Prop}
    (keys : ∀ item other, R item other → key item = key' other)
    (combined : ∀ items others, List.Forall₂ R items others →
      Option.Rel S (combine items) (combine' others))
    {items : List α} {others : List α'} (related : List.Forall₂ R items others) :
    List.Forall₂ S (groupBy key combine items) (groupBy key' combine' others) := by
  rw [groupBy, groupBy, forall₂_map_eq keys related]
  refine List.rel_filterMap (R := Eq) ?_ (List.forall₂_same.mpr fun _ _ => rfl)
  rintro place _ rfl
  refine combined _ _ (List.rel_filter ?_ related)
  intro item other here
  simp [keys item other here]

end OrderedMap

end ResponseShape

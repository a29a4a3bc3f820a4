import Mathlib.Data.List.Induction
import ResponseShape.Proofs.Agreement
import ResponseShape.Proofs.Grouping
import ResponseShape.Proofs.Retaining

/-!
# Items that come again

A step may retain items so that it depends on their keys alone: what matters of a state is told by
a function, what matters of an item by its key, and a state that has taken up an item stays as it
is, in what matters of it, when an item of that key comes again (`Absorbs`). Such steps are put
together as steps that retain are: lists of items are taken up item by item (`Absorbs.list`), items
may be computed first (`Absorbs.comp`), and the values of a map take up the items of their own key
each (`Absorbs.update`).

So a fold depends on the keys of its items alone, and only on the order in which keys first come
(`Absorbs.agree_foldlM`).
-/

set_option autoImplicit false

namespace ResponseShape

open Outcome

/-! ## Maps of like values -/

namespace OrderedMap

variable {κ ν ρ : Type} [DecidableEq κ]

/-- Maps of like values are updated alike when like values are changed alike. -/
theorem agree_update {map other : OrderedMap κ ν} {norm : ν → ρ}
    (same : map.mapValues norm = other.mapValues norm) (key : κ)
    {change change' : Option ν → Outcome ν}
    (agree : ∀ present present', present.map norm = present'.map norm →
      AgreeOn norm (change present) (change' present')) :
    AgreeOn (mapValues norm) (map.update key change) (other.update key change') := by
  rw [update_eq, update_eq]
  have present : (map.get? key).map norm = (other.get? key).map norm := by
    rw [← get?_mapValues, ← get?_mapValues, same]
  refine agree_map_iff.mpr ((agree _ _ present).mono fun value value' alike => ?_)
  rw [mapValues_insert, mapValues_insert, same, alike]

end OrderedMap

/-! ## Steps that absorb -/

variable {σ α κ ρ : Type}

/-- The step depends on what `norm` tells of the state and on the key of the item alone, and takes
up an item of each key once. `holds` says that the state has taken up an item of the key. -/
structure Absorbs (norm : σ → ρ) (key : α → κ) (holds : σ → κ → Prop)
    (step : σ → α → Outcome σ) : Prop where
  agree : ∀ {state state' item item'}, norm state = norm state' → key item = key item' →
    AgreeOn norm (step state item) (step state' item')
  takes : ∀ {state item next}, step state item = .ok next → holds next (key item)
  keeps : ∀ {state item next known}, step state item = .ok next → holds state known →
    holds next known
  idle : ∀ {state item}, holds state (key item) →
    ∃ next, step state item = .ok next ∧ norm next = norm state

namespace Absorbs

variable {norm : σ → ρ} {key : α → κ} {holds : σ → κ → Prop} {step step' : σ → α → Outcome σ}

/-- Items are the same as their keys. -/
theorem retains (absorbs : Absorbs norm key holds step) :
    Retains norm (fun item known => key item = known) holds step where
  takes := fun isKey done => isKey ▸ absorbs.takes done
  keeps := absorbs.keeps
  idle := fun isKey held => absorbs.idle (isKey.symm ▸ held)

/-- A step that depends on keys alone absorbs what it retains. -/
theorem of_retains (agree : ∀ {state state' item item'}, norm state = norm state' →
      key item = key item' → AgreeOn norm (step state item) (step state' item'))
    (retains : Retains norm (fun item known => key item = known) holds step) :
    Absorbs norm key holds step where
  agree := agree
  takes := retains.takes rfl
  keeps := retains.keeps
  idle := retains.idle rfl

/-- **Lists are absorbed when their items are.** -/
theorem list (absorbs : Absorbs norm key holds step) :
    Absorbs norm (List.map key) (fun state keys => ∀ known ∈ keys, holds state known)
      (fun state items => items.foldlM step state) := by
  refine of_retains ?_ (absorbs.retains.list.mono ?_)
  · intro state state' items items' same keys
    exact agree_foldlM (forall₂_of_map_eq keys) (fun _ _ _ _ => absorbs.agree) same
  · rintro items _ rfl
    exact List.forall₂_map_right_iff.mpr (List.forall₂_same.mpr fun _ _ => rfl)

/-- **Items may be computed before they are absorbed**, when their keys are computed from keys. -/
theorem comp {β μ : Type} (absorbs : Absorbs norm key holds step) (compute : β → Outcome α)
    (key' : β → μ) (keyOf : μ → Outcome κ)
    (computes : ∀ item, (compute item).map key = keyOf (key' item)) :
    Absorbs norm key' (fun state known => ∃ found, keyOf known = .ok found ∧ holds state found)
      (fun state item => compute item >>= step state) := by
  refine of_retains ?_ (absorbs.retains.comp compute _ (fun known found => keyOf known = .ok found)
    ?_ ?_)
  · intro state state' item item' same keys
    have agree := agree_of_map_eq ((computes item).trans (keys ▸ (computes item').symm))
    exact agree.bind fun value other alike => absorbs.agree same alike
  · rintro item _ value rfl computed
    exact ⟨key value, by rw [← computes item, computed]; rfl, rfl⟩
  · rintro item _ found rfl isKey
    rw [← computes item] at isKey
    exact map_eq_ok_iff.mp isKey

/-- A value that may be missing takes up items when the value that stands for it does. -/
theorem orElse (absorbs : Absorbs norm key holds step) (start : σ) :
    Absorbs (Option.map norm) key (fun present known => ∃ state, present = some state ∧
        holds state known)
      (fun present item => (step (present.getD start) item).map some) := by
  refine of_retains ?_ (absorbs.retains.orElse start)
  intro present present' item item' same keys
  have starts : norm (present.getD start) = norm (present'.getD start) := by
    cases present <;> cases present' <;> simp_all
  exact (absorbs.agree starts keys).bind fun next next' alike => .ok (congrArg some alike)

/-- **The values of a map absorb the items of their keys.** -/
theorem update {ν π : Type} [DecidableEq π] {norm : ν → ρ} {holds : Option ν → κ → Prop}
    {change : α → Option ν → Outcome ν} (place : κ → π)
    (absorbs : Absorbs (Option.map norm) key holds
      (fun present item => (change item present).map some)) :
    Absorbs (OrderedMap.mapValues norm) key
      (fun map known => holds (map.get? (place known)) known)
      (fun (map : OrderedMap π ν) item => map.update (place (key item)) (change item)) := by
  refine of_retains ?_ (absorbs.retains.update _ place fun _ _ isKey => congrArg place isKey)
  intro map other item item' same keys
  rw [keys]
  refine OrderedMap.agree_update same _ fun present present' alike => ?_
  exact (agree_map_iff.mp (absorbs.agree alike keys)).mono fun _ _ => Option.some.inj

/-! ## Folds over items of repeated keys -/

/-- **A fold is the fold over one item of each key**, in the order in which the keys first come. -/
theorem exists_distinct [DecidableEq κ] (absorbs : Absorbs norm key holds step) (items : List α) :
    ∃ distinct : List α, distinct.map key = OrderedSet.ofList (items.map key) ∧
      ∀ state, AgreeOn norm (items.foldlM step state) (distinct.foldlM step state) := by
  induction items using List.reverseRecOn with
  | nil => exact ⟨[], rfl, fun state => .ok rfl⟩
  | append_singleton items item ih =>
      obtain ⟨distinct, keys, agree⟩ := ih
      have after : OrderedSet.ofList ((items ++ [item]).map key) =
          OrderedSet.add (distinct.map key) (key item) := by
        rw [List.map_append, OrderedSet.ofList, OrderedSet.addAll_append, keys]
        rfl
      by_cases known : key item ∈ distinct.map key
      · refine ⟨distinct, by rw [after, OrderedSet.add_of_mem known], fun state => ?_⟩
        rw [List.foldlM_append]
        refine AgreeOn.trans ?_ (agree state)
        rw [keys, OrderedSet.mem_ofList] at known
        cases done : items.foldlM step state with
        | error error => exact .error error
        | ok next =>
            obtain ⟨last, taken, same⟩ := absorbs.idle (absorbs.list.takes done _ known)
            change AgreeOn norm ([item].foldlM step next) _
            rw [List.foldlM_cons, taken]
            exact .ok same
      · refine ⟨distinct ++ [item], ?_, fun state => ?_⟩
        · rw [after, OrderedSet.add_of_notMem known, List.map_append]
          rfl
        · rw [List.foldlM_append, List.foldlM_append]
          exact (agree state).bind fun next next' same => absorbs.list.agree same rfl

/-- **Folds agree when their steps do and keys first come in one order.** -/
theorem agree_foldlM [DecidableEq κ] {step' : σ → α → Outcome σ} {holds' : σ → κ → Prop}
    (absorbs : Absorbs norm key holds step) (absorbs' : Absorbs norm key holds' step')
    (agree : ∀ state state' item item', norm state = norm state' → key item = key item' →
      AgreeOn norm (step state item) (step' state' item')) {items items' : List α}
    (same : OrderedSet.ofList (items.map key) = OrderedSet.ofList (items'.map key))
    {state state' : σ} (starts : norm state = norm state') :
    AgreeOn norm (items.foldlM step state) (items'.foldlM step' state') := by
  obtain ⟨distinct, keys, whole⟩ := absorbs.exists_distinct items
  obtain ⟨distinct', keys', whole'⟩ := absorbs'.exists_distinct items'
  have related := forall₂_of_map_eq (keys.trans (same.trans keys'.symm))
  have between : AgreeOn norm (distinct.foldlM step state) (distinct'.foldlM step' state') :=
    Outcome.agree_foldlM related agree starts
  exact ((whole state).trans between).trans (whole' state').symm

/-- **Folds over what items give agree when keys of one kind give results of one kind**, whatever
computes the results. -/
theorem agree_foldlM_comp {β μ : Type} [DecidableEq μ] (absorbs : Absorbs norm key holds step)
    (compute compute' : β → Outcome α) (key' : β → μ) (keyOf : μ → Outcome κ)
    (computes : ∀ item, (compute item).map key = keyOf (key' item))
    (computes' : ∀ item, (compute' item).map key = keyOf (key' item)) {items items' : List β}
    (same : OrderedSet.ofList (items.map key') = OrderedSet.ofList (items'.map key'))
    (state : σ) :
    AgreeOn norm (items.foldlM (fun state item => compute item >>= step state) state)
      (items'.foldlM (fun state item => compute' item >>= step state) state) := by
  refine (absorbs.comp compute key' keyOf computes).agree_foldlM
    (absorbs.comp compute' key' keyOf computes') ?_ same rfl
  intro state state' item item' states keys
  have computed : AgreeOn key (compute item) (compute' item') :=
    agree_of_map_eq ((computes item).trans (keys ▸ (computes' item').symm))
  exact computed.bind fun value other alike => absorbs.agree states alike

end Absorbs

end ResponseShape

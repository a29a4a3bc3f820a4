import Mathlib.Data.List.Forall2
import ResponseShape.Error

/-!
# Computations that may fail

A computation made of steps succeeds when each step does. A list is computed item by item
(`mapM_eq_ok_iff`), and a fold that computes a list from each item before it goes on is the fold
of the lists that the items give (`foldlM_bind_eq_ok_iff`).
-/

set_option autoImplicit false

namespace ResponseShape

variable {ε α β σ : Type}

theorem bind_eq_ok_iff {first : Except ε α} {next : α → Except ε β} {result : β} :
    first >>= next = .ok result ↔ ∃ value, first = .ok value ∧ next value = .ok result := by
  cases first with
  | error error => simp [bind, Except.bind]
  | ok value => simp [bind, Except.bind]

theorem map_eq_ok_iff {first : Except ε α} {change : α → β} {result : β} :
    first.map change = .ok result ↔ ∃ value, first = .ok value ∧ change value = result := by
  cases first with
  | error error => simp [Except.map]
  | ok value => simp [Except.map]

/-- **A list is computed when every item is.** -/
theorem mapM_eq_ok_iff {compute : α → Except ε β} {items : List α} {results : List β} :
    items.mapM compute = .ok results ↔
      List.Forall₂ (fun item result => compute item = .ok result) items results := by
  induction items generalizing results with
  | nil =>
      rw [List.mapM_nil, List.forall₂_nil_left_iff]
      exact ⟨fun same => (Except.ok.inj same).symm, fun same => same ▸ rfl⟩
  | cons item rest ih =>
      rw [List.mapM_cons, List.forall₂_cons_left_iff]
      simp only [bind_eq_ok_iff, ih]
      constructor
      · rintro ⟨result, first, others, later, same⟩
        exact ⟨result, others, first, later, (Except.ok.inj same).symm⟩
      · rintro ⟨result, others, first, later, same⟩
        exact ⟨result, first, others, later, same ▸ rfl⟩

/-- **A fold over what the items give is the fold of what they give.** -/
theorem foldlM_bind_eq_ok_iff {compute : α → Except ε β} {step : σ → β → Except ε σ}
    {items : List α} {start done : σ} :
    items.foldlM (fun state item => compute item >>= step state) start = .ok done ↔
      ∃ results, List.Forall₂ (fun item result => compute item = .ok result) items results ∧
        results.foldlM step start = .ok done := by
  induction items generalizing start with
  | nil => simp
  | cons item rest ih =>
      simp only [List.foldlM_cons, bind_eq_ok_iff, ih]
      constructor
      · rintro ⟨next, ⟨result, first, stepped⟩, results, later, folded⟩
        refine ⟨result :: results, .cons first later, ?_⟩
        rw [List.foldlM_cons, bind_eq_ok_iff]
        exact ⟨next, stepped, folded⟩
      · rintro ⟨results, computed, folded⟩
        obtain ⟨result, others, first, later, rfl⟩ := List.forall₂_cons_left_iff.mp computed
        rw [List.foldlM_cons, bind_eq_ok_iff] at folded
        obtain ⟨next, stepped, folded⟩ := folded
        exact ⟨next, ⟨result, first, stepped⟩, others, later, folded⟩

theorem foldlM_flatten {step : σ → α → Except ε σ} {lists : List (List α)} {start : σ} :
    lists.flatten.foldlM step start =
      lists.foldlM (fun state items => items.foldlM step state) start := by
  induction lists generalizing start with
  | nil => rfl
  | cons items rest ih =>
      rw [List.flatten_cons, List.foldlM_append, List.foldlM_cons]
      exact congrArg _ (funext fun _ => ih)

/-! ## Related lists -/

section Related

variable {R : α → β → Prop} {left : List α} {right : List β}

theorem exists_right_of_mem (related : List.Forall₂ R left right) {item : α}
    (member : item ∈ left) : ∃ other ∈ right, R item other := by
  induction related with
  | nil => cases member
  | cons first _ ih =>
      rcases List.mem_cons.mp member with rfl | later
      · exact ⟨_, List.mem_cons_self, first⟩
      · obtain ⟨other, isMember, here⟩ := ih later
        exact ⟨other, List.mem_cons_of_mem _ isMember, here⟩

theorem exists_left_of_mem (related : List.Forall₂ R left right) {other : β}
    (member : other ∈ right) : ∃ item ∈ left, R item other :=
  exists_right_of_mem (R := fun other item => R item other) related.flip member

/-- A list has related items when each of its items has one. -/
theorem exists_forall₂_iff :
    (∃ others, List.Forall₂ R left others) ↔ ∀ item ∈ left, ∃ other, R item other := by
  constructor
  · rintro ⟨others, related⟩ item member
    obtain ⟨other, _, here⟩ := exists_right_of_mem related member
    exact ⟨other, here⟩
  · intro each
    induction left with
    | nil => exact ⟨[], .nil⟩
    | cons first rest ih =>
        obtain ⟨other, here⟩ := each first List.mem_cons_self
        obtain ⟨others, later⟩ := ih fun item member => each item (List.mem_cons_of_mem _ member)
        exact ⟨other :: others, .cons here later⟩

theorem forall₂_trans {γ : Type} {S : β → γ → Prop} {T : α → γ → Prop} {last : List γ}
    (compose : ∀ first middle third, R first middle → S middle third → T first third)
    (earlier : List.Forall₂ R left right) (later : List.Forall₂ S right last) :
    List.Forall₂ T left last := by
  induction earlier generalizing last with
  | nil =>
      cases later
      exact .nil
  | cons here _ ih =>
      cases later with
      | cons there rest => exact .cons (compose _ _ _ here there) (ih rest)

/-- A relation that is found item by item is found for the lists. -/
theorem exists_forall₂ {γ : Type} {S : β → γ → Prop} {T : α → γ → Prop}
    (each : ∀ item other, R item other → ∃ result, S other result ∧ T item result)
    (related : List.Forall₂ R left right) :
    ∃ results, List.Forall₂ S right results ∧ List.Forall₂ T left results := by
  induction related with
  | nil => exact ⟨[], .nil, .nil⟩
  | cons first _ ih =>
      obtain ⟨result, here, there⟩ := each _ _ first
      obtain ⟨results, others, rest⟩ := ih
      exact ⟨result :: results, .cons here others, .cons there rest⟩

theorem forall₂_map_eq {γ : Type} {key : α → γ} {key' : β → γ}
    (alike : ∀ item other, R item other → key item = key' other)
    (related : List.Forall₂ R left right) : left.map key = right.map key' := by
  induction related with
  | nil => rfl
  | cons first _ ih => rw [List.map_cons, List.map_cons, alike _ _ first, ih]

/-- In related lists, the first items that are looked for are related. -/
theorem rel_find? {test : α → Bool} {test' : β → Bool}
    (alike : ∀ item other, R item other → test item = test' other)
    (related : List.Forall₂ R left right) :
    Option.Rel R (left.find? test) (right.find? test') := by
  induction related with
  | nil => exact .none
  | @cons item other _ _ first _ ih =>
      rw [List.find?_cons, List.find?_cons, alike item other first]
      cases test' other with
      | true => exact .some first
      | false => exact ih

theorem rel_or {first second : Option α} {first' second' : Option β}
    (earlier : Option.Rel R first first') (later : Option.Rel R second second') :
    Option.Rel R (first.or second) (first'.or second') := by
  cases earlier with
  | none => exact later
  | some here => exact .some here

end Related

end ResponseShape

import ResponseShape.Proofs.Outcome

/-!
# Computations that agree

Two computations agree when both fail with one error or both succeed with related results
(`Outcome.Agree`). Computations made of steps agree when their steps do: one after the other
(`Outcome.Agree.bind`), item by item (`Outcome.agree_mapM`), and in a fold, where the related
things are the states (`Outcome.agree_foldlM`).
-/

set_option autoImplicit false

namespace ResponseShape

/-- Both computations fail with one error, or both succeed with related results. -/
inductive Outcome.Agree {α β : Type} (R : α → β → Prop) : Outcome α → Outcome β → Prop where
  | ok {value : α} {other : β} : R value other → Agree R (.ok value) (.ok other)
  | error (error : AnalysisError) : Agree R (.error error) (.error error)

namespace Outcome

variable {α β γ δ σ τ : Type} {R : α → β → Prop} {S : γ → δ → Prop}

theorem Agree.mono {T : α → β → Prop} {first : Outcome α} {second : Outcome β}
    (agree : Agree R first second) (weaker : ∀ value other, R value other → T value other) :
    Agree T first second := by
  cases agree with
  | ok related => exact .ok (weaker _ _ related)
  | error error => exact .error error

/-- Computations that agree have the results that are related. -/
theorem Agree.with_results {first : Outcome α} {second : Outcome β} (agree : Agree R first second) :
    Agree (fun value other => R value other ∧ first = .ok value ∧ second = .ok other)
      first second := by
  cases agree with
  | ok related => exact .ok ⟨related, rfl, rfl⟩
  | error error => exact .error error

/-- What agrees with a success succeeds with a related result. -/
theorem Agree.exists_ok {first : Outcome α} {second : Outcome β} (agree : Agree R first second)
    {value : α} (done : first = .ok value) : ∃ other, second = .ok other ∧ R value other := by
  cases agree with
  | ok related =>
      obtain rfl := Except.ok.inj done
      exact ⟨_, rfl, related⟩
  | error error => cases done

/-- What agrees with a failure fails in the same way. -/
theorem Agree.eq_error {first : Outcome α} {second : Outcome β} (agree : Agree R first second)
    {error : AnalysisError} (failed : first = .error error) : second = .error error := by
  cases agree with
  | ok related => cases failed
  | error _ => rw [Except.error.inj failed]

/-- **Computations agree when their first steps do and what follows on related results does.** -/
theorem Agree.bind {first : Outcome α} {second : Outcome β} {next : α → Outcome γ}
    {next' : β → Outcome δ} (agree : Agree R first second)
    (later : ∀ value other, R value other → Agree S (next value) (next' other)) :
    Agree S (first >>= next) (second >>= next') := by
  cases agree with
  | ok related => exact later _ _ related
  | error error => exact .error error

/-- Computations with one first step agree when what follows on its result does. -/
theorem agree_bind_same {first : Outcome α} {next : α → Outcome γ} {next' : α → Outcome δ}
    (later : ∀ value, first = .ok value → Agree S (next value) (next' value)) :
    Agree S (first >>= next) (first >>= next') := by
  cases first with
  | ok value => exact later value rfl
  | error error => exact .error error

/-- The computations agree in what `norm` tells of their results. -/
abbrev AgreeOn (norm : α → γ) (first second : Outcome α) : Prop :=
  Agree (fun value other => norm value = norm other) first second

theorem AgreeOn.symm {norm : α → γ} {first second : Outcome α}
    (agree : AgreeOn norm first second) : AgreeOn norm second first := by
  cases agree with
  | ok same => exact .ok same.symm
  | error error => exact .error error

theorem AgreeOn.trans {norm : α → γ} {first second third : Outcome α}
    (earlier : AgreeOn norm first second) (later : AgreeOn norm second third) :
    AgreeOn norm first third := by
  cases earlier with
  | ok same =>
      cases later with
      | ok sameLater => exact .ok (same.trans sameLater)
  | error error =>
      cases later with
      | error _ => exact .error error

theorem agree_of_map_eq {f : α → γ} {g : β → γ} {first : Outcome α} {second : Outcome β}
    (same : first.map f = second.map g) :
    Agree (fun value other => f value = g other) first second := by
  cases first with
  | ok value =>
      cases second with
      | ok other => exact .ok (Except.ok.inj same)
      | error error => cases same
  | error error =>
      cases second with
      | ok other => cases same
      | error other =>
          obtain rfl := Except.error.inj same
          exact .error error

theorem agree_map_iff {T : γ → δ → Prop} {f : α → γ} {g : β → δ} {first : Outcome α}
    {second : Outcome β} :
    Agree T (first.map f) (second.map g) ↔
      Agree (fun value other => T (f value) (g other)) first second := by
  constructor
  · intro agree
    cases first <;> cases second <;> cases agree
    · exact .error _
    · exact .ok ‹_›
  · intro agree
    cases agree with
    | ok related => exact .ok related
    | error error => exact .error error

/-- **Related lists are computed alike when related items are.** -/
theorem agree_mapM {compute : α → Outcome γ} {compute' : β → Outcome δ} {items : List α}
    {others : List β} (related : List.Forall₂ R items others)
    (each : ∀ item other, R item other → Agree S (compute item) (compute' other)) :
    Agree (List.Forall₂ S) (items.mapM compute) (others.mapM compute') := by
  induction related with
  | nil => exact .ok .nil
  | cons here _ ih =>
      rw [List.mapM_cons, List.mapM_cons]
      refine (each _ _ here).bind fun result result' same => ?_
      exact ih.bind fun results results' rest => .ok (.cons same rest)

/-- **Folds over related lists keep their states related when their steps do.** -/
theorem agree_foldlM {T : σ → τ → Prop} {step : σ → α → Outcome σ} {step' : τ → β → Outcome τ}
    {items : List α} {others : List β} (related : List.Forall₂ R items others)
    (each : ∀ state state' item other, T state state' → R item other →
      Agree T (step state item) (step' state' other)) {start : σ} {start' : τ}
    (starts : T start start') :
    Agree T (items.foldlM step start) (others.foldlM step' start') := by
  induction related generalizing start start' with
  | nil => exact .ok starts
  | cons here _ ih =>
      rw [List.foldlM_cons, List.foldlM_cons]
      exact (each _ _ _ _ starts here).bind fun next next' same => ih same

/-! ## Computations that follow each other exactly -/

theorem map_bind_eq {f : α → β} {g : γ → δ} {first : Outcome α} {next : α → Outcome γ}
    {next' : β → Outcome δ} (each : ∀ value, (next value).map g = next' (f value)) :
    (first >>= next).map g = first.map f >>= next' := by
  cases first with
  | ok value => exact each value
  | error error => rfl

theorem map_mapM_eq {g : γ → δ} {compute : α → Outcome γ} {compute' : α → Outcome δ}
    (each : ∀ item, (compute item).map g = compute' item) (items : List α) :
    (items.mapM compute).map (List.map g) = items.mapM compute' := by
  induction items with
  | nil => rfl
  | cons item rest ih =>
      rw [List.mapM_cons, List.mapM_cons, ← each item, ← ih]
      cases compute item with
      | error error => rfl
      | ok result => cases rest.mapM compute <;> rfl

end Outcome

/-- Lists of the same keys are related item by item. -/
theorem forall₂_of_map_eq {α β γ : Type} {key : α → γ} {key' : β → γ} {items : List α}
    {others : List β} (same : items.map key = others.map key') :
    List.Forall₂ (fun item other => key item = key' other) items others := by
  have equal : List.Forall₂ Eq (items.map key) (others.map key') := by
    rw [List.forall₂_eq_eq_eq]
    exact same
  exact List.forall₂_map_right_iff.mp (List.forall₂_map_left_iff.mp equal)

end ResponseShape

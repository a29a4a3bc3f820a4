import Mathlib.Tactic.Tauto
import ResponseShape.OrderedSet
import ResponseShape.Proofs.Outcome

/-!
# Leaving out what came before

A list is thinned by leaving out items that an earlier item covers. What counts as earlier is
kept in a list of its own, so that lists can be thinned piece by piece (`Thins.append`). Thinning
goes along with mapping, filtering and the replacement of items by lists
(`Thins.flatMap`), and it does not change which keys come first (`Thins.addAll_keys`).

A list of distinct items is what adding items in turn makes, when an item is added only if none
before it is the same. What is added in this way is the items, thinned
(`exists_thins_distinctOnto`).
-/

set_option autoImplicit false

namespace ResponseShape

variable {α β : Type}

/-- The second list is the first without some of the items that are covered by an item of `seen`
or by an item kept before them. -/
inductive Thins (covers : α → α → Prop) : (seen full kept : List α) → Prop where
  | nil {seen : List α} : Thins covers seen [] []
  | keep {seen full kept : List α} (item : α) :
      Thins covers (item :: seen) full kept → Thins covers seen (item :: full) (item :: kept)
  | drop {seen full kept : List α} {known item : α} :
      known ∈ seen → covers known item → Thins covers seen full kept →
        Thins covers seen (item :: full) kept

namespace Thins

variable {covers : α → α → Prop} {seen seen' full full' kept kept' : List α}

theorem refl (seen : List α) : ∀ items : List α, Thins covers seen items items
  | [] => .nil
  | item :: rest => .keep item (refl (item :: seen) rest)

/-- What is seen may grow. -/
theorem mono (thins : Thins covers seen full kept) (more : ∀ item ∈ seen, item ∈ seen') :
    Thins covers seen' full kept := by
  induction thins generalizing seen' with
  | nil => exact .nil
  | keep item _ ih =>
      refine .keep item (ih fun other member => ?_)
      rcases List.mem_cons.mp member with rfl | before
      · exact List.mem_cons_self
      · exact List.mem_cons_of_mem _ (more other before)
  | drop known covered _ ih => exact .drop (more _ known) covered (ih more)

theorem imp {covers' : α → α → Prop} (weaker : ∀ known item, covers known item → covers' known item)
    (thins : Thins covers seen full kept) : Thins covers' seen full kept := by
  induction thins with
  | nil => exact .nil
  | keep item _ ih => exact .keep item ih
  | drop known covered _ ih => exact .drop known (weaker _ _ covered) ih

/-- What is seen may be replaced by what covers it. -/
theorem replace_seen (trans : ∀ first second third : α, covers first second →
      covers second third → covers first third)
    (thins : Thins covers seen full kept)
    (covered : ∀ item ∈ seen, item ∈ seen' ∨ ∃ known ∈ seen', covers known item) :
    Thins covers seen' full kept := by
  induction thins generalizing seen' with
  | nil => exact .nil
  | keep item _ ih =>
      refine .keep item (ih fun other member => ?_)
      rcases List.mem_cons.mp member with rfl | before
      · exact .inl List.mem_cons_self
      · rcases covered other before with known | ⟨known, present, covers⟩
        · exact .inl (List.mem_cons_of_mem _ known)
        · exact .inr ⟨known, List.mem_cons_of_mem _ present, covers⟩
  | drop known covering _ ih =>
      rcases covered _ known with present | ⟨other, present, covers⟩
      · exact .drop present covering (ih covered)
      · exact .drop present (trans _ _ _ covers covering) (ih covered)

theorem append (first : Thins covers seen full kept)
    (second : Thins covers (kept ++ seen) full' kept') :
    Thins covers seen (full ++ full') (kept ++ kept') := by
  induction first with
  | nil => exact second
  | keep item _ ih =>
      refine .keep item (ih (second.mono fun other member => ?_))
      simp only [List.cons_append, List.mem_cons, List.mem_append] at member ⊢
      tauto
  | drop known covered _ ih => exact .drop known covered (ih second)

theorem trans (transitive : ∀ first second third : α, covers first second →
      covers second third → covers first third)
    {middle : List α} (earlier : Thins covers seen full middle)
    (later : Thins covers seen middle kept) : Thins covers seen full kept := by
  induction earlier generalizing kept with
  | nil => exact later
  | keep item _ ih =>
      cases later with
      | keep _ rest => exact .keep item (ih rest)
      | drop known covered rest =>
          have grown := rest.mono fun other member => List.mem_cons_of_mem item member
          refine .drop known covered ((ih grown).replace_seen transitive ?_)
          intro other member
          rcases List.mem_cons.mp member with rfl | before
          · exact .inr ⟨_, known, covered⟩
          · exact .inl before
  | drop known covered _ ih => exact .drop known covered (ih later)

/-- Everything that is seen already can be left out. -/
theorem drop_all (covered : ∀ item ∈ full, ∃ known ∈ seen, covers known item)
    (rest : Thins covers seen full' kept) : Thins covers seen (full ++ full') kept := by
  induction full with
  | nil => exact rest
  | cons item others ih =>
      obtain ⟨known, present, covers⟩ := covered item List.mem_cons_self
      exact .drop present covers (ih fun other member =>
        covered other (List.mem_cons_of_mem _ member))

theorem subset (thins : Thins covers seen full kept) : ∀ item ∈ kept, item ∈ full := by
  induction thins with
  | nil => exact fun _ member => member
  | keep item _ ih =>
      intro other member
      rcases List.mem_cons.mp member with rfl | later
      · exact List.mem_cons_self
      · exact List.mem_cons_of_mem _ (ih other later)
  | drop _ _ _ ih => exact fun other member => List.mem_cons_of_mem _ (ih other member)

/-- An item is kept, or covered by one that was seen or kept. -/
theorem kept_or_covered (thins : Thins covers seen full kept) :
    ∀ item ∈ full, item ∈ kept ∨ ∃ known, (known ∈ seen ∨ known ∈ kept) ∧ covers known item := by
  induction thins with
  | nil => exact fun _ member => .inl member
  | keep item _ ih =>
      intro other member
      rcases List.mem_cons.mp member with rfl | later
      · exact .inl List.mem_cons_self
      · rcases ih other later with isKept | ⟨known, present, covers⟩
        · exact .inl (List.mem_cons_of_mem _ isKept)
        · refine .inr ⟨known, ?_, covers⟩
          simp only [List.mem_cons] at present ⊢
          tauto
  | drop known covered _ ih =>
      intro other member
      rcases List.mem_cons.mp member with rfl | later
      · exact .inr ⟨_, .inl known, covered⟩
      · exact ih other later

/-- With nothing seen, the first item is kept. -/
theorem exists_cons {item : α} (thins : Thins covers [] (item :: full) kept) :
    ∃ rest, kept = item :: rest ∧ Thins covers [item] full rest := by
  cases thins with
  | keep _ rest => exact ⟨_, rfl, rest⟩
  | drop known _ _ => cases known

/-! ## Lists made from thinned lists -/

theorem flatMap {covers' : β → β → Prop} {parts : α → List β}
    (covered : ∀ first second, covers first second →
      ∀ part ∈ parts second, ∃ known ∈ parts first, covers' known part)
    (thins : Thins covers seen full kept) :
    Thins covers' (seen.flatMap parts) (full.flatMap parts) (kept.flatMap parts) := by
  induction thins with
  | nil => exact .nil
  | keep item _ ih =>
      rw [List.flatMap_cons, List.flatMap_cons]
      refine (refl _ (parts item)).append (ih.mono fun other member => ?_)
      rwa [List.flatMap_cons] at member
  | drop known covering _ ih =>
      rw [List.flatMap_cons]
      refine drop_all (fun part member => ?_) ih
      obtain ⟨other, present, covers⟩ := covered _ _ covering part member
      exact ⟨other, List.mem_flatMap.mpr ⟨_, known, present⟩, covers⟩

theorem filter {keeps : α → Bool}
    (alike : ∀ first second, covers first second → keeps first = keeps second)
    (thins : Thins covers seen full kept) :
    Thins covers (seen.filter keeps) (full.filter keeps) (kept.filter keeps) := by
  induction thins with
  | nil => exact .nil
  | keep item _ ih =>
      by_cases keeping : keeps item = true
      · rw [List.filter_cons_of_pos keeping] at ih
        rw [List.filter_cons_of_pos keeping, List.filter_cons_of_pos keeping]
        exact .keep item ih
      · rw [List.filter_cons_of_neg keeping] at ih
        rwa [List.filter_cons_of_neg keeping, List.filter_cons_of_neg keeping]
  | @drop _ _ _ _ item known covering _ ih =>
      by_cases keeping : keeps item = true
      · rw [List.filter_cons_of_pos keeping]
        exact .drop (List.mem_filter.mpr ⟨known, (alike _ _ covering).trans keeping⟩) covering ih
      · rwa [List.filter_cons_of_neg keeping]

/-- **Thinning changes no key's place.** -/
theorem addAll_keys [DecidableEq β] {key : α → β}
    (alike : ∀ first second, covers first second → key first = key second)
    (thins : Thins covers seen full kept) {keys : List β}
    (known : ∀ item ∈ seen, key item ∈ keys) :
    OrderedSet.addAll keys (full.map key) = OrderedSet.addAll keys (kept.map key) := by
  induction thins generalizing keys with
  | nil => rfl
  | keep item _ ih =>
      refine ih fun other member => OrderedSet.mem_add.mpr ?_
      rcases List.mem_cons.mp member with rfl | before
      · exact .inr rfl
      · exact .inl (known other before)
  | drop present covering _ ih =>
      rw [List.map_cons, ← alike _ _ covering]
      refine Eq.trans ?_ (ih known)
      exact congrArg (fun members => OrderedSet.addAll members _)
        (OrderedSet.add_of_mem (known _ present))

/-! ## Results for the items of thinned lists -/

variable {result : α → β → Prop} {alike : β → β → Prop} {seenResults keptResults : List β}

/-- **Results for what is kept give results for all items.** -/
theorem exists_full_results
    (transfer : ∀ known item found, covers known item → result known found →
      ∃ found', result item found' ∧ alike found found')
    (thins : Thins covers seen full kept) (before : List.Forall₂ result seen seenResults)
    (results : List.Forall₂ result kept keptResults) :
    ∃ fullResults, List.Forall₂ result full fullResults ∧
      Thins alike seenResults fullResults keptResults := by
  induction thins generalizing seenResults keptResults with
  | nil =>
      cases results
      exact ⟨[], .nil, .nil⟩
  | keep item _ ih =>
      cases results with
      | cons here later =>
          obtain ⟨fullResults, all, thins⟩ := ih (.cons here before) later
          exact ⟨_ :: fullResults, .cons here all, .keep _ thins⟩
  | drop known covering _ ih =>
      obtain ⟨found, isFound, here⟩ := exists_right_of_mem before known
      obtain ⟨found', here', alikeFound⟩ := transfer _ _ found covering here
      obtain ⟨fullResults, all, thins⟩ := ih before results
      exact ⟨found' :: fullResults, .cons here' all, .drop isFound alikeFound thins⟩

/-- **Results for all items, each of which has one, give results for what is kept.** -/
theorem exists_kept_results {fullResults : List β}
    (transfer : ∀ known item found, covers known item → result known found →
      ∃ found', result item found' ∧ alike found found')
    (only : ∀ item found found', result item found → result item found' → found = found')
    (thins : Thins covers seen full kept) (before : List.Forall₂ result seen seenResults)
    (results : List.Forall₂ result full fullResults) :
    ∃ keptResults, List.Forall₂ result kept keptResults ∧
      Thins alike seenResults fullResults keptResults := by
  induction thins generalizing seenResults fullResults with
  | nil =>
      cases results
      exact ⟨[], .nil, .nil⟩
  | keep item _ ih =>
      cases results with
      | cons here later =>
          obtain ⟨keptResults, kept, thins⟩ := ih (.cons here before) later
          exact ⟨_ :: keptResults, .cons here kept, .keep _ thins⟩
  | drop known covering _ ih =>
      cases results with
      | cons here later =>
          obtain ⟨found, isFound, foundHere⟩ := exists_right_of_mem before known
          obtain ⟨found', here', alikeFound⟩ := transfer _ _ found covering foundHere
          obtain rfl := only _ _ _ here here'
          obtain ⟨keptResults, kept, thins⟩ := ih before later
          exact ⟨keptResults, kept, .drop isFound alikeFound thins⟩

end Thins

/-! ## Lists that are related but for what is left out -/

/-- The lists are what is left of two lists that are related item by item. -/
def RelatedUpTo (related : α → α → Prop) (covers : α → α → Prop) (kept kept' : List α) : Prop :=
  ∃ full full', List.Forall₂ related full full' ∧ Thins covers [] full kept ∧
    Thins covers [] full' kept'

namespace RelatedUpTo

variable {related covers : α → α → Prop} {kept kept' : List α}

theorem of_forall₂ (all : List.Forall₂ related kept kept') :
    RelatedUpTo related covers kept kept' :=
  ⟨kept, kept', all, .refl [] kept, .refl [] kept'⟩

theorem imp {covers' : α → α → Prop} (weaker : ∀ known item, covers known item → covers' known item)
    (relates : RelatedUpTo related covers kept kept') : RelatedUpTo related covers' kept kept' := by
  obtain ⟨full, full', all, thins, thins'⟩ := relates
  exact ⟨full, full', all, thins.imp weaker, thins'.imp weaker⟩

/-- More may be left out. -/
theorem thin (transitive : ∀ first second third : α, covers first second →
      covers second third → covers first third) {less less' : List α}
    (relates : RelatedUpTo related covers kept kept') (thins : Thins covers [] kept less)
    (thins' : Thins covers [] kept' less') : RelatedUpTo related covers less less' := by
  obtain ⟨full, full', all, before, before'⟩ := relates
  exact ⟨full, full', all, before.trans transitive thins, before'.trans transitive thins'⟩

/-- Lists are put together from parts that are related. -/
theorem flatMap_of_forall₂ {γ δ : Type} {parts : γ → List α} {parts' : δ → List α}
    {items : List γ} {items' : List δ}
    (all : List.Forall₂ (fun item item' => RelatedUpTo related covers (parts item) (parts' item'))
      items items') :
    RelatedUpTo related covers (items.flatMap parts) (items'.flatMap parts') := by
  induction all with
  | nil => exact .of_forall₂ .nil
  | cons first _ ih =>
      obtain ⟨full, full', here, thins, thins'⟩ := first
      obtain ⟨rest, rest', later, thinsRest, thinsRest'⟩ := ih
      rw [List.flatMap_cons, List.flatMap_cons]
      exact ⟨full ++ rest, full' ++ rest', List.rel_append here later,
        thins.append (thinsRest.mono (by simp)), thins'.append (thinsRest'.mono (by simp))⟩

/-- Items may be replaced by lists. -/
theorem flatMap {related' covers' : β → β → Prop} {parts : α → List β}
    (relate : ∀ item item', related item item' → List.Forall₂ related' (parts item) (parts item'))
    (covered : ∀ first second, covers first second →
      ∀ part ∈ parts second, ∃ known ∈ parts first, covers' known part)
    (relates : RelatedUpTo related covers kept kept') :
    RelatedUpTo related' covers' (kept.flatMap parts) (kept'.flatMap parts) := by
  obtain ⟨full, full', all, thins, thins'⟩ := relates
  exact ⟨full.flatMap parts, full'.flatMap parts,
    List.rel_flatMap all fun item item' => relate item item', thins.flatMap covered,
    thins'.flatMap covered⟩

theorem filter {keeps : α → Bool}
    (relate : ∀ item item', related item item' → keeps item = keeps item')
    (alike : ∀ first second, covers first second → keeps first = keeps second)
    (relates : RelatedUpTo related covers kept kept') :
    RelatedUpTo related covers (kept.filter keeps) (kept'.filter keeps) := by
  obtain ⟨full, full', all, thins, thins'⟩ := relates
  refine ⟨full.filter keeps, full'.filter keeps, List.rel_filter (fun item item' here => ?_) all,
    thins.filter alike, thins'.filter alike⟩
  exact iff_of_eq (congrArg (· = true) (relate item item' here))

/-- The keys come first in one order. -/
theorem ofList_keys [DecidableEq β] {key : α → β}
    (relate : ∀ item item', related item item' → key item = key item')
    (alike : ∀ first second, covers first second → key first = key second)
    (relates : RelatedUpTo related covers kept kept') :
    OrderedSet.ofList (kept.map key) = OrderedSet.ofList (kept'.map key) := by
  obtain ⟨full, full', all, thins, thins'⟩ := relates
  calc OrderedSet.ofList (kept.map key)
      = OrderedSet.ofList (full.map key) := (thins.addAll_keys alike (by simp)).symm
    _ = OrderedSet.ofList (full'.map key) := by rw [forall₂_map_eq relate all]
    _ = OrderedSet.ofList (kept'.map key) := thins'.addAll_keys alike (by simp)

/-- Both lists are empty, or their first items are related. -/
theorem nil_or_cons (relates : RelatedUpTo related covers kept kept') :
    (kept = [] ∧ kept' = []) ∨ ∃ first rest first' rest', kept = first :: rest ∧
      kept' = first' :: rest' ∧ related first first' := by
  obtain ⟨full, full', all, thins, thins'⟩ := relates
  cases all with
  | nil =>
      cases thins
      cases thins'
      exact .inl ⟨rfl, rfl⟩
  | cons here _ =>
      obtain ⟨rest, rfl, _⟩ := thins.exists_cons
      obtain ⟨rest', rfl, _⟩ := thins'.exists_cons
      exact .inr ⟨_, rest, _, rest', rfl, rfl, here⟩

/-- An item of the first list is related to one that is in the second list or covered there. -/
theorem exists_of_mem (relates : RelatedUpTo related covers kept kept') :
    ∀ item ∈ kept, ∃ item', related item item' ∧
      (item' ∈ kept' ∨ ∃ known ∈ kept', covers known item') := by
  obtain ⟨full, full', all, thins, thins'⟩ := relates
  intro item member
  obtain ⟨item', isFull, here⟩ := exists_right_of_mem all (thins.subset item member)
  refine ⟨item', here, ?_⟩
  rcases thins'.kept_or_covered item' isFull with isKept | ⟨known, seen | isKept, covering⟩
  · exact .inl isKept
  · cases seen
  · exact .inr ⟨known, isKept, covering⟩

/-- **Results of the second list give results of the first.** -/
theorem exists_results {result result' : α → β → Prop} {alike related' : β → β → Prop}
    (transfer : ∀ known item found, covers known item → result known found →
      ∃ found', result item found' ∧ alike found found')
    (transfer' : ∀ known item found, covers known item → result' known found →
      ∃ found', result' item found' ∧ alike found found')
    (only : ∀ item found found', result item found → result item found' → found = found')
    (simulate : ∀ item item' found', related item item' → result' item' found' →
      ∃ found, result item found ∧ related' found found')
    (relates : RelatedUpTo related covers kept kept') {results' : List β}
    (found' : List.Forall₂ result' kept' results') :
    ∃ results, List.Forall₂ result kept results ∧ RelatedUpTo related' alike results results' := by
  obtain ⟨full, full', all, thins, thins'⟩ := relates
  obtain ⟨fullResults', allFound', thinned'⟩ := thins'.exists_full_results transfer' .nil found'
  have both : List.Forall₂ (fun found' item => ∃ item', related item item' ∧ result' item' found')
      fullResults' full :=
    forall₂_trans (fun found' item' item here there => ⟨item', there, here⟩) allFound'.flip all.flip
  obtain ⟨fullResults, allFound, relatedFound⟩ := exists_forall₂
    (fun found' item ⟨item', here, there⟩ => simulate item item' found' here there) both
  obtain ⟨results, found, thinned⟩ := thins.exists_kept_results transfer only .nil allFound
  exact ⟨results, found, fullResults, fullResults', relatedFound.flip, thinned, thinned'⟩

end RelatedUpTo

/-! ## Adding what is new -/

/-- The items that are there, and those of the others that none before them is the same as. -/
def distinctOnto (same : α → α → Bool) (present items : List α) : List α :=
  items.foldl (fun present item =>
    if present.any (fun known => same known item) then present else present ++ [item]) present

variable {same : α → α → Bool}

theorem distinctOnto_cons_of_known {present : List α} {item known : α} (member : known ∈ present)
    (covers : same known item = true) (items : List α) :
    distinctOnto same present (item :: items) = distinctOnto same present items := by
  have found : present.any (fun known => same known item) = true :=
    List.any_eq_true.mpr ⟨known, member, covers⟩
  simp only [distinctOnto, List.foldl_cons, found, if_true]

theorem distinctOnto_cons_of_new {present : List α} {item : α}
    (absent : ∀ known ∈ present, same known item = false) (items : List α) :
    distinctOnto same present (item :: items) =
      distinctOnto same (present ++ [item]) items := by
  have missing : present.any (fun known => same known item) = false :=
    List.any_eq_false.mpr fun known member => by simp [absent known member]
  simp only [distinctOnto, List.foldl_cons, missing, Bool.false_eq_true, if_false]

/-- An item is covered by what is there already, or it is new. -/
theorem known_or_new (same : α → α → Bool) (present : List α) (item : α) :
    (∃ known ∈ present, same known item = true) ∨
      ∀ known ∈ present, same known item = false := by
  by_cases found : ∃ known ∈ present, same known item = true
  · exact .inl found
  · refine .inr fun known member => ?_
    simpa using fun covers => found ⟨known, member, covers⟩

/-- **What is added is the items, thinned.** -/
theorem exists_thins_distinctOnto (same : α → α → Bool) (present items : List α) :
    ∃ kept, distinctOnto same present items = present ++ kept ∧
      Thins (fun first second => same first second = true) present items kept := by
  induction items generalizing present with
  | nil => exact ⟨[], (List.append_nil present).symm, .nil⟩
  | cons item rest ih =>
      rcases known_or_new same present item with ⟨known, member, covers⟩ | absent
      · obtain ⟨kept, equal, thins⟩ := ih present
        refine ⟨kept, ?_, .drop member covers thins⟩
        rw [distinctOnto_cons_of_known member covers, equal]
      · obtain ⟨kept, equal, thins⟩ := ih (present ++ [item])
        refine ⟨item :: kept, ?_, .keep item (thins.mono fun other member => ?_)⟩
        · rw [distinctOnto_cons_of_new absent, equal, List.append_assoc, List.singleton_append]
        · simpa [or_comm] using member

/-- **No item that is added is the same as one before it.** -/
theorem pairwise_distinctOnto {present : List α}
    (distinct : present.Pairwise (fun earlier later => same earlier later = false))
    (items : List α) :
    (distinctOnto same present items).Pairwise
      (fun earlier later => same earlier later = false) := by
  induction items generalizing present with
  | nil => exact distinct
  | cons item rest ih =>
      rcases known_or_new same present item with ⟨known, member, covers⟩ | absent
      · rw [distinctOnto_cons_of_known member covers]
        exact ih distinct
      · rw [distinctOnto_cons_of_new absent]
        apply ih
        rw [List.pairwise_append]
        refine ⟨distinct, List.pairwise_singleton _ _, fun earlier isEarlier later isLater => ?_⟩
        rw [List.mem_singleton.mp isLater]
        exact absent earlier isEarlier

end ResponseShape

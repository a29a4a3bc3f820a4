import ResponseShape.Proofs.Implementations
import ResponseShape.Proofs.PlainPlans
import ResponseShape.Proofs.Retaining
import ResponseShape.Proofs.SelfEquality
import ResponseShape.Traversal.Operation

/-!
# Occurrences that come again

A task is reached by the selections of its occurrences, and each of them is collected anew. When a
node equals one before it, all that it selects was selected before, by twins: fields with the same
definition and with equal nodes. A group that has taken up a field drops its twins
(`Occurrences.Has.addDistinct_eq`), so groups stay as they are when a twin comes
(`OccurrenceGroups.retains_meet`), and so do the groups of all object types
(`Environment.exists_retains_meetVariant`).

So an occurrence may be put in anywhere behind one whose node equals its own: the plan is the same,
or cannot be made for the same reason (`Environment.plan_insert_of_equals`), and the step has the
same outcome (`Environment.step_insert_of_equals`). Floats that are no numbers are to be kept out of
the fragments, because a field with such an argument equals nothing and is taken up each time it
comes.
-/

set_option autoImplicit false

namespace ResponseShape

/-! ## Groups -/

namespace Occurrences

variable {occurrences : Occurrences} {field known : SelectedField}

/-- The selections are of the field's type, and one has an equal node. -/
structure Has (occurrences : Occurrences) (known : SelectedField) : Prop where
  name : occurrences.first.definition.name = known.definition.name
  namedType : occurrences.namedType = known.namedType
  node : ∃ present ∈ occurrences.toList, present.node.equals known.node = true

theorem mem_addDistinct {present : SelectedField} (member : present ∈ occurrences.toList)
    (field : SelectedField) : present ∈ (occurrences.addDistinct field).toList := by
  rw [addDistinct]
  split
  · exact member
  · exact List.mem_append_left [field] member

theorem Has.addDistinct (has : occurrences.Has known) (field : SelectedField) :
    (occurrences.addDistinct field).Has known := by
  obtain ⟨present, member, same⟩ := has.node
  have first := occurrences.first_addDistinct field
  refine ⟨first ▸ has.name, ?_, present, mem_addDistinct member field, same⟩
  rw [Occurrences.namedType, first]
  exact has.namedType

/-- A field that was added is there, itself or as an equal node. -/
theorem has_addDistinct (twin : field.Twin known)
    (name : occurrences.first.definition.name = field.definition.name)
    (namedType : occurrences.namedType = field.namedType) :
    (occurrences.addDistinct field).Has known := by
  have first := occurrences.first_addDistinct field
  refine ⟨?_, ?_, ?_⟩
  · rw [first, name, twin.definition]
  · rw [Occurrences.namedType, first, ← twin.namedType_eq]
    exact namedType
  · rw [Occurrences.addDistinct]
    split
    · rename_i found
      obtain ⟨present, member, same⟩ := List.any_eq_true.mp found
      exact ⟨present, member, FieldNode.equals_trans same twin.node⟩
    · refine ⟨field, ?_, twin.node⟩
      exact List.mem_append_right (occurrences.first :: occurrences.others)
        (List.mem_singleton_self field)

/-- **A field whose twin is there is dropped.** -/
theorem Has.addDistinct_eq (has : occurrences.Has known) (twin : field.Twin known) :
    occurrences.addDistinct field = occurrences := by
  obtain ⟨present, member, same⟩ := has.node
  have found : occurrences.toList.any (fun present => present.node.equals field.node) = true :=
    List.any_eq_true.mpr ⟨present, member, FieldNode.equals_trans same twin.symm.node⟩
  rw [Occurrences.addDistinct, if_pos found]

/-- **A position stays as it is when a twin comes.** -/
theorem retains_meetAt :
    Retains (Option.map id) SelectedField.Twin
      (fun present known => ∃ occurrences, present = some occurrences ∧ occurrences.Has known)
      (fun present field => ((single field).meetAt present).map some) where
  takes := by
    intro present field next known twin done
    obtain ⟨result, met, rfl⟩ := map_eq_ok_iff.mp done
    refine ⟨result, rfl, ?_⟩
    cases present with
    | none =>
        obtain rfl := Except.ok.inj met
        exact ⟨congrArg FieldDefinition.name twin.definition, twin.namedType_eq, field,
          List.mem_singleton_self field, twin.node⟩
    | some occurrences =>
        obtain ⟨⟨name, namedType⟩, rfl⟩ := absorb_single_eq_ok_iff.mp met
        exact has_addDistinct twin name namedType
  keeps := by
    intro present field next known done held
    obtain ⟨result, met, rfl⟩ := map_eq_ok_iff.mp done
    obtain ⟨occurrences, rfl, has⟩ := held
    obtain ⟨_, rfl⟩ := absorb_single_eq_ok_iff.mp met
    exact ⟨_, rfl, has.addDistinct field⟩
  idle := by
    intro present field known twin held
    obtain ⟨occurrences, rfl, has⟩ := held
    have name : occurrences.first.definition.name = field.definition.name := by
      rw [has.name, twin.definition]
    have namedType : occurrences.namedType = field.namedType := by
      rw [has.namedType, twin.namedType_eq]
    have absorbed : occurrences.absorb (single field) = .ok occurrences :=
      absorb_single_eq_ok_iff.mpr ⟨⟨name, namedType⟩, has.addDistinct_eq twin⟩
    exact ⟨some occurrences, map_eq_ok_iff.mpr ⟨occurrences, absorbed, rfl⟩, rfl⟩

end Occurrences

namespace OccurrenceGroups

/-- A group has taken up a twin of the field. -/
def Has (groups : OccurrenceGroups) (known : SelectedField) : Prop :=
  ∃ occurrences, groups.get? known.responseName = some occurrences ∧ occurrences.Has known

/-- **Groups stay as they are when a twin comes.** -/
theorem retains_meet : Retains id SelectedField.Twin Has meet := by
  have retains := Occurrences.retains_meetAt.update SelectedField.responseName
    SelectedField.responseName fun _ _ twin => twin.responseName_eq
  rw [OrderedMap.mapValues_id] at retains
  exact retains

end OccurrenceGroups

namespace Environment

/-- **The groups of all object types stay as they are when twins come.** -/
theorem exists_retains_meetVariant :
    ∃ holds, Retains id (Variant.Related SelectedField.Twin) holds meetVariant := by
  have fields : Retains id (Variant.Related SelectedField.Twin)
      (fun groups known => ∃ fields, known.fields = fields ∧ ∀ field ∈ fields, groups.Has field)
      (fun (groups : OccurrenceGroups) variant =>
        (.ok variant.fields : Outcome (List SelectedField)) >>= groups.meetAll) := by
    apply OccurrenceGroups.retains_meet.list.comp
    · rintro variant known _ related ⟨⟩
      exact ⟨known.fields, rfl, related.2⟩
    · rintro variant known _ related rfl
      exact ⟨variant.fields, rfl, related.2⟩
  have variants := (fields.orElse OrderedMap.empty).update Variant.typeName Variant.typeName
    fun _ _ related => related.1
  rw [OrderedMap.mapValues_id] at variants
  exact ⟨_, variants⟩

/-! ## Steps -/

variable {environment : Environment}

/-- Occurrences with equal nodes give twins, so one may be put in behind the other, whatever takes
up what is collected. -/
theorem foldlM_insert_of_equals {σ α : Type} {step : σ → α → Outcome σ} {same : α → α → Prop}
    {holds : σ → α → Prop} (retains : Retains id same holds step)
    (collect : List Selection → Outcome α)
    (collects : ∀ items items' found, Selection.listEquals items items' = true →
      collect items = .ok found → ∃ found', collect items' = .ok found' ∧ same found found')
    (symm : ∀ left right, same left right → same right left)
    {before : List SelectedField} {known again : SelectedField} (member : known ∈ before)
    (equal : known.node.equals again.node = true) (after : List SelectedField) (state : σ) :
    (before ++ again :: after).foldlM
        (fun state occurrence => collect occurrence.node.items >>= step state) state =
      (before ++ after).foldlM
        (fun state occurrence => collect occurrence.node.items >>= step state) state := by
  have items : ∀ left right : SelectedField, left.node.equals right.node = true →
      Selection.listEquals left.node.items right.node.items = true := by
    intro left right equal
    simp only [FieldNode.equals, Bool.and_eq_true] at equal
    exact equal.2
  have occurrences : Retains id
      (fun left right : SelectedField => left.node.equals right.node = true)
      (fun state (known : SelectedField) => ∃ found, collect known.node.items = .ok found ∧
        holds state found)
      (fun state occurrence => collect occurrence.node.items >>= step state) := by
    apply retains.comp
    · intro left right found equal collected
      exact collects _ _ found (items left right equal) collected
    · intro left right found equal collected
      obtain ⟨found', collected', same⟩ :=
        collects _ _ found (items right left (FieldNode.equals_symm equal)) collected
      exact ⟨found', collected', symm _ _ same⟩
  have reflexive : again.node.equals again.node = true :=
    FieldNode.equals_trans (FieldNode.equals_symm equal) equal
  exact occurrences.foldlM_insert member equal reflexive state

section Insert

variable (numbers : environment.fragments.withoutNaN = true) {before : List SelectedField}
  {first known again : SelectedField} (member : known ∈ first :: before)
  (equal : known.node.equals again.node = true) (after : List SelectedField) (path : Path)

include numbers member equal

theorem collectVariants_insert_of_equals (type : TypeDefinition) :
    environment.collectVariants type ⟨⟨first, before ++ again :: after⟩, path⟩ =
      environment.collectVariants type ⟨⟨first, before ++ after⟩, path⟩ := by
  obtain ⟨holds, retains⟩ := exists_retains_meetVariant
  have collected := foldlM_insert_of_equals retains.list
    (fun items => environment.collect type items path)
    (fun _ _ _ same here => collect_of_equals numbers same here)
    (fun _ _ related => related.flip.imp fun _ _ => Variant.twins_symm)
    member equal after OrderedMap.empty
  exact congrArg (fun outcome => outcome >>= _) collected

theorem collectShared_insert_of_equals (type : TypeDefinition) :
    environment.collectShared type ⟨⟨first, before ++ again :: after⟩, path⟩ =
      environment.collectShared type ⟨⟨first, before ++ after⟩, path⟩ := by
  have collected := foldlM_insert_of_equals OccurrenceGroups.retains_meet.list
    (fun items => environment.collectOn type items path)
    (fun _ _ _ same here => collectFor_of_equals numbers same here)
    (fun _ _ twins => twins.flip.imp fun _ _ => SelectedField.Twin.symm)
    member equal after OrderedMap.empty
  exact congrArg (fun outcome => outcome >>= _) collected

/-- **The plan is the same without the occurrence**, or cannot be made for the same reason. -/
theorem plan_insert_of_equals :
    environment.plan ⟨⟨first, before ++ again :: after⟩, path⟩ =
      environment.plan ⟨⟨first, before ++ after⟩, path⟩ := by
  have variants := collectVariants_insert_of_equals numbers member equal after path
  have shared := collectShared_insert_of_equals numbers member equal after path
  have abstract : ∀ type found,
      environment.planAbstract type ⟨⟨first, before ++ again :: after⟩, path⟩ found =
        environment.planAbstract type ⟨⟨first, before ++ after⟩, path⟩ found := by
    intro type found
    rw [planAbstract, planAbstract, shared]
  simp only [plan, variants, abstract, Task.namedType, Occurrences.namedType, Occurrences.position]

/-- **An occurrence that comes again changes nothing.** Put in anywhere behind one whose node equals
its own, it leaves the outcome of the step as it is: the same error, or the same models, names,
paths and children. -/
theorem step_insert_of_equals (policy : NamePolicy) (progress : Progress) :
    environment.step policy progress ⟨⟨first, before ++ again :: after⟩, path⟩ =
      environment.step policy progress ⟨⟨first, before ++ after⟩, path⟩ := by
  rw [step, step, plan_insert_of_equals numbers member equal after path]

end Insert

end Environment

/-! ## Zeros of both signs -/

namespace Sample

/-- The pet, on which the owner of dogs is asked for with a number. -/
def scaledPet (number : Binary64) : SelectedField :=
  select "Pet" "pet" [onType "Dog" [.field ⟨none, "owner", [⟨"scale", .float number⟩], [], ⟨1, 1⟩⟩
    ⟨⟨1, 1⟩, ⟨1, 1⟩⟩ [pick "name" []]], .spread "OfCat" [] ⟨1, 1⟩] ⟨["Q"]⟩

/-- The pet, on which the owner of dogs is asked for without a number. -/
def plainPet : SelectedField :=
  select "Pet" "pet" [onType "Dog" [pick "owner" [pick "mood" []]]] ⟨["Q"]⟩

end Sample

namespace Environment

open Sample

theorem step_of_signed_zeros :
    (scaledPet ⟨0⟩).node.equals (scaledPet ⟨0x8000000000000000⟩).node = true ∧
    ∃ after children, repeatedEnvironment.step ⟨[], []⟩ ⟨Catalog.empty, OrderedMap.empty⟩
        ⟨⟨scaledPet ⟨0⟩, [plainPet]⟩, ⟨["Q", "pet"]⟩⟩ = .ok (after, children) ∧
      repeatedEnvironment.step ⟨[], []⟩ ⟨Catalog.empty, OrderedMap.empty⟩
        ⟨⟨scaledPet ⟨0⟩, [plainPet, scaledPet ⟨0x8000000000000000⟩]⟩, ⟨["Q", "pet"]⟩⟩ =
          .ok (after, children) := by
  have numbers : repeatedEnvironment.fragments.withoutNaN = true := by decide +kernel
  have equal : (scaledPet ⟨0⟩).node.equals (scaledPet ⟨0x8000000000000000⟩).node = true := by
    decide +kernel
  have done : (repeatedEnvironment.step ⟨[], []⟩ ⟨Catalog.empty, OrderedMap.empty⟩
      ⟨⟨scaledPet ⟨0⟩, [plainPet]⟩, ⟨["Q", "pet"]⟩⟩).map (fun _ => ()) = .ok () := by
    decide +kernel
  obtain ⟨⟨after, children⟩, stepped, _⟩ := map_eq_ok_iff.mp done
  have member : scaledPet ⟨0⟩ ∈ [scaledPet ⟨0⟩, plainPet] := List.mem_cons_self
  have same := step_insert_of_equals numbers member equal [] ⟨["Q", "pet"]⟩ ⟨[], []⟩
    ⟨Catalog.empty, OrderedMap.empty⟩
  exact ⟨equal, after, children, stepped, same.trans stepped⟩

end Environment

end ResponseShape

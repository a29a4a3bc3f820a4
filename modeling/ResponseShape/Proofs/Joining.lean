import ResponseShape.Proofs.Alike
import ResponseShape.Proofs.Thinning
import ResponseShape.Traversal.Plan

/-!
# Putting selections of one response name together

Selected fields of one response name become one occurrence group: of fields whose nodes are
equal the first is kept (`Occurrences.ofList?`), so the group is the fields, thinned
(`Occurrences.thins_of_ofList?`). Fields can be put together when those of one response name
select fields of one name and of one named type (`SelectedField.Compatible`).

What a task selects is what its occurrences select, put together by object type and response
name (`Environment.collectVariants_eq_ok_iff`, `Environment.collectShared_eq_ok_iff`).
-/

set_option autoImplicit false

namespace ResponseShape

/-! ## Groups of one response name -/

/-- Fields of one response name select fields of one name and of one named type. -/
def SelectedField.Compatible (fields : List SelectedField) : Prop :=
  ∀ first ∈ fields, ∀ second ∈ fields, first.responseName = second.responseName →
    first.definition.name = second.definition.name ∧ first.namedType = second.namedType

/-- The first field's node covers the second's. -/
def SelectedField.Covers (known field : SelectedField) : Prop :=
  known.node.Alike field.node

theorem SelectedField.Covers.trans {first second third : SelectedField}
    (earlier : first.Covers second) (later : second.Covers third) : first.Covers third :=
  FieldNode.Alike.trans earlier later

namespace Occurrences

/-- The group of fields of one response name. -/
def ofList? : List SelectedField → Option Occurrences
  | [] => none
  | first :: rest => some (rest.foldl addDistinct (single first))

theorem first_foldl_addDistinct (occurrences : Occurrences) (fields : List SelectedField) :
    (fields.foldl addDistinct occurrences).first = occurrences.first := by
  induction fields generalizing occurrences with
  | nil => rfl
  | cons field rest ih =>
      rw [List.foldl_cons, ih, addDistinct]
      split <;> rfl

theorem toList_foldl_addDistinct (occurrences : Occurrences) (fields : List SelectedField) :
    (fields.foldl addDistinct occurrences).toList =
      distinctOnto (fun known field => known.node.equals field.node) occurrences.toList fields := by
  induction fields generalizing occurrences with
  | nil => rfl
  | cons field rest ih =>
      rw [List.foldl_cons, ih, distinctOnto, distinctOnto, List.foldl_cons, addDistinct]
      split
      · rfl
      · simp [toList]

/-- What is taken up are the fields, thinned. -/
theorem exists_thins_foldl_addDistinct (occurrences : Occurrences)
    (fields : List SelectedField) :
    ∃ kept, (fields.foldl addDistinct occurrences).toList = occurrences.toList ++ kept ∧
      Thins SelectedField.Covers occurrences.toList fields kept := by
  rw [toList_foldl_addDistinct]
  obtain ⟨kept, same, thins⟩ := exists_thins_distinctOnto
    (fun known field : SelectedField => known.node.equals field.node) occurrences.toList fields
  exact ⟨kept, same, thins.imp fun _ _ => FieldNode.alike_of_equals⟩

/-- **A group is its fields, thinned.** -/
theorem thins_of_ofList? {fields : List SelectedField} {occurrences : Occurrences}
    (grouped : ofList? fields = some occurrences) :
    Thins SelectedField.Covers [] fields occurrences.toList := by
  cases fields with
  | nil => simp [ofList?] at grouped
  | cons first rest =>
      obtain rfl := Option.some.inj grouped
      obtain ⟨kept, same, thins⟩ := exists_thins_foldl_addDistinct (single first) rest
      rw [same]
      exact .keep first thins

theorem conflict?_eq_none_iff {occurrences other : Occurrences} :
    occurrences.conflict? other = none ↔
      occurrences.first.definition.name = other.first.definition.name ∧
        occurrences.namedType = other.namedType := by
  by_cases named : occurrences.first.definition.name = other.first.definition.name
  · by_cases typed : occurrences.namedType = other.namedType
    · simp [conflict?, named, typed]
    · simp [conflict?, named, typed]
  · simp [conflict?, named]

theorem absorb_eq_ok_iff {occurrences other result : Occurrences} :
    occurrences.absorb other = .ok result ↔
      occurrences.conflict? other = none ∧
        other.toList.foldl addDistinct occurrences = result := by
  cases clash : occurrences.conflict? other with
  | none => simp [absorb, clash]
  | some conflict => simp [absorb, clash]

/-- The groups of fields, one for each response name. -/
def groups (fields : List SelectedField) : List Occurrences :=
  OrderedMap.groupBy SelectedField.responseName ofList? fields

/-- Fields of the response name of `first` that agree with it are taken up in turn. -/
theorem changeAll_meetAt_some {occurrences : Occurrences} {fields : List SelectedField}
    {result : Option Occurrences} :
    OrderedMap.changeAll (fun field => (single field).meetAt) fields (some occurrences) =
        .ok result ↔
      (∀ field ∈ fields, occurrences.conflict? (single field) = none) ∧
        some (fields.foldl addDistinct occurrences) = result := by
  induction fields generalizing occurrences with
  | nil => simp
  | cons field rest ih =>
      have unchanged : ∀ other : Occurrences,
          (occurrences.addDistinct field).conflict? other = occurrences.conflict? other := by
        intro other
        rw [addDistinct]
        split <;> rfl
      constructor
      · intro changed
        obtain ⟨next, met, later⟩ := OrderedMap.changeAll_cons_eq_ok changed
        obtain ⟨agreeing, rfl⟩ := absorb_eq_ok_iff.mp met
        obtain ⟨others, same⟩ := ih.mp later
        refine ⟨fun other member => ?_, same⟩
        rcases List.mem_cons.mp member with rfl | isOther
        · exact agreeing
        · exact unchanged (single other) ▸ others other isOther
      · rintro ⟨agreeing, same⟩
        have met : (single field).meetAt (some occurrences) =
            .ok (occurrences.addDistinct field) :=
          absorb_eq_ok_iff.mpr ⟨agreeing field List.mem_cons_self, rfl⟩
        rw [OrderedMap.changeAll_cons_of_ok (fun field => (single field).meetAt) met]
        refine ih.mpr ⟨fun other member => ?_, same⟩
        exact (unchanged (single other)).trans (agreeing other (List.mem_cons_of_mem _ member))

theorem changeAll_meetAt {fields : List SelectedField} {result : Option Occurrences}
    (alike : ∀ first ∈ fields, ∀ second ∈ fields, first.responseName = second.responseName) :
    OrderedMap.changeAll (fun field => (single field).meetAt) fields none = .ok result ↔
      SelectedField.Compatible fields ∧ ofList? fields = result := by
  cases fields with
  | nil => simp [SelectedField.Compatible, ofList?]
  | cons first rest =>
      have taken : (single first).meetAt none = .ok (single first) := rfl
      rw [OrderedMap.changeAll_cons_of_ok (fun field => (single field).meetAt) taken,
        changeAll_meetAt_some]
      refine and_congr_left fun _ => ?_
      simp only [conflict?_eq_none_iff]
      constructor
      · intro agreeing
        -- everything agrees with the first field, hence with everything
        have withFirst : ∀ field ∈ first :: rest,
            first.definition.name = field.definition.name ∧ first.namedType = field.namedType := by
          intro field member
          rcases List.mem_cons.mp member with rfl | later
          · exact ⟨rfl, rfl⟩
          · exact agreeing field later
        intro one isOne two isTwo _
        obtain ⟨oneName, oneType⟩ := withFirst one isOne
        obtain ⟨twoName, twoType⟩ := withFirst two isTwo
        exact ⟨oneName.symm.trans twoName, oneType.symm.trans twoType⟩
      · intro compatible field member
        exact compatible first List.mem_cons_self field (List.mem_cons_of_mem _ member)
          (alike first List.mem_cons_self field (List.mem_cons_of_mem _ member))

/-! ## All groups -/

variable {fields : List SelectedField} {occurrences : Occurrences}

theorem exists_ofList? {field : SelectedField} (member : field ∈ fields) :
    ∃ occurrences,
      ofList? (fields.filter (fun other => other.responseName = field.responseName)) =
        some occurrences := by
  have here : field ∈ fields.filter (fun other => other.responseName = field.responseName) :=
    List.mem_filter.mpr ⟨member, by simp⟩
  cases group : fields.filter (fun other => other.responseName = field.responseName) with
  | nil => simp [group] at here
  | cons first rest => exact ⟨_, rfl⟩

/-- **What a group contains was among the fields, under the group's response name.** -/
theorem of_mem_groups (grouped : occurrences ∈ groups fields) :
    ∀ field ∈ occurrences.toList,
      field ∈ fields ∧ field.responseName = occurrences.responseName := by
  obtain ⟨item, _, combined⟩ := OrderedMap.mem_groupBy.mp grouped
  have chosen : ∀ field ∈ occurrences.toList,
      field ∈ fields ∧ field.responseName = item.responseName := by
    intro field member
    have kept := (thins_of_ofList? combined).subset field member
    simpa using List.mem_filter.mp kept
  have first := (chosen occurrences.first List.mem_cons_self).2
  exact fun field member => ⟨(chosen field member).1, (chosen field member).2.trans first.symm⟩

/-- **Every field is covered in the group of its response name.** -/
theorem exists_group {field : SelectedField} (member : field ∈ fields) :
    ∃ occurrences ∈ groups fields, occurrences.responseName = field.responseName ∧
      ∃ known ∈ occurrences.toList, known.Covers field := by
  obtain ⟨occurrences, combined⟩ := exists_ofList? member
  have grouped : occurrences ∈ groups fields :=
    OrderedMap.mem_groupBy.mpr ⟨field, member, combined⟩
  have thins := thins_of_ofList? combined
  have here : field ∈ fields.filter (fun other => other.responseName = field.responseName) :=
    List.mem_filter.mpr ⟨member, by simp⟩
  have covered : ∃ known ∈ occurrences.toList, known.Covers field := by
    rcases thins.kept_or_covered field here with kept | ⟨known, seen | kept, covers⟩
    · exact ⟨field, kept, .refl _⟩
    · cases seen
    · exact ⟨known, kept, covers⟩
  obtain ⟨known, kept, covers⟩ := covered
  refine ⟨occurrences, grouped, ?_, known, kept, covers⟩
  rw [← (of_mem_groups grouped known kept).2]
  exact covers.responseName_eq

/-- The groups have the response names of the fields, each once. -/
theorem map_responseName_groups (fields : List SelectedField) :
    (groups fields).map responseName =
      OrderedSet.ofList (fields.map SelectedField.responseName) := by
  refine OrderedMap.map_groupBy fun field member => ?_
  obtain ⟨occurrences, combined⟩ := exists_ofList? member
  refine ⟨occurrences, combined, ?_⟩
  have first := (thins_of_ofList? combined).subset occurrences.first List.mem_cons_self
  have named := (List.mem_filter.mp first).2
  exact of_decide_eq_true named

theorem compatible_iff_filter :
    SelectedField.Compatible fields ↔
      ∀ name, SelectedField.Compatible
        (fields.filter (fun field => field.responseName = name)) := by
  constructor
  · intro compatible name first isFirst second isSecond same
    exact compatible first (List.mem_filter.mp isFirst).1 second (List.mem_filter.mp isSecond).1
      same
  · intro compatible first isFirst second isSecond same
    refine compatible second.responseName first (List.mem_filter.mpr ⟨isFirst, ?_⟩) second
      (List.mem_filter.mpr ⟨isSecond, ?_⟩) same
    · simpa using same
    · simp

end Occurrences

/-- Meeting fields succeeds when they are compatible, and gives their groups. -/
theorem OccurrenceGroups.meetAll_empty_eq_ok_iff {fields : List SelectedField}
    {grouped : List Occurrences} :
    (∃ groups, meetAll OrderedMap.empty fields = .ok groups ∧ groups.values = grouped) ↔
      SelectedField.Compatible fields ∧ Occurrences.groups fields = grouped := by
  have atName : ∀ name result,
      OrderedMap.changeAll (fun field => (Occurrences.single field).meetAt)
          (fields.filter (fun field => field.responseName = name)) none = .ok result ↔
        SelectedField.Compatible (fields.filter (fun field => field.responseName = name)) ∧
          Occurrences.ofList? (fields.filter (fun field => field.responseName = name)) =
            result := by
    intro name result
    refine Occurrences.changeAll_meetAt fun first isFirst second isSecond => ?_
    simp only [List.mem_filter, decide_eq_true_eq] at isFirst isSecond
    exact isFirst.2.trans isSecond.2.symm
  constructor
  · rintro ⟨groups, met, rfl⟩
    refine ⟨Occurrences.compatible_iff_filter.mpr fun name => ?_, ?_⟩
    · exact ((atName name _).mp (OrderedMap.get?_of_updates met name)).1
    · refine (OrderedMap.values_of_updates met fun name result changed => ?_).symm
      exact ((atName name result).mp changed).2.symm
  · rintro ⟨compatible, rfl⟩
    obtain ⟨groups, met⟩ := OrderedMap.exists_updates SelectedField.responseName
      (fun field => (Occurrences.single field).meetAt) OrderedMap.empty fields
      fun name => ⟨_, (atName name _).mpr
        ⟨Occurrences.compatible_iff_filter.mp compatible name, rfl⟩⟩
    refine ⟨groups, met, OrderedMap.values_of_updates met fun name result changed => ?_⟩
    exact ((atName name result).mp changed).2.symm

theorem OccurrenceGroups.meetAll_append (groups : OccurrenceGroups)
    (first second : List SelectedField) :
    groups.meetAll (first ++ second) =
      groups.meetAll first >>= fun met => meetAll met second :=
  List.foldlM_append

/-! ## Variants -/

namespace Variant

/-- The fields of the variants of one type name. -/
def fieldsOf {φ : Type} (variants : List (Variant φ)) (typeName : String) : List φ :=
  (variants.filter (fun variant => variant.typeName = typeName)).flatMap Variant.fields

/-- The fields of the variants of each type name can be put together. -/
def Compatible (variants : List (Variant SelectedField)) : Prop :=
  ∀ typeName, SelectedField.Compatible (fieldsOf variants typeName)

/-- One variant for each type name, with the groups of the fields of all variants of the name. -/
def joined (variants : List (Variant SelectedField)) : List (Variant Occurrences) :=
  (OrderedSet.ofList (variants.map Variant.typeName)).map
    (fun typeName => ⟨typeName, Occurrences.groups (fieldsOf variants typeName)⟩)

theorem mem_fieldsOf {φ : Type} {variants : List (Variant φ)} {typeName : String} {field : φ} :
    field ∈ fieldsOf variants typeName ↔
      ∃ variant ∈ variants, variant.typeName = typeName ∧ field ∈ variant.fields := by
  simp [fieldsOf, and_assoc]

/-- **Every field of a variant is covered under the variant's type name.** -/
theorem exists_joined {variants : List (Variant SelectedField)}
    {variant : Variant SelectedField} (member : variant ∈ variants) :
    ∃ whole ∈ joined variants, whole.typeName = variant.typeName ∧
      whole.fields = Occurrences.groups (fieldsOf variants variant.typeName) := by
  refine ⟨_, List.mem_map.mpr ⟨variant.typeName, ?_, rfl⟩, rfl, rfl⟩
  rw [OrderedSet.mem_ofList, List.mem_map]
  exact ⟨variant, member, rfl⟩

theorem fields_of_mem_joined {variants : List (Variant SelectedField)}
    {whole : Variant Occurrences} (member : whole ∈ joined variants) :
    whole.fields = Occurrences.groups (fieldsOf variants whole.typeName) := by
  obtain ⟨typeName, _, rfl⟩ := List.mem_map.mp member
  rfl

theorem map_typeName_joined (variants : List (Variant SelectedField)) :
    (joined variants).map Variant.typeName =
      OrderedSet.ofList (variants.map Variant.typeName) := by
  rw [joined, List.map_map]
  exact List.map_id _

end Variant

namespace Environment

/-- The change that a variant makes to the groups of its type name. -/
def variantChange (variant : Variant SelectedField) (present : Option OccurrenceGroups) :
    Outcome OccurrenceGroups :=
  (present.getD OrderedMap.empty).meetAll variant.fields

theorem changeAll_variantChange_some {variants : List (Variant SelectedField)}
    {groups : OccurrenceGroups} {result : Option OccurrenceGroups} :
    OrderedMap.changeAll variantChange variants (some groups) = .ok result ↔
      ∃ met, groups.meetAll (variants.flatMap Variant.fields) = .ok met ∧ some met = result := by
  induction variants generalizing groups with
  | nil => simp [OccurrenceGroups.meetAll, pure, Except.pure]
  | cons variant rest ih =>
      rw [List.flatMap_cons, OccurrenceGroups.meetAll_append]
      simp only [bind_eq_ok_iff]
      constructor
      · intro changed
        obtain ⟨next, met, later⟩ := OrderedMap.changeAll_cons_eq_ok changed
        obtain ⟨last, metRest, same⟩ := ih.mp later
        exact ⟨last, ⟨next, met, metRest⟩, same⟩
      · rintro ⟨last, ⟨next, met, metRest⟩, same⟩
        have changed : variantChange variant (some groups) = .ok next := met
        rw [OrderedMap.changeAll_cons_of_ok variantChange changed]
        exact ih.mpr ⟨last, metRest, same⟩

theorem changeAll_variantChange {variant : Variant SelectedField}
    {rest : List (Variant SelectedField)} {result : Option OccurrenceGroups} :
    OrderedMap.changeAll variantChange (variant :: rest) none = .ok result ↔
      ∃ met, OccurrenceGroups.meetAll OrderedMap.empty
        ((variant :: rest).flatMap Variant.fields) = .ok met ∧ some met = result := by
  refine Iff.trans (Iff.of_eq ?_) changeAll_variantChange_some
  rw [OrderedMap.changeAll, OrderedMap.changeAll, List.foldlM_cons, List.foldlM_cons]
  rfl

theorem exists_variant_of_mem {variants : List (Variant SelectedField)} {typeName : String}
    (member : typeName ∈ variants.map Variant.typeName) :
    ∃ first rest, variants.filter (fun variant => variant.typeName = typeName) =
      first :: rest := by
  obtain ⟨variant, isVariant, named⟩ := List.mem_map.mp member
  have here : variant ∈ variants.filter (fun variant => variant.typeName = typeName) :=
    List.mem_filter.mpr ⟨isVariant, by simpa using named⟩
  cases alike : variants.filter (fun variant => variant.typeName = typeName) with
  | nil => simp [alike] at here
  | cons first rest => exact ⟨first, rest, rfl⟩

theorem filter_variants_eq_nil {variants : List (Variant SelectedField)} {typeName : String}
    (absent : typeName ∉ variants.map Variant.typeName) :
    variants.filter (fun variant => variant.typeName = typeName) = [] := by
  refine List.filter_eq_nil_iff.mpr fun variant isVariant named => absent ?_
  exact List.mem_map.mpr ⟨variant, isVariant, of_decide_eq_true named⟩

/-- What stands at a type name after variants were met. -/
theorem get?_of_meetVariants {variants : List (Variant SelectedField)} {groups : VariantGroups}
    (met : variants.foldlM meetVariant (OrderedMap.empty : VariantGroups) = .ok groups)
    {typeName : String} (member : typeName ∈ variants.map Variant.typeName) :
    ∃ found, OccurrenceGroups.meetAll OrderedMap.empty (Variant.fieldsOf variants typeName) =
      .ok found ∧ groups.get? typeName = some found := by
  have updated : OrderedMap.updateAll Variant.typeName variantChange OrderedMap.empty variants =
    .ok groups := met
  have changed := OrderedMap.get?_of_updates updated typeName
  obtain ⟨first, rest, alike⟩ := exists_variant_of_mem member
  rw [alike] at changed
  obtain ⟨found, metAll, same⟩ := changeAll_variantChange.mp changed
  rw [Variant.fieldsOf, alike]
  exact ⟨found, metAll, same.symm⟩

theorem joined_of_meetVariants {variants : List (Variant SelectedField)}
    {groups : VariantGroups}
    (met : variants.foldlM meetVariant (OrderedMap.empty : VariantGroups) = .ok groups) :
    Variant.Compatible variants ∧
      Variant.joined variants = groups.entries.map (fun entry => ⟨entry.1, entry.2.values⟩) := by
  have updated : OrderedMap.updateAll Variant.typeName variantChange OrderedMap.empty variants =
    .ok groups := met
  have keys : groups.keys = OrderedSet.ofList (variants.map Variant.typeName) :=
    OrderedMap.keys_of_updates updated
  constructor
  · intro typeName
    by_cases member : typeName ∈ variants.map Variant.typeName
    · obtain ⟨found, metAll, _⟩ := get?_of_meetVariants met member
      exact (OccurrenceGroups.meetAll_empty_eq_ok_iff.mp ⟨found, metAll, rfl⟩).1
    · rw [Variant.fieldsOf, filter_variants_eq_nil member]
      intro first isFirst
      cases isFirst
  · have distinct : groups.keys.Nodup := keys ▸ OrderedSet.nodup_ofList _
    rw [OrderedMap.entries_eq_filterMap distinct, List.map_filterMap, keys, Variant.joined,
      ← List.filterMap_eq_map]
    refine List.filterMap_congr fun typeName member => ?_
    rw [OrderedSet.mem_ofList] at member
    obtain ⟨found, metAll, atName⟩ := get?_of_meetVariants met member
    obtain ⟨_, same⟩ := OccurrenceGroups.meetAll_empty_eq_ok_iff.mp ⟨found, metAll, rfl⟩
    rw [Function.comp_apply, atName, same]
    rfl

/-- Meeting variants succeeds when their fields are compatible, and joins them. -/
theorem meetVariants_eq_ok_iff {variants : List (Variant SelectedField)}
    {whole : List (Variant Occurrences)} :
    (∃ groups, variants.foldlM meetVariant (OrderedMap.empty : VariantGroups) = .ok groups ∧
        groups.entries.map (fun entry => ⟨entry.1, entry.2.values⟩) = whole) ↔
      Variant.Compatible variants ∧ Variant.joined variants = whole := by
  constructor
  · rintro ⟨groups, met, rfl⟩
    exact joined_of_meetVariants met
  · rintro ⟨compatible, rfl⟩
    have each : ∀ typeName, ∃ result, OrderedMap.changeAll variantChange
        (variants.filter (fun variant => variant.typeName = typeName)) none = .ok result := by
      intro typeName
      by_cases member : typeName ∈ variants.map Variant.typeName
      · obtain ⟨found, metAll, _⟩ :=
          OccurrenceGroups.meetAll_empty_eq_ok_iff.mpr ⟨compatible typeName, rfl⟩
        obtain ⟨first, rest, alike⟩ := exists_variant_of_mem member
        rw [Variant.fieldsOf, alike] at metAll
        exact ⟨some found, alike ▸ changeAll_variantChange.mpr ⟨found, metAll, rfl⟩⟩
      · exact ⟨none, filter_variants_eq_nil member ▸ rfl⟩
    obtain ⟨groups, met⟩ := OrderedMap.exists_updates Variant.typeName variantChange
      OrderedMap.empty variants each
    exact ⟨groups, met, (joined_of_meetVariants met).2.symm⟩

/-! ## Selections of a task -/

variable {environment : Environment} {type : TypeDefinition} {task : Task}

/-- **A task selects what its occurrences select, joined by object type and response name.** -/
theorem collectVariants_eq_ok_iff {whole : List (Variant Occurrences)} :
    environment.collectVariants type task = .ok whole ↔
      ∃ found, List.Forall₂
          (fun occurrence variants =>
            environment.collect type occurrence.node.items task.path = .ok variants)
          task.occurrences.toList found ∧
        Variant.Compatible found.flatten ∧ Variant.joined found.flatten = whole := by
  simp only [← meetVariants_eq_ok_iff, foldlM_flatten]
  rw [collectVariants, bind_eq_ok_iff]
  simp only [foldlM_bind_eq_ok_iff]
  constructor
  · rintro ⟨groups, ⟨found, collected, met⟩, same⟩
    exact ⟨found, collected, groups, met, Except.ok.inj same⟩
  · rintro ⟨found, collected, groups, met, same⟩
    exact ⟨groups, ⟨found, collected, met⟩, same ▸ rfl⟩

/-- **What a task selects on the type itself is what its occurrences select there, joined.** -/
theorem collectShared_eq_ok_iff {shared : List Occurrences} :
    environment.collectShared type task = .ok shared ↔
      ∃ found, List.Forall₂
          (fun occurrence fields =>
            environment.collectOn type occurrence.node.items task.path = .ok fields)
          task.occurrences.toList found ∧
        SelectedField.Compatible found.flatten ∧ Occurrences.groups found.flatten = shared := by
  simp only [← OccurrenceGroups.meetAll_empty_eq_ok_iff, OccurrenceGroups.meetAll, foldlM_flatten]
  rw [collectShared, bind_eq_ok_iff]
  simp only [OccurrenceGroups.meetAll, foldlM_bind_eq_ok_iff]
  constructor
  · rintro ⟨groups, ⟨found, collected, met⟩, same⟩
    exact ⟨found, collected, groups, met, Except.ok.inj same⟩
  · rintro ⟨found, collected, groups, met, same⟩
    exact ⟨groups, ⟨found, collected, met⟩, same ▸ rfl⟩

end Environment

end ResponseShape

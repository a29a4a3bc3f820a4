import ResponseShape.Proofs.WellTyped

/-!
# The written forms of types

A model tells the type of a field in its written form only: brackets around the items of a list,
and an exclamation mark behind a type that is not null. Both kinds of marks close behind the name.
So a written type is read back from left to right: it starts as the name, which is what is left of
the text without the marks, and every closing mark puts a list or a non-null type around it
(`TypeRef.ofWritten`).

This gives the type back if its name has no marks (`TypeRef.ofWritten_render`), so that different
types are written differently, and a model has the whole type that its field was declared with
(`OutputFieldModel.DeclaredBy.ofWritten_fieldType`). All this is put together for types in
`TypeRef.render_laws`.
-/

set_option autoImplicit false

namespace ResponseShape

namespace TypeRef

/-- The characters that are written around the name of a type. -/
def isMark (character : Char) : Bool :=
  character == '[' || character == ']' || character == '!'

/-- There are no marks in the name of the type. -/
def Unmarked (type : TypeRef) : Prop :=
  ∀ character ∈ type.namedType.toList, isMark character = false

instance (type : TypeRef) : Decidable type.Unmarked :=
  List.decidableBAll (fun character => isMark character = false) type.namedType.toList

/-- The text with all marks deleted. -/
def withoutMarks (text : String) : String :=
  String.ofList (text.toList.filter (fun character => !isMark character))

/-- The type that is written with one more character behind the type. -/
def close (type : TypeRef) (character : Char) : TypeRef :=
  if character = ']' then list type else if character = '!' then nonNull type else type

/-- The type that a text writes. -/
def ofWritten (text : String) : TypeRef :=
  text.toList.foldl close (named (withoutMarks text))

/-- The name stands in the written form between opening and closing marks. -/
theorem exists_marks_of_render (type : TypeRef) :
    ∃ opening closing : List Char,
      type.render.toList = opening ++ type.namedType.toList ++ closing ∧
        (∀ character ∈ opening, isMark character = true) ∧
        ∀ character ∈ closing, isMark character = true := by
  induction type with
  | named name => exact ⟨[], [], by simp [render, namedType], by simp, by simp⟩
  | list item ih =>
      obtain ⟨opening, closing, written, opens, closes⟩ := ih
      refine ⟨'[' :: opening, closing ++ [']'], ?_, List.forall_mem_cons.mpr ⟨rfl, opens⟩,
        List.forall_mem_append.mpr ⟨closes, List.forall_mem_singleton.mpr rfl⟩⟩
      simp [render, namedType, written]
  | nonNull inner ih =>
      obtain ⟨opening, closing, written, opens, closes⟩ := ih
      refine ⟨opening, closing ++ ['!'], ?_, opens,
        List.forall_mem_append.mpr ⟨closes, List.forall_mem_singleton.mpr rfl⟩⟩
      simp [render, namedType, written]

variable {type other : TypeRef}

/-- **What is left of a written type without its marks is its name.** -/
theorem withoutMarks_render (unmarked : type.Unmarked) :
    withoutMarks type.render = type.namedType := by
  obtain ⟨opening, closing, written, opens, closes⟩ := exists_marks_of_render type
  have deleted : ∀ marks : List Char, (∀ character ∈ marks, isMark character = true) →
      marks.filter (fun character => !isMark character) = [] := by
    intro marks all
    exact List.filter_eq_nil_iff.mpr (by simpa using all)
  have kept : type.namedType.toList.filter (fun character => !isMark character) =
      type.namedType.toList :=
    List.filter_eq_self.mpr (by simpa [Unmarked] using unmarked)
  rw [withoutMarks, written, List.filter_append, List.filter_append, deleted opening opens,
    deleted closing closes, kept, List.nil_append, List.append_nil, String.ofList_toList]

/-- Characters that are no marks leave a type as it is. -/
theorem foldl_close_of_unmarked {characters : List Char}
    (unmarked : ∀ character ∈ characters, isMark character = false) (type : TypeRef) :
    characters.foldl close type = type := by
  induction characters with
  | nil => rfl
  | cons character rest ih =>
      obtain ⟨plain, others⟩ := List.forall_mem_cons.mp unmarked
      have same : type.close character = type := by
        simp only [isMark, Bool.or_eq_false_iff, beq_eq_false_iff_ne] at plain
        rw [close, if_neg plain.1.2, if_neg plain.2]
      rw [List.foldl_cons, same, ih others]

/-- Reading the written form of a type puts around its name what the type has around it. -/
theorem foldl_close_render (unmarked : type.Unmarked) :
    type.render.toList.foldl close (named type.namedType) = type := by
  induction type with
  | named name => exact foldl_close_of_unmarked unmarked _
  | list item ih =>
      have written : (list item).render.toList = '[' :: (item.render.toList ++ [']']) := by
        simp [render]
      have opened : (named item.namedType).close '[' = named item.namedType := rfl
      rw [written, namedType, List.foldl_cons, opened, List.foldl_append, ih unmarked]
      rfl
  | nonNull inner ih =>
      rw [render, String.toList_append, List.foldl_append, namedType, ih unmarked]
      rfl

/-- **A type is read back from its written form.** -/
theorem ofWritten_render (unmarked : type.Unmarked) : ofWritten type.render = type := by
  rw [ofWritten, withoutMarks_render unmarked, foldl_close_render unmarked]

/-- Different types are written differently. -/
theorem render_inj (unmarked : type.Unmarked) (unmarked' : other.Unmarked)
    (same : type.render = other.render) : type = other := by
  rw [← ofWritten_render unmarked, same, ofWritten_render unmarked']

end TypeRef

/-- **A model has the whole type that its field is declared with**, although it has it only in its
written form. -/
theorem OutputFieldModel.DeclaredBy.ofWritten_fieldType {field : OutputFieldModel}
    {type : TypeDefinition} {path : Path} (declared : field.DeclaredBy type path)
    {declaration : FieldDefinition} (found : type.field? field.fieldName = some declaration)
    (unmarked : declaration.type.Unmarked) :
    TypeRef.ofWritten field.fieldType = declaration.type := by
  obtain ⟨_, found', _, written⟩ := declared.declared
  obtain rfl := Option.some.inj (found.symm.trans found')
  rw [written, TypeRef.ofWritten_render unmarked]

namespace TypeRef

/-- **What a written type tells.** Types whose names have no marks are equal if they are written
alike. The written form of such a type has the name of the type in it, as that which is left when
all marks are deleted. -/
theorem render_laws :
    (∀ type other : TypeRef, type.Unmarked → other.Unmarked →
      type.render = other.render → type = other) ∧
    ∀ type : TypeRef, type.Unmarked →
      type.namedType.toList <:+: type.render.toList ∧
        withoutMarks type.render = type.namedType := by
  refine ⟨fun type other => render_inj, fun type unmarked => ⟨?_, withoutMarks_render unmarked⟩⟩
  obtain ⟨opening, closing, written, _⟩ := exists_marks_of_render type
  exact ⟨opening, closing, written.symm⟩

/-- A list of numbers that are not null is not written like a list that is not null. -/
theorem render_laws_of_numbers :
    (list (nonNull (named "Int"))).Unmarked ∧ (nonNull (list (named "Int"))).Unmarked ∧
      (list (nonNull (named "Int"))).render ≠ (nonNull (list (named "Int"))).render ∧
      withoutMarks (list (nonNull (named "Int"))).render = "Int" := by
  have inside : (list (nonNull (named "Int"))).Unmarked := by decide +kernel
  have outside : (nonNull (list (named "Int"))).Unmarked := by decide +kernel
  refine ⟨inside, outside, fun same => ?_, (render_laws.2 _ inside).2⟩
  have equal := render_laws.1 _ _ inside outside same
  cases equal

end TypeRef

end ResponseShape

import Mathlib.Data.List.Forall2
import ResponseShape.Syntax.Selection

/-!
# Equality of what is written

Nodes are compared as the program compares them. The comparison is not equality of the data: the
two zeros are equal, and a float that is no number equals nothing, not even itself. It is
symmetric and transitive all the same (`FieldNode.equals_symm`, `FieldNode.equals_trans`), so it
is an equivalence on the nodes that equal themselves.

Equal nodes cannot be told apart by a walk: their directives exclude alike
(`isExcluded_of_equals`), and their arguments agree with the same arguments
(`Argument.agree_of_equals_left`).
-/

set_option autoImplicit false

namespace ResponseShape

/-! ## Numbers -/

theorem Binary64.equals_symm {left right : Binary64} (same : left.equals right = true) :
    right.equals left = true := by
  simp only [equals, Bool.and_eq_true, Bool.or_eq_true, beq_iff_eq] at same ⊢
  obtain ⟨⟨leftNumber, rightNumber⟩, bits | ⟨leftZero, rightZero⟩⟩ := same
  · exact ⟨⟨rightNumber, leftNumber⟩, .inl bits.symm⟩
  · exact ⟨⟨rightNumber, leftNumber⟩, .inr ⟨rightZero, leftZero⟩⟩

theorem Binary64.equals_trans {first second third : Binary64}
    (earlier : first.equals second = true) (later : second.equals third = true) :
    first.equals third = true := by
  obtain ⟨firstBits⟩ := first
  obtain ⟨secondBits⟩ := second
  obtain ⟨thirdBits⟩ := third
  simp only [equals, Bool.and_eq_true, Bool.or_eq_true, beq_iff_eq] at earlier later ⊢
  obtain ⟨⟨firstNumber, _⟩, bits | ⟨firstZero, secondZero⟩⟩ := earlier
  · subst bits
    exact later
  · obtain ⟨⟨_, thirdNumber⟩, bits | ⟨_, thirdZero⟩⟩ := later
    · subst bits
      exact ⟨⟨firstNumber, thirdNumber⟩, .inr ⟨firstZero, secondZero⟩⟩
    · exact ⟨⟨firstNumber, thirdNumber⟩, .inr ⟨firstZero, thirdZero⟩⟩

/-! ## Values -/

mutual

theorem Value.equals_symm : ∀ {left right : Value},
    left.equals right = true → right.equals left = true
  | .null, right, same => by cases right <;> simp_all [Value.equals]
  | .variable _, right, same => by cases right <;> simp_all [Value.equals]
  | .int _, right, same => by cases right <;> simp_all [Value.equals]
  | .float _, right, same => by
      cases right <;> simp only [Value.equals, Bool.false_eq_true] at same ⊢
      exact Binary64.equals_symm same
  | .string _, right, same => by cases right <;> simp_all [Value.equals]
  | .boolean _, right, same => by cases right <;> simp_all [Value.equals]
  | .enum _, right, same => by cases right <;> simp_all [Value.equals]
  | .list _, right, same => by
      cases right <;> simp only [Value.equals, Bool.false_eq_true] at same ⊢
      exact Value.itemsEqual_symm same
  | .object _, right, same => by
      cases right <;> simp only [Value.equals, Bool.false_eq_true] at same ⊢
      exact Value.fieldsEqual_symm same

theorem Value.itemsEqual_symm : ∀ {left right : List Value},
    Value.itemsEqual left right = true → Value.itemsEqual right left = true
  | [], [], _ => rfl
  | [], _ :: _, same => by simp [Value.itemsEqual] at same
  | _ :: _, [], same => by simp [Value.itemsEqual] at same
  | _ :: _, _ :: _, same => by
      simp only [Value.itemsEqual, Bool.and_eq_true] at same ⊢
      exact ⟨Value.equals_symm same.1, Value.itemsEqual_symm same.2⟩

theorem Value.fieldsEqual_symm : ∀ {left right : List (String × Value)},
    Value.fieldsEqual left right = true → Value.fieldsEqual right left = true
  | [], [], _ => rfl
  | [], _ :: _, same => by simp [Value.fieldsEqual] at same
  | _ :: _, [], same => by simp [Value.fieldsEqual] at same
  | (_, _) :: _, (_, _) :: _, same => by
      simp only [Value.fieldsEqual, Bool.and_eq_true, beq_iff_eq] at same ⊢
      exact ⟨⟨same.1.1.symm, Value.equals_symm same.1.2⟩, Value.fieldsEqual_symm same.2⟩

end

mutual

theorem Value.equals_trans : ∀ {first second third : Value},
    first.equals second = true → second.equals third = true → first.equals third = true
  | .null, second, third, earlier, later => by
      cases second <;> cases third <;> simp_all [Value.equals]
  | .variable _, second, third, earlier, later => by
      cases second <;> cases third <;> simp_all [Value.equals]
  | .int _, second, third, earlier, later => by
      cases second <;> cases third <;> simp_all [Value.equals]
  | .float _, second, third, earlier, later => by
      cases second <;> simp only [Value.equals, Bool.false_eq_true] at earlier
      cases third <;> simp only [Value.equals, Bool.false_eq_true] at later ⊢
      exact Binary64.equals_trans earlier later
  | .string _, second, third, earlier, later => by
      cases second <;> cases third <;> simp_all [Value.equals]
  | .boolean _, second, third, earlier, later => by
      cases second <;> cases third <;> simp_all [Value.equals]
  | .enum _, second, third, earlier, later => by
      cases second <;> cases third <;> simp_all [Value.equals]
  | .list _, second, third, earlier, later => by
      cases second <;> simp only [Value.equals, Bool.false_eq_true] at earlier
      cases third <;> simp only [Value.equals, Bool.false_eq_true] at later ⊢
      exact Value.itemsEqual_trans earlier later
  | .object _, second, third, earlier, later => by
      cases second <;> simp only [Value.equals, Bool.false_eq_true] at earlier
      cases third <;> simp only [Value.equals, Bool.false_eq_true] at later ⊢
      exact Value.fieldsEqual_trans earlier later

theorem Value.itemsEqual_trans : ∀ {first second third : List Value},
    Value.itemsEqual first second = true → Value.itemsEqual second third = true →
      Value.itemsEqual first third = true
  | [], [], _, _, later => later
  | [], _ :: _, _, earlier, _ => by simp [Value.itemsEqual] at earlier
  | _ :: _, [], _, earlier, _ => by simp [Value.itemsEqual] at earlier
  | _ :: _, _ :: _, [], _, later => by simp [Value.itemsEqual] at later
  | _ :: _, _ :: _, _ :: _, earlier, later => by
      simp only [Value.itemsEqual, Bool.and_eq_true] at earlier later ⊢
      exact ⟨Value.equals_trans earlier.1 later.1, Value.itemsEqual_trans earlier.2 later.2⟩

theorem Value.fieldsEqual_trans : ∀ {first second third : List (String × Value)},
    Value.fieldsEqual first second = true → Value.fieldsEqual second third = true →
      Value.fieldsEqual first third = true
  | [], [], _, _, later => later
  | [], _ :: _, _, earlier, _ => by simp [Value.fieldsEqual] at earlier
  | _ :: _, [], _, earlier, _ => by simp [Value.fieldsEqual] at earlier
  | _ :: _, _ :: _, [], _, later => by simp [Value.fieldsEqual] at later
  | (_, _) :: _, (_, _) :: _, (_, _) :: _, earlier, later => by
      simp only [Value.fieldsEqual, Bool.and_eq_true, beq_iff_eq] at earlier later ⊢
      exact ⟨⟨earlier.1.1.trans later.1.1, Value.equals_trans earlier.1.2 later.1.2⟩,
        Value.fieldsEqual_trans earlier.2 later.2⟩

end

/-- Equal values are the same truth value, if they are literal truth values at all. -/
theorem Value.literalBool?_of_equals {left right : Value} (same : left.equals right = true) :
    left.literalBool? = right.literalBool? := by
  cases left <;> cases right <;> simp_all [Value.equals, Value.literalBool?]

/-! ## Arguments -/

namespace Argument

theorem equals_symm {left right : Argument} (same : left.equals right = true) :
    right.equals left = true := by
  simp only [equals, Bool.and_eq_true, beq_iff_eq] at same ⊢
  exact ⟨same.1.symm, Value.equals_symm same.2⟩

theorem equals_trans {first second third : Argument} (earlier : first.equals second = true)
    (later : second.equals third = true) : first.equals third = true := by
  simp only [equals, Bool.and_eq_true, beq_iff_eq] at earlier later ⊢
  exact ⟨earlier.1.trans later.1, Value.equals_trans earlier.2 later.2⟩

theorem listEquals_iff {left right : List Argument} :
    listEquals left right = true ↔
      List.Forall₂ (fun first second => first.equals second = true) left right := by
  induction left generalizing right with
  | nil => cases right <;> simp [listEquals]
  | cons first rest ih => cases right <;> simp [listEquals, ih]

theorem listEquals_symm {left right : List Argument} (same : listEquals left right = true) :
    listEquals right left = true :=
  listEquals_iff.mpr ((listEquals_iff.mp same).flip.imp fun _ _ => equals_symm)

theorem listEquals_trans {first second third : List Argument}
    (earlier : listEquals first second = true) (later : listEquals second third = true) :
    listEquals first third = true := by
  induction first generalizing second third with
  | nil => cases second <;> simp_all [listEquals]
  | cons head tail ih =>
      cases second with
      | nil => simp [listEquals] at earlier
      | cons middle between =>
          cases third with
          | nil => simp [listEquals] at later
          | cons last rest =>
              simp only [listEquals, Bool.and_eq_true] at earlier later ⊢
              exact ⟨equals_trans earlier.1 later.1, ih earlier.2 later.2⟩

theorem exists_equals_of_mem {left right : List Argument} (same : listEquals left right = true)
    {argument : Argument} (member : argument ∈ left) :
    ∃ other ∈ right, argument.equals other = true := by
  rw [listEquals_iff] at same
  induction same with
  | nil => cases member
  | cons head _ ih =>
      rcases List.mem_cons.mp member with rfl | later
      · exact ⟨_, List.mem_cons_self, head⟩
      · obtain ⟨other, isMember, matching⟩ := ih later
        exact ⟨other, List.mem_cons_of_mem _ isMember, matching⟩

/-- A list agrees with what an equal list agrees with. -/
theorem agree_of_equals_left {left left' right : List Argument}
    (same : listEquals left left' = true) (agreed : agree left right = true) :
    agree left' right = true := by
  have length := (listEquals_iff.mp same).length_eq
  simp only [agree, Bool.and_eq_true, beq_iff_eq, List.all_eq_true, List.any_eq_true]
    at agreed ⊢
  refine ⟨by omega, fun argument member => ?_⟩
  obtain ⟨before, isLeft, toBefore⟩ := exists_equals_of_mem (listEquals_symm same) member
  obtain ⟨found, isRight, toFound⟩ := agreed.2 before isLeft
  exact ⟨found, isRight, equals_trans toBefore toFound⟩

/-- What agrees with a list agrees with an equal list. -/
theorem agree_of_equals_right {left right right' : List Argument}
    (same : listEquals right right' = true) (agreed : agree left right = true) :
    agree left right' = true := by
  have length := (listEquals_iff.mp same).length_eq
  simp only [agree, Bool.and_eq_true, beq_iff_eq, List.all_eq_true, List.any_eq_true]
    at agreed ⊢
  refine ⟨by omega, fun argument member => ?_⟩
  obtain ⟨found, isRight, toFound⟩ := agreed.2 argument member
  obtain ⟨after, isAfter, toAfter⟩ := exists_equals_of_mem same isRight
  exact ⟨after, isAfter, equals_trans toFound toAfter⟩

end Argument

/-! ## Directives -/

namespace Directive

theorem equals_symm {left right : Directive} (same : left.equals right = true) :
    right.equals left = true := by
  simp only [equals, Bool.and_eq_true, beq_iff_eq] at same ⊢
  exact ⟨⟨same.1.1.symm, Argument.listEquals_symm same.1.2⟩, same.2.symm⟩

theorem equals_trans {first second third : Directive} (earlier : first.equals second = true)
    (later : second.equals third = true) : first.equals third = true := by
  simp only [equals, Bool.and_eq_true, beq_iff_eq] at earlier later ⊢
  exact ⟨⟨earlier.1.1.trans later.1.1, Argument.listEquals_trans earlier.1.2 later.1.2⟩,
    earlier.2.trans later.2⟩

theorem listEquals_symm : ∀ {left right : List Directive},
    listEquals left right = true → listEquals right left = true
  | [], [], _ => rfl
  | [], _ :: _, same => by simp [listEquals] at same
  | _ :: _, [], same => by simp [listEquals] at same
  | _ :: _, _ :: _, same => by
      simp only [listEquals, Bool.and_eq_true] at same ⊢
      exact ⟨equals_symm same.1, listEquals_symm same.2⟩

theorem listEquals_trans : ∀ {first second third : List Directive},
    listEquals first second = true → listEquals second third = true →
      listEquals first third = true
  | [], [], _, _, later => later
  | [], _ :: _, _, earlier, _ => by simp [listEquals] at earlier
  | _ :: _, [], _, earlier, _ => by simp [listEquals] at earlier
  | _ :: _, _ :: _, [], _, later => by simp [listEquals] at later
  | _ :: _, _ :: _, _ :: _, earlier, later => by
      simp only [listEquals, Bool.and_eq_true] at earlier later ⊢
      exact ⟨equals_trans earlier.1 later.1, listEquals_trans earlier.2 later.2⟩

theorem literalCondition?_of_equals {left right : Directive}
    (same : left.equals right = true) :
    left.literalCondition? = right.literalCondition? := by
  simp only [equals, Bool.and_eq_true] at same
  have arguments := Argument.listEquals_iff.mp same.1.2
  simp only [literalCondition?]
  generalize left.arguments = before at arguments ⊢
  generalize right.arguments = after at arguments ⊢
  induction arguments with
  | nil => rfl
  | @cons first second _ _ head _ ih =>
      simp only [Argument.equals, Bool.and_eq_true, beq_iff_eq] at head
      rw [List.find?_cons, List.find?_cons, head.1]
      cases second.name == "if" with
      | true => exact Value.literalBool?_of_equals head.2
      | false => exact ih

theorem excludes_of_equals {left right : Directive} (same : left.equals right = true) :
    left.excludes = right.excludes := by
  have condition := literalCondition?_of_equals same
  simp only [equals, Bool.and_eq_true, beq_iff_eq] at same
  rw [excludes, excludes, condition, same.1.1]

end Directive

/-- **Equal directives exclude alike.** -/
theorem isExcluded_of_equals {left right : List Directive}
    (same : Directive.listEquals left right = true) : isExcluded left = isExcluded right := by
  induction left generalizing right with
  | nil => cases right <;> simp_all [Directive.listEquals]
  | cons first rest ih =>
      cases right with
      | nil => simp [Directive.listEquals] at same
      | cons second others =>
          simp only [Directive.listEquals, Bool.and_eq_true] at same
          have tails := ih same.2
          simp only [isExcluded, List.any_cons] at tails ⊢
          rw [Directive.excludes_of_equals same.1, tails]

/-! ## Selections and nodes -/

theorem FieldHead.equals_symm {left right : FieldHead} (same : left.equals right = true) :
    right.equals left = true := by
  simp only [equals, Bool.and_eq_true, beq_iff_eq] at same ⊢
  obtain ⟨⟨⟨⟨renamed, named⟩, arguments⟩, directives⟩, placed⟩ := same
  exact ⟨⟨⟨⟨renamed.symm, named.symm⟩, Argument.listEquals_symm arguments⟩,
    Directive.listEquals_symm directives⟩, placed.symm⟩

theorem FieldHead.equals_trans {first second third : FieldHead}
    (earlier : first.equals second = true) (later : second.equals third = true) :
    first.equals third = true := by
  simp only [equals, Bool.and_eq_true, beq_iff_eq] at earlier later ⊢
  obtain ⟨⟨⟨⟨renamed, named⟩, arguments⟩, directives⟩, placed⟩ := earlier
  obtain ⟨⟨⟨⟨renamed', named'⟩, arguments'⟩, directives'⟩, placed'⟩ := later
  exact ⟨⟨⟨⟨renamed.trans renamed', named.trans named'⟩,
    Argument.listEquals_trans arguments arguments'⟩,
    Directive.listEquals_trans directives directives'⟩, placed.trans placed'⟩

/-- Equal heads have one response name. -/
theorem FieldHead.responseName_of_equals {left right : FieldHead}
    (same : left.equals right = true) : left.responseName = right.responseName := by
  simp only [equals, Bool.and_eq_true, beq_iff_eq] at same
  rw [responseName, responseName, same.1.1.1.1, same.1.1.1.2]

namespace Selection

mutual

theorem equals_symm : ∀ {left right : Selection},
    left.equals right = true → right.equals left = true
  | .field _ _ _, right, same => by
      cases right <;> simp only [equals, Bool.and_eq_true, beq_iff_eq, Bool.false_eq_true]
        at same ⊢
      exact ⟨⟨FieldHead.equals_symm same.1.1, same.1.2.symm⟩, listEquals_symm same.2⟩
  | .spread _ _ _, right, same => by
      cases right <;> simp only [equals, Bool.and_eq_true, beq_iff_eq, Bool.false_eq_true]
        at same ⊢
      exact ⟨⟨same.1.1.symm, Directive.listEquals_symm same.1.2⟩, same.2.symm⟩
  | .inline _ _ _ _ _, right, same => by
      cases right <;> simp only [equals, Bool.and_eq_true, beq_iff_eq, Bool.false_eq_true]
        at same ⊢
      obtain ⟨⟨⟨⟨condition, directives⟩, placed⟩, spanned⟩, items⟩ := same
      exact ⟨⟨⟨⟨condition.symm, Directive.listEquals_symm directives⟩, placed.symm⟩,
        spanned.symm⟩, listEquals_symm items⟩

theorem listEquals_symm : ∀ {left right : List Selection},
    listEquals left right = true → listEquals right left = true
  | [], [], _ => rfl
  | [], _ :: _, same => by simp [listEquals] at same
  | _ :: _, [], same => by simp [listEquals] at same
  | _ :: _, _ :: _, same => by
      simp only [listEquals, Bool.and_eq_true] at same ⊢
      exact ⟨equals_symm same.1, listEquals_symm same.2⟩

end

mutual

theorem equals_trans : ∀ {first second third : Selection},
    first.equals second = true → second.equals third = true → first.equals third = true
  | .field _ _ _, second, third, earlier, later => by
      cases second <;> simp only [equals, Bool.and_eq_true, beq_iff_eq, Bool.false_eq_true]
        at earlier
      cases third <;> simp only [equals, Bool.and_eq_true, beq_iff_eq, Bool.false_eq_true]
        at later ⊢
      exact ⟨⟨FieldHead.equals_trans earlier.1.1 later.1.1, earlier.1.2.trans later.1.2⟩,
        listEquals_trans earlier.2 later.2⟩
  | .spread _ _ _, second, third, earlier, later => by
      cases second <;> simp only [equals, Bool.and_eq_true, beq_iff_eq, Bool.false_eq_true]
        at earlier
      cases third <;> simp only [equals, Bool.and_eq_true, beq_iff_eq, Bool.false_eq_true]
        at later ⊢
      exact ⟨⟨earlier.1.1.trans later.1.1, Directive.listEquals_trans earlier.1.2 later.1.2⟩,
        earlier.2.trans later.2⟩
  | .inline _ _ _ _ _, second, third, earlier, later => by
      cases second <;> simp only [equals, Bool.and_eq_true, beq_iff_eq, Bool.false_eq_true]
        at earlier
      cases third <;> simp only [equals, Bool.and_eq_true, beq_iff_eq, Bool.false_eq_true]
        at later ⊢
      obtain ⟨⟨⟨⟨condition, directives⟩, placed⟩, spanned⟩, items⟩ := earlier
      obtain ⟨⟨⟨⟨condition', directives'⟩, placed'⟩, spanned'⟩, items'⟩ := later
      exact ⟨⟨⟨⟨condition.trans condition', Directive.listEquals_trans directives directives'⟩,
        placed.trans placed'⟩, spanned.trans spanned'⟩, listEquals_trans items items'⟩

theorem listEquals_trans : ∀ {first second third : List Selection},
    listEquals first second = true → listEquals second third = true →
      listEquals first third = true
  | [], [], _, _, later => later
  | [], _ :: _, _, earlier, _ => by simp [listEquals] at earlier
  | _ :: _, [], _, earlier, _ => by simp [listEquals] at earlier
  | _ :: _, _ :: _, [], _, later => by simp [listEquals] at later
  | _ :: _, _ :: _, _ :: _, earlier, later => by
      simp only [listEquals, Bool.and_eq_true] at earlier later ⊢
      exact ⟨equals_trans earlier.1 later.1, listEquals_trans earlier.2 later.2⟩

end

end Selection

namespace FieldNode

theorem equals_symm {left right : FieldNode} (same : left.equals right = true) :
    right.equals left = true := by
  simp only [equals, Bool.and_eq_true, beq_iff_eq] at same ⊢
  exact ⟨⟨FieldHead.equals_symm same.1.1, same.1.2.symm⟩, Selection.listEquals_symm same.2⟩

theorem equals_trans {first second third : FieldNode} (earlier : first.equals second = true)
    (later : second.equals third = true) : first.equals third = true := by
  simp only [equals, Bool.and_eq_true, beq_iff_eq] at earlier later ⊢
  exact ⟨⟨FieldHead.equals_trans earlier.1.1 later.1.1, earlier.1.2.trans later.1.2⟩,
    Selection.listEquals_trans earlier.2 later.2⟩

theorem responseName_of_equals {left right : FieldNode} (same : left.equals right = true) :
    left.responseName = right.responseName := by
  simp only [equals, Bool.and_eq_true] at same
  exact FieldHead.responseName_of_equals same.1.1

end FieldNode

end ResponseShape

import ResponseShape.Proofs.Absorbing
import ResponseShape.Proofs.Alike

/-!
# Selections as walks see them

A walk passes over the selections that a literal condition excludes, at whatever depth they stand,
and of the others it never looks at the directives again. The two zeros are one number to it. The
plain form of a selection leaves all of that out: selections that are equal as they are written have
one plain form (`Selection.plain_eq_of_equals`), and what selections select, or why they cannot be
read, is told by their plain forms and those of the fragments (`Environment.collect_plain`).
-/

set_option autoImplicit false

namespace ResponseShape

/-! ## Values -/

/-- The number, with its sign left out when it is a zero. -/
def Binary64.plain (number : Binary64) : Binary64 :=
  if number.isZero then ⟨0⟩ else number

namespace Binary64

theorem isNaN_of_isZero {number : Binary64} (zero : number.isZero = true) :
    number.isNaN = false := by
  rw [isNaN, beq_iff_eq.mp zero]
  rfl

theorem plain_eq_of_equals {left right : Binary64} (same : left.equals right = true) :
    left.plain = right.plain := by
  simp only [equals, Bool.and_eq_true, Bool.or_eq_true, beq_iff_eq] at same
  obtain ⟨_, bits | ⟨leftZero, rightZero⟩⟩ := same
  · obtain ⟨leftBits⟩ := left
    obtain rfl : leftBits = right.bits := bits
    rfl
  · rw [plain, plain, if_pos leftZero, if_pos rightZero]

/-- A zero and another number are not equal. -/
theorem isZero_of_equals {left right : Binary64} (same : left.equals right = true) :
    left.isZero = right.isZero := by
  simp only [equals, Bool.and_eq_true, Bool.or_eq_true, beq_iff_eq] at same
  obtain ⟨_, bits | ⟨leftZero, rightZero⟩⟩ := same
  · rw [isZero, isZero, magnitude, magnitude, bits]
  · rw [leftZero, rightZero]

theorem equals_of_isZero {left right : Binary64} (leftZero : left.isZero = true)
    (rightZero : right.isZero = true) : left.equals right = true := by
  simp only [equals, isNaN_of_isZero leftZero, isNaN_of_isZero rightZero, leftZero, rightZero,
    Bool.not_false, Bool.and_true, Bool.or_true]

theorem isZero_plain (number : Binary64) : number.plain.isZero = number.isZero := by
  rw [plain]
  split
  · rename_i zero
    rw [zero]
    rfl
  · rfl

/-- **Plain numbers are equal when the numbers are.** -/
@[simp]
theorem equals_plain (left right : Binary64) :
    left.plain.equals right.plain = left.equals right := by
  rw [Bool.eq_iff_iff]
  by_cases leftZero : left.isZero = true
  · by_cases rightZero : right.isZero = true
    · exact iff_of_true
        (equals_of_isZero (left.isZero_plain.trans leftZero) (right.isZero_plain.trans rightZero))
        (equals_of_isZero leftZero rightZero)
    · refine iff_of_false (fun same => rightZero ?_) (fun same => rightZero ?_)
      · rw [← right.isZero_plain, ← isZero_of_equals same, isZero_plain, leftZero]
      · rw [← isZero_of_equals same, leftZero]
  · by_cases rightZero : right.isZero = true
    · refine iff_of_false (fun same => leftZero ?_) (fun same => leftZero ?_)
      · rw [← left.isZero_plain, isZero_of_equals same, isZero_plain, rightZero]
      · rw [isZero_of_equals same, rightZero]
    · rw [plain, plain, if_neg leftZero, if_neg rightZero]

end Binary64

namespace Value

mutual

/-- The value with its numbers in plain form. -/
def plain : Value → Value
  | .null => .null
  | .variable name => .variable name
  | .int number => .int number
  | .float number => .float number.plain
  | .string text => .string text
  | .boolean value => .boolean value
  | .enum name => .enum name
  | .list items => .list (itemsPlain items)
  | .object fields => .object (fieldsPlain fields)

/-- The values with their numbers in plain form. -/
def itemsPlain : List Value → List Value
  | [] => []
  | item :: rest => item.plain :: itemsPlain rest

/-- The fields with the numbers in plain form. -/
def fieldsPlain : List (String × Value) → List (String × Value)
  | [] => []
  | (name, value) :: rest => (name, value.plain) :: fieldsPlain rest

end

mutual

theorem plain_eq_of_equals : ∀ {left right : Value},
    left.equals right = true → left.plain = right.plain
  | .null, right, same => by cases right <;> simp_all [equals]
  | .variable _, right, same => by cases right <;> simp_all [equals]
  | .int _, right, same => by cases right <;> simp_all [equals]
  | .float _, right, same => by
      cases right <;> simp only [equals, Bool.false_eq_true] at same ⊢
      rw [plain, plain, Binary64.plain_eq_of_equals same]
  | .string _, right, same => by cases right <;> simp_all [equals]
  | .boolean _, right, same => by cases right <;> simp_all [equals]
  | .enum _, right, same => by cases right <;> simp_all [equals]
  | .list _, right, same => by
      cases right <;> simp only [equals, Bool.false_eq_true] at same ⊢
      rw [plain, plain, itemsPlain_eq_of_equal same]
  | .object _, right, same => by
      cases right <;> simp only [equals, Bool.false_eq_true] at same ⊢
      rw [plain, plain, fieldsPlain_eq_of_equal same]

theorem itemsPlain_eq_of_equal : ∀ {left right : List Value},
    itemsEqual left right = true → itemsPlain left = itemsPlain right
  | [], right, same => by cases right <;> simp_all [itemsEqual]
  | _ :: _, right, same => by
      cases right <;> simp only [itemsEqual, Bool.and_eq_true, Bool.false_eq_true] at same
      rw [itemsPlain, itemsPlain, plain_eq_of_equals same.1, itemsPlain_eq_of_equal same.2]

theorem fieldsPlain_eq_of_equal : ∀ {left right : List (String × Value)},
    fieldsEqual left right = true → fieldsPlain left = fieldsPlain right
  | [], right, same => by cases right <;> simp_all [fieldsEqual]
  | _ :: _, right, same => by
      cases right <;>
        simp only [fieldsEqual, Bool.and_eq_true, beq_iff_eq, Bool.false_eq_true] at same
      rw [fieldsPlain, fieldsPlain, same.1.1, plain_eq_of_equals same.1.2,
        fieldsPlain_eq_of_equal same.2]

end

mutual

/-- **Plain values are equal when the values are.** -/
@[simp]
theorem equals_plain : ∀ left right : Value, left.plain.equals right.plain = left.equals right
  | .null, right => by cases right <;> simp only [plain, equals]
  | .variable _, right => by cases right <;> simp only [plain, equals]
  | .int _, right => by cases right <;> simp only [plain, equals]
  | .float _, right => by cases right <;> simp only [plain, equals, Binary64.equals_plain]
  | .string _, right => by cases right <;> simp only [plain, equals]
  | .boolean _, right => by cases right <;> simp only [plain, equals]
  | .enum _, right => by cases right <;> simp only [plain, equals]
  | .list _, right => by cases right <;> simp only [plain, equals, itemsEqual_plain]
  | .object _, right => by cases right <;> simp only [plain, equals, fieldsEqual_plain]

theorem itemsEqual_plain : ∀ left right : List Value,
    itemsEqual (itemsPlain left) (itemsPlain right) = itemsEqual left right
  | [], right => by cases right <;> simp only [itemsPlain, itemsEqual]
  | left :: lefts, right => by
      cases right with
      | nil => simp only [itemsPlain, itemsEqual]
      | cons right rights =>
          simp only [itemsPlain, itemsEqual, equals_plain left right, itemsEqual_plain lefts rights]

theorem fieldsEqual_plain : ∀ left right : List (String × Value),
    fieldsEqual (fieldsPlain left) (fieldsPlain right) = fieldsEqual left right
  | [], right => by cases right <;> simp only [fieldsPlain, fieldsEqual]
  | (_, left) :: lefts, right => by
      cases right with
      | nil => simp only [fieldsPlain, fieldsEqual]
      | cons field rights =>
          simp only [fieldsPlain, fieldsEqual, equals_plain left field.2,
            fieldsEqual_plain lefts rights]

end

end Value

/-! ## Heads -/

/-- The argument with its value in plain form. -/
def Argument.plain (argument : Argument) : Argument :=
  { argument with value := argument.value.plain }

namespace Argument

theorem plain_eq_of_equals {left right : Argument} (same : left.equals right = true) :
    left.plain = right.plain := by
  obtain ⟨name, value⟩ := left
  obtain ⟨otherName, otherValue⟩ := right
  simp only [equals, Bool.and_eq_true, beq_iff_eq] at same
  obtain ⟨rfl, values⟩ := same
  rw [plain, plain, Value.plain_eq_of_equals values]

theorem map_plain_eq_of_listEquals {left right : List Argument}
    (same : listEquals left right = true) : left.map plain = right.map plain :=
  forall₂_map_eq (fun _ _ => plain_eq_of_equals) (listEquals_iff.mp same)

/-- **Plain arguments agree when the arguments do.** -/
theorem agree_plain (left right : List Argument) :
    agree (left.map plain) (right.map plain) = agree left right := by
  simp only [agree, List.length_map, List.all_map, List.any_map, Function.comp_def, equals, plain,
    Value.equals_plain]

end Argument

/-- The head without directives, with its arguments in plain form. -/
def FieldHead.plain (head : FieldHead) : FieldHead :=
  { head with arguments := head.arguments.map Argument.plain, directives := [] }

theorem FieldHead.plain_eq_of_equals {left right : FieldHead} (same : left.equals right = true) :
    left.plain = right.plain := by
  obtain ⟨leftAlias, leftName, leftArguments, leftDirectives, leftPosition⟩ := left
  obtain ⟨rightAlias, rightName, rightArguments, rightDirectives, rightPosition⟩ := right
  simp only [equals, Bool.and_eq_true, beq_iff_eq] at same
  obtain ⟨⟨⟨⟨rfl, rfl⟩, arguments⟩, _⟩, rfl⟩ := same
  rw [plain, plain, Argument.map_plain_eq_of_listEquals arguments]

/-! ## Selections -/

namespace Selection

mutual

/-- The selection without directives, and without what is excluded in it. -/
def plain : Selection → Selection
  | field head span items => field head.plain span (listPlain items)
  | spread name _ position => spread name [] position
  | inline condition _ position span items => inline condition [] position span (listPlain items)

/-- The selections that are not excluded, in plain form. -/
def listPlain : List Selection → List Selection
  | [] => []
  | selection :: rest =>
      if isExcluded selection.directives then listPlain rest
      else selection.plain :: listPlain rest

end

mutual

/-- **Selections that are equal as they are written have one plain form.** -/
theorem plain_eq_of_equals : ∀ {left right : Selection},
    left.equals right = true → left.plain = right.plain
  | .field _ _ _, right, same => by
      cases right <;> simp only [equals, Bool.and_eq_true, beq_iff_eq, Bool.false_eq_true] at same
      rw [plain, plain, FieldHead.plain_eq_of_equals same.1.1, same.1.2,
        listPlain_eq_of_listEquals same.2]
  | .spread _ _ _, right, same => by
      cases right <;> simp only [equals, Bool.and_eq_true, beq_iff_eq, Bool.false_eq_true] at same
      rw [plain, plain, same.1.1, same.2]
  | .inline _ _ _ _ _, right, same => by
      cases right <;> simp only [equals, Bool.and_eq_true, beq_iff_eq, Bool.false_eq_true] at same
      rw [plain, plain, same.1.1.1.1, same.1.1.2, same.1.2, listPlain_eq_of_listEquals same.2]

theorem listPlain_eq_of_listEquals : ∀ {left right : List Selection},
    listEquals left right = true → listPlain left = listPlain right
  | [], right, same => by cases right <;> simp_all [listEquals]
  | _ :: _, right, same => by
      cases right <;> simp only [listEquals, Bool.and_eq_true, Bool.false_eq_true] at same
      have excluded := Alike.isExcluded_eq (.inr same.1)
      rw [listPlain, listPlain, plain_eq_of_equals same.1, listPlain_eq_of_listEquals same.2,
        excluded]

end

theorem listPlain_append (first second : List Selection) :
    listPlain (first ++ second) = listPlain first ++ listPlain second := by
  induction first with
  | nil => rfl
  | cons selection rest ih =>
      rw [List.cons_append, listPlain, listPlain, ih]
      split <;> rfl

end Selection

/-! ## Nodes -/

/-- The node in plain form. -/
def FieldNode.plain (node : FieldNode) : FieldNode :=
  ⟨node.head.plain, node.span, Selection.listPlain node.items⟩

namespace FieldNode

@[simp]
theorem responseName_plain (node : FieldNode) : node.plain.responseName = node.responseName :=
  rfl

theorem plain_eq_of_equals {left right : FieldNode} (same : left.equals right = true) :
    left.plain = right.plain := by
  simp only [equals, Bool.and_eq_true, beq_iff_eq] at same
  obtain ⟨⟨heads, spans⟩, items⟩ := same
  rw [plain, plain, FieldHead.plain_eq_of_equals heads, spans,
    Selection.listPlain_eq_of_listEquals items]

theorem conflict?_plain (first second : FieldNode) :
    first.plain.conflict? second.plain = first.conflict? second := by
  simp only [conflict?, plain, FieldHead.plain, Argument.agree_plain]

theorem join_plain (first second : FieldNode) :
    (first.join second).plain = first.plain.join second.plain := by
  simp only [join, plain, Selection.listPlain_append]

/-- Plain nodes are merged as the nodes are. -/
theorem mergeAt_plain (path : Path) (node : FieldNode) (present : Option FieldNode) :
    (node.mergeAt path present).map plain = node.plain.mergeAt path (present.map plain) := by
  cases present with
  | none => rfl
  | some first =>
      simp only [mergeAt, Option.map_some, conflict?_plain]
      cases first.conflict? node with
      | some conflict => rfl
      | none => exact congrArg Except.ok (join_plain first node)

end FieldNode

theorem FieldGroups.meet_plain (groups : FieldGroups) (path : Path) (node : FieldNode) :
    (groups.meet path node).map (OrderedMap.mapValues FieldNode.plain) =
      FieldGroups.meet (groups.mapValues FieldNode.plain) path node.plain := by
  rw [meet, meet, OrderedMap.update_eq, OrderedMap.update_eq, OrderedMap.get?_mapValues,
    FieldNode.responseName_plain, ← FieldNode.mergeAt_plain]
  cases node.mergeAt path (groups.get? node.responseName) with
  | error error => rfl
  | ok merged => exact congrArg Except.ok (OrderedMap.mapValues_insert _ _ _ _)

/-! ## Walks -/

/-- The fragment with its body in plain form. -/
def FragmentDefinition.plain (fragment : FragmentDefinition) : FragmentDefinition :=
  { fragment with items := Selection.listPlain fragment.items }

/-- The fragments with their bodies in plain form. -/
def FragmentTable.plain (table : FragmentTable) : FragmentTable :=
  ⟨table.fragments.map FragmentDefinition.plain⟩

theorem FragmentTable.find?_plain (table : FragmentTable) (name : String) :
    table.plain.find? name = (table.find? name).map FragmentDefinition.plain := by
  rw [find?, find?, plain, List.find?_map]
  rfl

/-- The schema, with the fragments in plain form. -/
def Environment.plain (environment : Environment) : Environment :=
  ⟨environment.schema, environment.fragments.plain⟩

/-- The selections of an agenda that are not excluded, in plain form. -/
def ScopedSelection.listPlain (agenda : List ScopedSelection) : List ScopedSelection :=
  (agenda.filter (fun item => !isExcluded item.selection.directives)).map
    (fun item => ⟨item.scope, item.selection.plain⟩)

namespace ScopedSelection

theorem listPlain_excluded (scope : TypeDefinition) (selection : Selection)
    (agenda : List ScopedSelection) (excluded : isExcluded selection.directives = true) :
    listPlain (⟨scope, selection⟩ :: agenda) = listPlain agenda := by
  simp only [listPlain, List.filter_cons, excluded, Bool.not_true, Bool.false_eq_true, if_false]

theorem listPlain_included (scope : TypeDefinition) (selection : Selection)
    (agenda : List ScopedSelection) (included : isExcluded selection.directives = false) :
    listPlain (⟨scope, selection⟩ :: agenda) = ⟨scope, selection.plain⟩ :: listPlain agenda := by
  simp only [listPlain, List.filter_cons, included, Bool.not_false, if_true, List.map_cons]

theorem listPlain_append (first second : List ScopedSelection) :
    listPlain (first ++ second) = listPlain first ++ listPlain second := by
  simp only [listPlain, List.filter_append, List.map_append]

theorem listPlain_inScope (scope : TypeDefinition) (items : List Selection) :
    listPlain (inScope scope items) = inScope scope (Selection.listPlain items) := by
  induction items with
  | nil => rfl
  | cons selection rest ih =>
      change listPlain (⟨scope, selection⟩ :: inScope scope rest) = _
      rw [Selection.listPlain]
      cases excluded : isExcluded selection.directives with
      | true => rw [listPlain_excluded _ _ _ excluded, ih, if_pos rfl]
      | false =>
          rw [listPlain_included _ _ _ excluded, ih, if_neg Bool.false_ne_true]
          rfl

end ScopedSelection

/-- What a walk has met so far, in plain form. -/
def Gathering.plain (gathering : Gathering) : Gathering :=
  ⟨gathering.groups.mapValues FieldNode.plain, gathering.spread⟩

namespace Environment

variable {environment : Environment}

/-- A spread of a fragment that is not defined cannot be read. -/
theorem gather_undefined {runtime scope : TypeDefinition} {path : Path} {gathering : Gathering}
    {agenda : List ScopedSelection} {name : String} {directives : List Directive}
    {position : Position} (included : isExcluded directives = false)
    (fresh : name ∉ gathering.spread) (undefined : environment.fragments.find? name = none) :
    environment.gather runtime path gathering
        (⟨scope, .spread name directives position⟩ :: agenda) =
      .error (.unknownFragment name path position) := by
  rw [gather, if_neg (by rw [included]; exact Bool.false_ne_true)]
  split
  · rename_i known
    exact absurd (List.contains_iff_mem.mp known) fresh
  · split
    · rfl
    · rename_i found
      rw [undefined] at found
      cases found

section Plain

variable {runtime scope : TypeDefinition} {path : Path} {gathering : Gathering}
  {agenda : List ScopedSelection} {directives : List Directive}

theorem gather_plain_field {head : FieldHead} {span : Span} {items : List Selection}
    (included : isExcluded head.directives = false) :
    environment.plain.gather runtime path gathering.plain
        (ScopedSelection.listPlain (⟨scope, .field head span items⟩ :: agenda)) =
      ((gathering.groups.meet path ⟨head, span, items⟩).map
          (OrderedMap.mapValues FieldNode.plain)).bind
        (fun groups => environment.plain.gather runtime path ⟨groups, gathering.spread⟩
          (ScopedSelection.listPlain agenda)) := by
  rw [ScopedSelection.listPlain_included scope (.field head span items) agenda included,
    Selection.plain, gather_field rfl, FieldGroups.meet_plain]
  rfl

theorem gather_plain_inline {condition : Option String} {position : Position} {span : Span}
    {items : List Selection} (included : isExcluded directives = false) :
    environment.plain.gather runtime path gathering.plain (ScopedSelection.listPlain
        (⟨scope, .inline condition directives position span items⟩ :: agenda)) =
      (environment.inlineScope condition scope path position).bind
        (fun type =>
          if type.appliesTo runtime then
            environment.plain.gather runtime path gathering.plain
              (ScopedSelection.listPlain (ScopedSelection.inScope type items ++ agenda))
          else
            environment.plain.gather runtime path gathering.plain
              (ScopedSelection.listPlain agenda)) := by
  rw [ScopedSelection.listPlain_included scope (.inline condition directives position span items)
    agenda included, Selection.plain, gather_inline rfl]
  simp only [ScopedSelection.listPlain_append, ScopedSelection.listPlain_inScope]
  rfl

theorem gather_plain_spread {name : String} {position : Position} {fragment : FragmentDefinition}
    (included : isExcluded directives = false) (fresh : name ∉ gathering.spread)
    (found : environment.fragments.find? name = some fragment) :
    environment.plain.gather runtime path gathering.plain (ScopedSelection.listPlain
        (⟨scope, .spread name directives position⟩ :: agenda)) =
      (environment.resolveCondition fragment.condition scope path position).bind
        (fun type =>
          if type.appliesTo runtime then
            environment.plain.gather runtime path
              (Gathering.plain ⟨gathering.groups, name :: gathering.spread⟩)
              (ScopedSelection.listPlain (ScopedSelection.inScope type fragment.items ++ agenda))
          else
            environment.plain.gather runtime path
              (Gathering.plain ⟨gathering.groups, name :: gathering.spread⟩)
              (ScopedSelection.listPlain agenda)) := by
  have freshPlain : name ∉ gathering.plain.spread := fresh
  have foundPlain : environment.plain.fragments.find? name = some fragment.plain := by
    rw [plain, FragmentTable.find?_plain, found]
    rfl
  rw [ScopedSelection.listPlain_included scope (.spread name directives position) agenda included,
    Selection.plain, gather_spread rfl freshPlain foundPlain]
  simp only [ScopedSelection.listPlain_append, ScopedSelection.listPlain_inScope]
  rfl

theorem gather_plain_repeated {name : String} {position : Position}
    (included : isExcluded directives = false) (known : name ∈ gathering.spread) :
    environment.plain.gather runtime path gathering.plain (ScopedSelection.listPlain
        (⟨scope, .spread name directives position⟩ :: agenda)) =
      environment.plain.gather runtime path gathering.plain
        (ScopedSelection.listPlain agenda) := by
  have knownPlain : name ∈ gathering.plain.spread := known
  rw [ScopedSelection.listPlain_included scope (.spread name directives position) agenda included,
    Selection.plain, gather_repeated rfl knownPlain]

theorem gather_plain_undefined {name : String} {position : Position}
    (included : isExcluded directives = false) (fresh : name ∉ gathering.spread)
    (undefined : environment.fragments.find? name = none) :
    environment.plain.gather runtime path gathering.plain (ScopedSelection.listPlain
        (⟨scope, .spread name directives position⟩ :: agenda)) =
      .error (.unknownFragment name path position) := by
  have freshPlain : name ∉ gathering.plain.spread := fresh
  have undefinedPlain : environment.plain.fragments.find? name = none := by
    rw [plain, FragmentTable.find?_plain, undefined]
    rfl
  rw [ScopedSelection.listPlain_included scope (.spread name directives position) agenda included,
    Selection.plain, gather_undefined rfl freshPlain undefinedPlain]

end Plain

/-- **What an agenda gathers, or why it cannot be read, is told by its plain form.** -/
theorem gather_plain (runtime : TypeDefinition) (path : Path) (gathering : Gathering)
    (agenda : List ScopedSelection) :
    (environment.gather runtime path gathering agenda).map Gathering.plain =
      environment.plain.gather runtime path gathering.plain
        (ScopedSelection.listPlain agenda) := by
  fun_induction environment.gather runtime path gathering agenda with
  | case1 gathering =>
      rw [ScopedSelection.listPlain, List.filter_nil, List.map_nil, gather]
      rfl
  | case2 gathering scope head span items agenda excluded ih =>
      rw [ih, ScopedSelection.listPlain_excluded scope (.field head span items) agenda excluded]
  | case3 gathering scope head span items agenda included error failed =>
      rw [gather_plain_field (Bool.not_eq_true _ ▸ included), failed]
      rfl
  | case4 gathering scope head span items agenda included groups met ih =>
      rw [ih, gather_plain_field (Bool.not_eq_true _ ▸ included), met]
      rfl
  | case5 gathering scope condition directives position span items agenda excluded ih =>
      rw [ih, ScopedSelection.listPlain_excluded scope
        (.inline condition directives position span items) agenda excluded]
  | case6 gathering scope condition directives position span items agenda included error failed =>
      rw [gather_plain_inline (Bool.not_eq_true _ ▸ included), failed]
      rfl
  | case7 gathering scope condition directives position span items agenda included type admitted
      applies ih =>
      rw [ih, gather_plain_inline (Bool.not_eq_true _ ▸ included), admitted]
      exact (if_pos applies).symm
  | case8 gathering scope condition directives position span items agenda included type admitted
      passes ih =>
      rw [ih, gather_plain_inline (Bool.not_eq_true _ ▸ included), admitted]
      exact (if_neg passes).symm
  | case9 gathering scope name directives position agenda excluded ih =>
      rw [ih, ScopedSelection.listPlain_excluded scope (.spread name directives position) agenda
        excluded]
  | case10 gathering scope name directives position agenda included known ih =>
      rw [ih, gather_plain_repeated (Bool.not_eq_true _ ▸ included)
        (List.contains_iff_mem.mp known)]
  | case11 gathering scope name directives position agenda included fresh undefined =>
      rw [gather_plain_undefined (Bool.not_eq_true _ ▸ included) (by simpa using fresh) undefined]
      rfl
  | case12 gathering scope name directives position agenda included fresh fragment found error
      failed =>
      rw [gather_plain_spread (Bool.not_eq_true _ ▸ included) (by simpa using fresh) found, failed]
      rfl
  | case13 gathering scope name directives position agenda included fresh fragment found type
      admitted applies ih =>
      rw [ih, gather_plain_spread (Bool.not_eq_true _ ▸ included) (by simpa using fresh) found,
        admitted]
      exact (if_pos applies).symm
  | case14 gathering scope name directives position agenda included fresh fragment found type
      admitted passes ih =>
      rw [ih, gather_plain_spread (Bool.not_eq_true _ ▸ included) (by simpa using fresh) found,
        admitted]
      exact (if_neg passes).symm

end Environment

/-! ## Selected fields -/

/-- The selected field with its node in plain form. -/
def SelectedField.plain (field : SelectedField) : SelectedField :=
  { field with node := field.node.plain }

/-- The variant with every field changed. -/
def Variant.map {φ ψ : Type} (change : φ → ψ) (variant : Variant φ) : Variant ψ :=
  ⟨variant.typeName, variant.fields.map change⟩

namespace Environment

variable {environment : Environment}

theorem selectField_plain (runtime : TypeDefinition) (path : Path) (node : FieldNode) :
    (selectField runtime path node).map SelectedField.plain =
      selectField runtime path node.plain := by
  simp only [selectField, FieldNode.plain, FieldHead.plain]
  cases runtime.field? node.head.name <;> rfl

/-- **What selections select, or why they cannot be read, is told by their plain form.** -/
theorem collectFor_plain (runtime scope : TypeDefinition) (items : List Selection) (path : Path) :
    (environment.collectFor runtime scope items path).map (List.map SelectedField.plain) =
      environment.plain.collectFor runtime scope (Selection.listPlain items) path := by
  have gathered := environment.gather_plain runtime path Gathering.start
    (ScopedSelection.inScope scope items)
  rw [ScopedSelection.listPlain_inScope] at gathered
  refine (Outcome.map_bind_eq fun gathering => ?_).trans
    (congrArg (fun outcome => outcome >>= _) gathered)
  rw [Outcome.map_mapM_eq (selectField_plain runtime path), Gathering.plain,
    OrderedMap.values_mapValues, List.mapM_map]
  rfl

theorem collectOn_plain (type : TypeDefinition) (items : List Selection) (path : Path) :
    (environment.collectOn type items path).map (List.map SelectedField.plain) =
      environment.plain.collectOn type (Selection.listPlain items) path :=
  environment.collectFor_plain type type items path

theorem collect_plain (type : TypeDefinition) (items : List Selection) (path : Path) :
    (environment.collect type items path).map (List.map (Variant.map SelectedField.plain)) =
      environment.plain.collect type (Selection.listPlain items) path := by
  refine Outcome.map_mapM_eq (fun runtime => ?_) (environment.schema.possibleTypes type)
  rw [← collectFor_plain]
  exact Outcome.map_bind_eq fun fields => rfl

end Environment

end ResponseShape

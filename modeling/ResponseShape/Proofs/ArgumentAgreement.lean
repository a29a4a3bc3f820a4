import Mathlib.Data.List.Perm.Subperm
import ResponseShape.Proofs.PlainForm
import ResponseShape.Proofs.SelfEquality

/-!
# When argument lists agree

Two lists of arguments agree when they are of one length and every argument of the first is found
in the second. This is reflexive where every float is a number, and it is transitive. It need not be
symmetric, because an argument that the first list repeats is found at one place of the second: a
list that gives `x` twice agrees with one that gives `x` and `y`, which does not agree with the
first (`Argument.not_symm_agree`). Then the order in which two selections of one response name are
written decides whether they are merged.

A list that repeats no argument agrees with another only if the other is a reordering of it, up to
the equality of arguments (`Argument.agree_iff_perm`). So between such lists agreement is an
equivalence, and which of the nodes of a response name comes first does not matter
(`FieldNode.mergeable_iff_forall`). All this is put together in `Argument.agree_laws`.
-/

set_option autoImplicit false

namespace ResponseShape

namespace Argument

variable {first second third left right : List Argument}

/-- Every argument of the second list is found in the first. -/
def Carries (left right : List Argument) : Prop :=
  ∀ argument ∈ right, ∃ other ∈ left, argument.equals other = true

/-- No argument of the list is equal to a later one. -/
def Distinct (arguments : List Argument) : Prop :=
  arguments.Pairwise (fun argument other => argument.equals other = false)

theorem agree_iff :
    agree left right = true ↔ left.length = right.length ∧ Carries right left := by
  simp only [agree, Carries, Bool.and_eq_true, beq_iff_eq, List.all_eq_true, List.any_eq_true]

/-- Arguments of different names are not equal. -/
theorem distinct_of_nodup_names {arguments : List Argument}
    (distinct : (arguments.map Argument.name).Nodup) : Distinct arguments := by
  refine (List.pairwise_map.mp distinct).imp fun apart => ?_
  simp only [equals, Bool.and_eq_false_iff, beq_eq_false_iff_ne]
  exact .inl apart

/-- An argument that is equal to some argument is equal to itself. -/
theorem withoutNaN_of_equals {argument other : Argument} (same : argument.equals other = true) :
    argument.withoutNaN = true := by
  rw [← equals_self]
  exact equals_trans same (equals_symm same)

/-- Arguments of one plain form are equal, if their floats are numbers. -/
theorem equals_of_plain_eq {argument other : Argument} (numbers : argument.withoutNaN = true)
    (same : argument.plain = other.plain) : argument.equals other = true := by
  have plainly : ∀ one another : Argument, one.plain.equals another.plain = one.equals another := by
    intro one another
    simp only [equals, plain, Value.equals_plain]
  rw [← plainly, ← same, plainly, equals_self, numbers]

/-! ## What holds of all lists -/

/-- **A list agrees with itself exactly when every float in it is a number.** -/
theorem agree_self (arguments : List Argument) :
    agree arguments arguments = arguments.all withoutNaN := by
  rw [Bool.eq_iff_iff, agree_iff, List.all_eq_true]
  constructor
  · rintro ⟨_, carries⟩ argument member
    obtain ⟨_, _, same⟩ := carries argument member
    exact withoutNaN_of_equals same
  · intro numbers
    refine ⟨rfl, fun argument member => ⟨argument, member, ?_⟩⟩
    rw [equals_self, numbers argument member]

theorem agree_trans (earlier : agree first second = true) (later : agree second third = true) :
    agree first third = true := by
  rw [agree_iff] at earlier later ⊢
  refine ⟨earlier.1.trans later.1, fun argument member => ?_⟩
  obtain ⟨between, isBetween, toBetween⟩ := earlier.2 argument member
  obtain ⟨last, isLast, toLast⟩ := later.2 between isBetween
  exact ⟨last, isLast, equals_trans toBetween toLast⟩

/-- Agreement is returned exactly when nothing in the second list is missing from the first. -/
theorem agree_symm_iff (agreed : agree left right = true) :
    agree right left = true ↔ Carries left right := by
  rw [agree_iff]
  exact and_iff_right (agree_iff.mp agreed).1.symm

/-! ## Lists that repeat no argument -/

/-- **A list that repeats no argument agrees with its reorderings**, and with nothing else. -/
theorem agree_iff_perm (distinct : Distinct left) :
    agree left right = true ↔
      left.all withoutNaN = true ∧ (left.map plain).Perm (right.map plain) := by
  constructor
  · intro agreed
    obtain ⟨length, carries⟩ := agree_iff.mp agreed
    have numbers : ∀ argument ∈ left, argument.withoutNaN = true := by
      intro argument member
      obtain ⟨_, _, same⟩ := carries argument member
      exact withoutNaN_of_equals same
    have nodup : (left.map plain).Nodup := by
      refine List.pairwise_map.mpr (distinct.imp_of_mem fun isFirst _ apart same => ?_)
      rw [equals_of_plain_eq (numbers _ isFirst) same] at apart
      cases apart
    have subset : left.map plain ⊆ right.map plain := by
      intro form member
      obtain ⟨argument, isLeft, rfl⟩ := List.mem_map.mp member
      obtain ⟨other, isRight, same⟩ := carries argument isLeft
      exact plain_eq_of_equals same ▸ List.mem_map_of_mem isRight
    refine ⟨List.all_eq_true.mpr numbers, ?_⟩
    -- a list without repetitions that is contained in one of its length fills it
    refine (List.subperm_of_subset nodup subset).perm_of_length_le ?_
    rw [List.length_map, List.length_map]
    exact Nat.le_of_eq length.symm
  · rintro ⟨numbers, reordered⟩
    refine agree_iff.mpr ⟨by simpa using reordered.length_eq, fun argument member => ?_⟩
    have found := reordered.subset (List.mem_map_of_mem member)
    obtain ⟨other, isRight, same⟩ := List.mem_map.mp found
    exact ⟨other, isRight, equals_of_plain_eq (List.all_eq_true.mp numbers argument member)
      same.symm⟩

/-- **Agreement with a list that repeats no argument is returned.** -/
theorem agree_symm_of_distinct (distinct : Distinct left) (agreed : agree left right = true) :
    agree right left = true := by
  obtain ⟨numbers, reordered⟩ := (agree_iff_perm distinct).mp agreed
  refine (agree_symm_iff agreed).mpr fun argument member => ?_
  have found := reordered.symm.subset (List.mem_map_of_mem member)
  obtain ⟨other, isLeft, same⟩ := List.mem_map.mp found
  have equal := equals_of_plain_eq (List.all_eq_true.mp numbers other isLeft) same
  exact ⟨other, isLeft, equals_symm equal⟩

end Argument

/-! ## Which node comes first -/

namespace FieldNode

variable {first second : FieldNode}

/-- The arguments of the node are numbers where they are floats, and none of them is repeated. -/
structure PlainlyCalled (node : FieldNode) : Prop where
  numbers : node.head.arguments.all Argument.withoutNaN = true
  distinct : Argument.Distinct node.head.arguments

theorem conflict?_eq_differingArguments_iff :
    first.conflict? second = some .differingArguments ↔
      first.head.name = second.head.name ∧
        Argument.agree first.head.arguments second.head.arguments = false := by
  by_cases named : first.head.name = second.head.name
  · cases agreed : Argument.agree first.head.arguments second.head.arguments with
    | true => simp [conflict?, named, agreed]
    | false => simp [conflict?, named, agreed]
  · simp [conflict?, named]

/-- A node that is merged with another says that its arguments differ exactly when the two are in
this conflict. -/
theorem mergeAt_eq_differingArguments_iff {path : Path} :
    (∃ name place position other, second.mergeAt path (some first) =
      .error (.fieldMergeConflict name place position other .differingArguments)) ↔
      first.conflict? second = some .differingArguments := by
  cases clash : first.conflict? second with
  | none => simp [mergeAt, clash]
  | some conflict => simp [mergeAt, clash]

/-- Nodes without repeated arguments are in conflict over them in both orders or in neither. -/
theorem conflict?_comm_of_distinct (distinctFirst : Argument.Distinct first.head.arguments)
    (distinctSecond : Argument.Distinct second.head.arguments) :
    first.conflict? second = some .differingArguments ↔
      second.conflict? first = some .differingArguments := by
  have same : Argument.agree first.head.arguments second.head.arguments =
      Argument.agree second.head.arguments first.head.arguments := by
    rw [Bool.eq_iff_iff]
    exact ⟨Argument.agree_symm_of_distinct distinctFirst,
      Argument.agree_symm_of_distinct distinctSecond⟩
  rw [conflict?_eq_differingArguments_iff, conflict?_eq_differingArguments_iff, same, eq_comm]

/-- **Nodes that do not repeat arguments can stand for one field when no two of them are in
conflict**, although each is compared with the first alone. -/
theorem mergeable_iff_forall {nodes : List FieldNode}
    (called : ∀ node ∈ nodes, node.PlainlyCalled) :
    Mergeable nodes ↔ ∀ node ∈ nodes, ∀ other ∈ nodes, node.conflict? other = none := by
  cases nodes with
  | nil => simp [Mergeable]
  | cons first rest =>
      constructor
      · intro mergeable
        have fromFirst : ∀ node ∈ first :: rest, first.conflict? node = none := by
          intro node member
          rcases List.mem_cons.mp member with rfl | later
          · refine conflict?_eq_none_iff.mpr ⟨rfl, ?_⟩
            rw [Argument.agree_self, (called node member).numbers]
          · exact mergeable node later
        intro node member other isOther
        obtain ⟨named, agreed⟩ := conflict?_eq_none_iff.mp (fromFirst node member)
        obtain ⟨named', agreed'⟩ := conflict?_eq_none_iff.mp (fromFirst other isOther)
        refine conflict?_eq_none_iff.mpr ⟨named.symm.trans named', ?_⟩
        have distinct := (called first List.mem_cons_self).distinct
        exact Argument.agree_trans (Argument.agree_symm_of_distinct distinct agreed) agreed'
      · intro all node member
        exact all first List.mem_cons_self node (List.mem_cons_of_mem _ member)

/-- Such nodes can be merged in any order or in none. -/
theorem mergeable_perm {nodes nodes' : List FieldNode}
    (called : ∀ node ∈ nodes, node.PlainlyCalled) (reordered : nodes.Perm nodes') :
    Mergeable nodes ↔ Mergeable nodes' := by
  rw [mergeable_iff_forall called,
    mergeable_iff_forall fun node member => called node (reordered.mem_iff.mpr member)]
  simp only [reordered.mem_iff]

end FieldNode

/-! ## The laws of agreement -/

/-- **What comparing argument lists guarantees.** A list agrees with itself if its floats are
numbers, and agreement is passed on. A list that agrees with another is of its length and carried
by it, and the agreement is returned exactly when it carries the other. This is always so when it
repeats no argument. So two nodes that do not repeat arguments are in conflict over them whichever
comes first, and any number of them can be merged in every order or in none. -/
theorem Argument.agree_laws (left right : List Argument) :
    (left.all withoutNaN = true → agree left left = true) ∧
    (agree left right = true → ∀ third, agree right third = true → agree left third = true) ∧
    (agree left right = true ↔ left.length = right.length ∧ Carries right left) ∧
    (agree left right = true → (agree right left = true ↔ Carries left right)) ∧
    (Distinct left → agree left right = true →
      agree right left = true ∧ Carries left right ∧ Carries right left) ∧
    (∀ (path : Path) (first second : FieldNode), first.head.arguments = left →
      second.head.arguments = right → Distinct left → Distinct right →
      ((∃ name place position other, second.mergeAt path (some first) =
          .error (.fieldMergeConflict name place position other .differingArguments)) ↔
        ∃ name place position other, first.mergeAt path (some second) =
          .error (.fieldMergeConflict name place position other .differingArguments))) ∧
    ∀ nodes nodes' : List FieldNode, (∀ node ∈ nodes, node.PlainlyCalled) → nodes.Perm nodes' →
      (FieldNode.Mergeable nodes ↔ FieldNode.Mergeable nodes') := by
  refine ⟨fun numbers => ?_, fun agreed _ => agree_trans agreed, agree_iff, agree_symm_iff,
    fun distinct agreed => ?_, fun path first second isLeft isRight distinct distinct' => ?_,
    fun _ _ => FieldNode.mergeable_perm⟩
  · rw [agree_self, numbers]
  · have returned := agree_symm_of_distinct distinct agreed
    exact ⟨returned, (agree_symm_iff agreed).mp returned, (agree_iff.mp agreed).2⟩
  · rw [FieldNode.mergeAt_eq_differingArguments_iff, FieldNode.mergeAt_eq_differingArguments_iff]
    exact FieldNode.conflict?_comm_of_distinct (isLeft ▸ distinct) (isRight ▸ distinct')

/-! ## An argument given twice -/

namespace Sample

/-- A field that is called with the arguments. -/
def called (arguments : List Argument) : FieldNode :=
  ⟨⟨none, "pets", arguments, [], ⟨1, 1⟩⟩, ⟨⟨1, 1⟩, ⟨1, 1⟩⟩, []⟩

/-- The number of pets, given twice. -/
def countTwice : List Argument :=
  [⟨"first", .int 1⟩, ⟨"first", .int 1⟩]

/-- The number of pets and where to start. -/
def countAndPlace : List Argument :=
  [⟨"first", .int 1⟩, ⟨"after", .int 2⟩]

/-- The number of pets and another place where to start. -/
def countElsewhere : List Argument :=
  [⟨"first", .int 1⟩, ⟨"after", .int 3⟩]

end Sample

namespace Argument

open Sample

/-- Reordered arguments agree in both directions, carry each other and agree with the same lists.
Nodes that are called with them are merged in either order, and a node that is called with another
place is in conflict with such a node whichever comes first. -/
theorem agree_laws_reversed :
    agree countAndPlace countAndPlace = true ∧ agree countAndPlace countAndPlace.reverse = true ∧
    (∀ third, agree countAndPlace.reverse third = true → agree countAndPlace third = true) ∧
    (agree countAndPlace.reverse countAndPlace = true ↔
      Carries countAndPlace countAndPlace.reverse) ∧
    (agree countAndPlace.reverse countAndPlace = true ∧
      Carries countAndPlace countAndPlace.reverse ∧ Carries countAndPlace.reverse countAndPlace) ∧
    ((∃ name place position other, (called countElsewhere).mergeAt ⟨["Q"]⟩
        (some (called countAndPlace)) =
          .error (.fieldMergeConflict name place position other .differingArguments)) ∧
      ∃ name place position other, (called countAndPlace).mergeAt ⟨["Q"]⟩
        (some (called countElsewhere)) =
          .error (.fieldMergeConflict name place position other .differingArguments)) ∧
    FieldNode.Mergeable [called countAndPlace, called countAndPlace.reverse] ∧
    FieldNode.Mergeable [called countAndPlace.reverse, called countAndPlace] := by
  have distinct : Distinct countAndPlace := distinct_of_nodup_names (by decide)
  have reversed : Distinct countAndPlace.reverse := distinct_of_nodup_names (by decide)
  have elsewhere : Distinct countElsewhere := distinct_of_nodup_names (by decide)
  have agreed : agree countAndPlace countAndPlace.reverse = true := by decide +kernel
  have refused : agree countAndPlace countElsewhere = false := by decide +kernel
  have clash : (called countAndPlace).conflict? (called countElsewhere) =
      some .differingArguments :=
    FieldNode.conflict?_eq_differingArguments_iff.mpr ⟨rfl, refused⟩
  have conflict : ∃ name place position other, (called countElsewhere).mergeAt ⟨["Q"]⟩
      (some (called countAndPlace)) =
        .error (.fieldMergeConflict name place position other .differingArguments) :=
    FieldNode.mergeAt_eq_differingArguments_iff.mpr clash
  have plainly : ∀ node ∈ [called countAndPlace, called countAndPlace.reverse],
      node.PlainlyCalled := by
    intro node member
    rcases List.mem_cons.mp member with rfl | later
    · exact ⟨by decide +kernel, distinct⟩
    · obtain rfl := List.mem_singleton.mp later
      exact ⟨by decide +kernel, reversed⟩
  have mergeable : FieldNode.Mergeable [called countAndPlace, called countAndPlace.reverse] := by
    intro node member
    obtain rfl := List.mem_singleton.mp member
    exact FieldNode.conflict?_eq_none_iff.mpr ⟨rfl, agreed⟩
  obtain ⟨reflexive, transitive, -, returned, both, -, orders⟩ :=
    agree_laws countAndPlace countAndPlace.reverse
  have comparable := (agree_laws countAndPlace countElsewhere).2.2.2.2.2.1
  exact ⟨reflexive (by decide +kernel), agreed, transitive agreed, returned agreed,
    both distinct agreed, ⟨conflict, (comparable _ _ _ rfl rfl distinct elsewhere).mp conflict⟩,
    mergeable, (orders _ _ plainly (.swap _ _ [])).mp mergeable⟩

/-- **Agreement is not symmetric.** An argument given twice is found in a list that gives it once
and something else besides, and that is not found in the first. So the two nodes are merged when
the one with the repeated argument comes first, and are in conflict otherwise. -/
theorem not_symm_agree :
    countTwice.all withoutNaN = true ∧ countAndPlace.all withoutNaN = true ∧
    agree countTwice countAndPlace = true ∧ agree countAndPlace countTwice = false ∧
    ¬ Carries countTwice countAndPlace ∧
    (called countAndPlace).mergeAt ⟨["Q"]⟩ (some (called countTwice)) = .ok (called countTwice) ∧
    (called countTwice).mergeAt ⟨["Q"]⟩ (some (called countAndPlace)) =
      .error (.fieldMergeConflict "pets" ⟨["Q"]⟩ ⟨1, 1⟩ ⟨1, 1⟩ .differingArguments) := by
  have agreed : agree countTwice countAndPlace = true := by decide +kernel
  have refused : agree countAndPlace countTwice = false := by decide +kernel
  refine ⟨rfl, rfl, agreed, refused, fun carries => ?_, ?_, ?_⟩
  · rw [(agree_symm_iff agreed).mpr carries] at refused
    cases refused
  · exact FieldNode.mergeAt_some_eq_ok_iff.mpr
      ⟨FieldNode.conflict?_eq_none_iff.mpr ⟨rfl, agreed⟩, rfl⟩
  · have clash : (called countAndPlace).conflict? (called countTwice) =
        some .differingArguments :=
      FieldNode.conflict?_eq_differingArguments_iff.mpr ⟨rfl, refused⟩
    rw [FieldNode.mergeAt, clash]
    rfl

end Argument

end ResponseShape

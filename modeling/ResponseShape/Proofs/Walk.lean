import ResponseShape.Collection.Variants

/-!
# Walks of selections

What a walk of selections meets is told by rules, one for each way in which a selection is
treated (`Walk`). A walk has no place for conflicts between nodes: it gives the nodes in the
order in which they are met, and the names of the fragments that have been spread. Gathering is
walking and then merging the nodes (`gather_eq_ok_iff`).

A walk of two agendas is a walk of the first and then of the second (`Walk.append_iff`).
-/

set_option autoImplicit false

namespace ResponseShape

/-- The directives of a selection. -/
def Selection.directives : Selection → List Directive
  | field head _ _ => head.directives
  | spread _ directives _ => directives
  | inline _ directives _ _ _ => directives

namespace Environment

/-! ## Conditions -/

/-- The condition names the given type, which is composite and has a possible type in common
with the scope. -/
def Admits (environment : Environment) (condition : String) (scope type : TypeDefinition) :
    Prop :=
  environment.schema.type? condition = some type ∧ type.isComposite = true ∧
    environment.schema.overlap type scope = true

/-- The type is the one inside an inline fragment that stands in the scope. -/
def AdmitsInline (environment : Environment) (condition : Option String)
    (scope type : TypeDefinition) : Prop :=
  match condition with
  | none => type = scope
  | some name => environment.Admits name scope type

variable {environment : Environment}

theorem resolveCondition_eq_ok_iff {condition : String} {scope type : TypeDefinition}
    {path : Path} {position : Position} :
    environment.resolveCondition condition scope path position = .ok type ↔
      environment.Admits condition scope type := by
  simp only [resolveCondition, Admits]
  cases environment.schema.type? condition with
  | none => simp
  | some found =>
      by_cases admitted : (found.isComposite && environment.schema.overlap found scope) = true
      · simp only [admitted, if_true, Except.ok.injEq, Option.some.injEq]
        rw [Bool.and_eq_true] at admitted
        exact ⟨fun same => same ▸ ⟨rfl, admitted⟩, And.left⟩
      · simp only [admitted, Bool.false_eq_true, if_false, Option.some.injEq, reduceCtorEq,
          false_iff]
        rintro ⟨rfl, both⟩
        exact admitted (Bool.and_eq_true _ _ ▸ both)

theorem inlineScope_eq_ok_iff {condition : Option String} {scope type : TypeDefinition}
    {path : Path} {position : Position} :
    environment.inlineScope condition scope path position = .ok type ↔
      environment.AdmitsInline condition scope type := by
  cases condition with
  | none => simp [inlineScope, AdmitsInline, eq_comm]
  | some name => exact resolveCondition_eq_ok_iff

/-! ## The rules of a walk -/

/-- A walk of an agenda for values of the type `runtime`, from the names of the fragments that
were spread before to the nodes that are met and the names spread in the end. -/
inductive Walk (environment : Environment) (runtime : TypeDefinition) :
    List ScopedSelection → List String → List FieldNode → List String → Prop where
  | nil (spread : List String) : Walk environment runtime [] spread [] spread
  | excluded {scope : TypeDefinition} {selection : Selection} {agenda : List ScopedSelection}
      {spread after : List String} {nodes : List FieldNode} :
      isExcluded selection.directives = true → Walk environment runtime agenda spread nodes after →
        Walk environment runtime (⟨scope, selection⟩ :: agenda) spread nodes after
  | field {scope : TypeDefinition} {head : FieldHead} {span : Span} {items : List Selection}
      {agenda : List ScopedSelection} {spread after : List String} {nodes : List FieldNode} :
      isExcluded head.directives = false → Walk environment runtime agenda spread nodes after →
        Walk environment runtime (⟨scope, .field head span items⟩ :: agenda) spread
          (⟨head, span, items⟩ :: nodes) after
  | inlineEntered {scope type : TypeDefinition} {condition : Option String}
      {directives : List Directive} {position : Position} {span : Span} {items : List Selection}
      {agenda : List ScopedSelection} {spread between after : List String}
      {inner nodes : List FieldNode} :
      isExcluded directives = false → environment.AdmitsInline condition scope type →
        type.appliesTo runtime = true →
        Walk environment runtime (ScopedSelection.inScope type items) spread inner between →
        Walk environment runtime agenda between nodes after →
        Walk environment runtime
          (⟨scope, .inline condition directives position span items⟩ :: agenda) spread
          (inner ++ nodes) after
  | inlinePassed {scope type : TypeDefinition} {condition : Option String}
      {directives : List Directive} {position : Position} {span : Span} {items : List Selection}
      {agenda : List ScopedSelection} {spread after : List String} {nodes : List FieldNode} :
      isExcluded directives = false → environment.AdmitsInline condition scope type →
        type.appliesTo runtime = false → Walk environment runtime agenda spread nodes after →
        Walk environment runtime
          (⟨scope, .inline condition directives position span items⟩ :: agenda) spread nodes after
  | spreadRepeated {scope : TypeDefinition} {name : String} {directives : List Directive}
      {position : Position} {agenda : List ScopedSelection} {spread after : List String}
      {nodes : List FieldNode} :
      isExcluded directives = false → name ∈ spread →
        Walk environment runtime agenda spread nodes after →
        Walk environment runtime (⟨scope, .spread name directives position⟩ :: agenda) spread nodes
          after
  | spreadEntered {scope type : TypeDefinition} {name : String} {directives : List Directive}
      {position : Position} {fragment : FragmentDefinition} {agenda : List ScopedSelection}
      {spread between after : List String} {inner nodes : List FieldNode} :
      isExcluded directives = false → name ∉ spread →
        environment.fragments.find? name = some fragment →
        environment.Admits fragment.condition scope type → type.appliesTo runtime = true →
        Walk environment runtime (ScopedSelection.inScope type fragment.items) (name :: spread)
          inner between →
        Walk environment runtime agenda between nodes after →
        Walk environment runtime (⟨scope, .spread name directives position⟩ :: agenda) spread
          (inner ++ nodes) after
  | spreadPassed {scope type : TypeDefinition} {name : String} {directives : List Directive}
      {position : Position} {fragment : FragmentDefinition} {agenda : List ScopedSelection}
      {spread after : List String} {nodes : List FieldNode} :
      isExcluded directives = false → name ∉ spread →
        environment.fragments.find? name = some fragment →
        environment.Admits fragment.condition scope type → type.appliesTo runtime = false →
        Walk environment runtime agenda (name :: spread) nodes after →
        Walk environment runtime (⟨scope, .spread name directives position⟩ :: agenda) spread nodes
          after

namespace Walk

variable {runtime : TypeDefinition} {first second : List ScopedSelection}
  {spread between after : List String} {nodes nodes' : List FieldNode}

theorem append (earlier : Walk environment runtime first spread nodes between)
    (later : Walk environment runtime second between nodes' after) :
    Walk environment runtime (first ++ second) spread (nodes ++ nodes') after := by
  induction earlier with
  | nil => exact later
  | excluded isExcluded _ ih => exact .excluded isExcluded (ih later)
  | field included _ ih => exact .field included (ih later)
  | inlineEntered included admitted applies inner _ _ ih =>
      rw [List.append_assoc]
      exact .inlineEntered included admitted applies inner (ih later)
  | inlinePassed included admitted passes _ ih =>
      exact .inlinePassed included admitted passes (ih later)
  | spreadRepeated included known _ ih => exact .spreadRepeated included known (ih later)
  | spreadEntered included fresh found admitted applies inner _ _ ih =>
      rw [List.append_assoc]
      exact .spreadEntered included fresh found admitted applies inner (ih later)
  | spreadPassed included fresh found admitted passes _ ih =>
      exact .spreadPassed included fresh found admitted passes (ih later)

theorem exists_append (walk : Walk environment runtime (first ++ second) spread nodes after) :
    ∃ earlier between later, Walk environment runtime first spread earlier between ∧
      Walk environment runtime second between later after ∧ nodes = earlier ++ later := by
  induction first generalizing spread nodes with
  | nil => exact ⟨[], spread, nodes, .nil spread, walk, rfl⟩
  | cons head rest ih =>
      cases walk with
      | excluded isExcluded tail =>
          obtain ⟨earlier, between, later, walked, left, rfl⟩ := ih tail
          exact ⟨earlier, between, later, .excluded isExcluded walked, left, rfl⟩
      | field included tail =>
          obtain ⟨earlier, between, later, walked, left, rfl⟩ := ih tail
          exact ⟨_ :: earlier, between, later, .field included walked, left, rfl⟩
      | inlineEntered included admitted applies inner tail =>
          obtain ⟨earlier, between, later, walked, left, rfl⟩ := ih tail
          exact ⟨_ ++ earlier, between, later,
            .inlineEntered included admitted applies inner walked, left,
            (List.append_assoc _ _ _).symm⟩
      | inlinePassed included admitted passes tail =>
          obtain ⟨earlier, between, later, walked, left, rfl⟩ := ih tail
          exact ⟨earlier, between, later, .inlinePassed included admitted passes walked, left, rfl⟩
      | spreadRepeated included known tail =>
          obtain ⟨earlier, between, later, walked, left, rfl⟩ := ih tail
          exact ⟨earlier, between, later, .spreadRepeated included known walked, left, rfl⟩
      | spreadEntered included fresh found admitted applies inner tail =>
          obtain ⟨earlier, between, later, walked, left, rfl⟩ := ih tail
          exact ⟨_ ++ earlier, between, later,
            .spreadEntered included fresh found admitted applies inner walked, left,
            (List.append_assoc _ _ _).symm⟩
      | spreadPassed included fresh found admitted passes tail =>
          obtain ⟨earlier, between, later, walked, left, rfl⟩ := ih tail
          exact ⟨earlier, between, later,
            .spreadPassed included fresh found admitted passes walked, left, rfl⟩

/-- **A walk of two agendas is a walk of the first and then of the second.** -/
theorem append_iff :
    Walk environment runtime (first ++ second) spread nodes after ↔
      ∃ earlier between later, Walk environment runtime first spread earlier between ∧
        Walk environment runtime second between later after ∧ nodes = earlier ++ later := by
  refine ⟨exists_append, ?_⟩
  rintro ⟨earlier, between, later, walked, left, rfl⟩
  exact walked.append left

end Walk

/-! ## Gathering is walking and merging -/

/-- The groups after nodes were met in turn. -/
def meetAll (path : Path) (groups : FieldGroups) (nodes : List FieldNode) :
    Outcome FieldGroups :=
  nodes.foldlM (fun groups node => groups.meet path node) groups

theorem meetAll_append (path : Path) (groups : FieldGroups) (first second : List FieldNode) :
    meetAll path groups (first ++ second) =
      (meetAll path groups first).bind (fun met => meetAll path met second) := by
  rw [meetAll, List.foldlM_append]
  rfl

theorem meetAll_cons (path : Path) (groups : FieldGroups) (node : FieldNode)
    (nodes : List FieldNode) :
    meetAll path groups (node :: nodes) =
      (groups.meet path node).bind (fun met => meetAll path met nodes) := by
  rw [meetAll, List.foldlM_cons]
  rfl

variable {runtime scope type : TypeDefinition} {path : Path} {gathering : Gathering}
  {agenda : List ScopedSelection}

theorem gather_excluded {selection : Selection}
    (isExcluded : isExcluded selection.directives = true) :
    environment.gather runtime path gathering (⟨scope, selection⟩ :: agenda) =
      environment.gather runtime path gathering agenda := by
  cases selection <;>
    · rw [Selection.directives] at isExcluded
      rw [gather, if_pos isExcluded]

theorem gather_field {head : FieldHead} {span : Span} {items : List Selection}
    (included : isExcluded head.directives = false) :
    environment.gather runtime path gathering (⟨scope, .field head span items⟩ :: agenda) =
      (gathering.groups.meet path ⟨head, span, items⟩).bind
        (fun groups => environment.gather runtime path ⟨groups, gathering.spread⟩ agenda) := by
  rw [gather, if_neg (by simp [included])]
  cases gathering.groups.meet path ⟨head, span, items⟩ <;> rfl

theorem gather_inline {condition : Option String} {directives : List Directive}
    {position : Position} {span : Span} {items : List Selection}
    (included : isExcluded directives = false) :
    environment.gather runtime path gathering
        (⟨scope, .inline condition directives position span items⟩ :: agenda) =
      (environment.inlineScope condition scope path position).bind
        (fun type =>
          if type.appliesTo runtime then
            environment.gather runtime path gathering
              (ScopedSelection.inScope type items ++ agenda)
          else environment.gather runtime path gathering agenda) := by
  rw [gather, if_neg (by simp [included])]
  cases environment.inlineScope condition scope path position <;> rfl

theorem gather_repeated {name : String} {directives : List Directive} {position : Position}
    (included : isExcluded directives = false) (known : name ∈ gathering.spread) :
    environment.gather runtime path gathering
        (⟨scope, .spread name directives position⟩ :: agenda) =
      environment.gather runtime path gathering agenda := by
  rw [gather, if_neg (by simp [included])]
  split
  · rfl
  · simp_all

theorem gather_spread {name : String} {directives : List Directive} {position : Position}
    {fragment : FragmentDefinition} (included : isExcluded directives = false)
    (fresh : name ∉ gathering.spread)
    (found : environment.fragments.find? name = some fragment) :
    environment.gather runtime path gathering
        (⟨scope, .spread name directives position⟩ :: agenda) =
      (environment.resolveCondition fragment.condition scope path position).bind
        (fun type =>
          if type.appliesTo runtime then
            environment.gather runtime path ⟨gathering.groups, name :: gathering.spread⟩
              (ScopedSelection.inScope type fragment.items ++ agenda)
          else
            environment.gather runtime path ⟨gathering.groups, name :: gathering.spread⟩
              agenda) := by
  rw [gather, if_neg (by simp [included])]
  split
  · simp_all
  · split
    · simp_all
    · rename_i other found'
      obtain rfl : other = fragment := Option.some.inj (found'.symm.trans found)
      cases environment.resolveCondition other.condition scope path position <;> rfl

/-- A walk gathers its nodes. -/
theorem Walk.gather {agenda : List ScopedSelection} {spread after : List String}
    {nodes : List FieldNode} (walk : Walk environment runtime agenda spread nodes after)
    (path : Path) (groups : FieldGroups) (more : List ScopedSelection) :
    environment.gather runtime path ⟨groups, spread⟩ (agenda ++ more) =
      (meetAll path groups nodes).bind
        (fun met => environment.gather runtime path ⟨met, after⟩ more) := by
  induction walk generalizing groups more with
  | nil => rfl
  | excluded isExcluded _ ih => rw [List.cons_append, gather_excluded isExcluded, ih]
  | field included _ ih =>
      rw [List.cons_append, gather_field included, meetAll_cons]
      cases FieldGroups.meet groups path _ with
      | error error => rfl
      | ok met => exact ih met more
  | inlineEntered included admitted applies _ _ inner ih =>
      rw [List.cons_append, gather_inline included, inlineScope_eq_ok_iff.mpr admitted,
        meetAll_append]
      simp only [Except.bind, applies, if_true]
      rw [inner]
      cases meetAll path groups _ with
      | error error => rfl
      | ok met => exact ih met more
  | inlinePassed included admitted passes _ ih =>
      rw [List.cons_append, gather_inline included, inlineScope_eq_ok_iff.mpr admitted]
      simp only [Except.bind, passes, Bool.false_eq_true, if_false]
      exact ih groups more
  | spreadRepeated included known _ ih =>
      rw [List.cons_append, gather_repeated included known, ih]
  | spreadEntered included fresh found admitted applies _ _ inner ih =>
      rw [List.cons_append, gather_spread included fresh found,
        resolveCondition_eq_ok_iff.mpr admitted, meetAll_append]
      simp only [Except.bind, applies, if_true]
      rw [inner]
      cases meetAll path groups _ with
      | error error => rfl
      | ok met => exact ih met more
  | spreadPassed included fresh found admitted passes _ ih =>
      rw [List.cons_append, gather_spread included fresh found,
        resolveCondition_eq_ok_iff.mpr admitted]
      simp only [Except.bind, passes, Bool.false_eq_true, if_false]
      exact ih groups more

/-- Gathering that succeeds follows a walk. -/
theorem exists_walk_of_gather {gathering result : Gathering}
    (gathered : environment.gather runtime path gathering agenda = .ok result) :
    ∃ nodes, Walk environment runtime agenda gathering.spread nodes result.spread ∧
      meetAll path gathering.groups nodes = .ok result.groups := by
  fun_induction environment.gather runtime path gathering agenda with
  | case1 => cases gathered; exact ⟨[], .nil _, rfl⟩
  | case3 | case6 | case11 | case12 => cases gathered
  | case2 _ _ _ _ _ _ isExcluded ih | case5 _ _ _ _ _ _ _ _ isExcluded ih
  | case9 _ _ _ _ _ _ isExcluded ih =>
      obtain ⟨nodes, walk, met⟩ := ih gathered
      exact ⟨nodes, .excluded isExcluded walk, met⟩
  | case4 gathering _ head span items _ included groups found ih =>
      obtain ⟨nodes, walk, met⟩ := ih gathered
      refine ⟨_, .field (Bool.not_eq_true _ ▸ included) walk, ?_⟩
      rw [meetAll_cons, found]
      exact met
  | case7 _ _ _ _ _ _ _ _ included type resolved applies ih =>
      obtain ⟨_, walk, met⟩ := ih gathered
      obtain ⟨inner, between, nodes, inside, outside, rfl⟩ := walk.exists_append
      exact ⟨_, .inlineEntered (Bool.not_eq_true _ ▸ included) (inlineScope_eq_ok_iff.mp resolved)
        applies inside outside, met⟩
  | case8 _ _ _ _ _ _ _ _ included type resolved passes ih =>
      obtain ⟨nodes, walk, met⟩ := ih gathered
      exact ⟨nodes, .inlinePassed (Bool.not_eq_true _ ▸ included)
        (inlineScope_eq_ok_iff.mp resolved) (Bool.not_eq_true _ ▸ passes) walk, met⟩
  | case10 _ _ _ _ _ _ included known ih =>
      obtain ⟨nodes, walk, met⟩ := ih gathered
      exact ⟨nodes, .spreadRepeated (Bool.not_eq_true _ ▸ included)
        (List.contains_iff_mem.mp known) walk, met⟩
  | case13 _ _ _ _ _ _ included fresh fragment found type resolved applies ih =>
      obtain ⟨_, walk, met⟩ := ih gathered
      obtain ⟨inner, between, nodes, inside, outside, rfl⟩ := walk.exists_append
      exact ⟨_, .spreadEntered (Bool.not_eq_true _ ▸ included) (by simpa using fresh) found
        (resolveCondition_eq_ok_iff.mp resolved) applies inside outside, met⟩
  | case14 _ _ _ _ _ _ included fresh fragment found type resolved passes ih =>
      obtain ⟨nodes, walk, met⟩ := ih gathered
      exact ⟨nodes, .spreadPassed (Bool.not_eq_true _ ▸ included) (by simpa using fresh) found
        (resolveCondition_eq_ok_iff.mp resolved) (Bool.not_eq_true _ ▸ passes) walk, met⟩

/-- **Gathering is walking and then merging the nodes.** -/
theorem gather_eq_ok_iff {gathering result : Gathering} :
    environment.gather runtime path gathering agenda = .ok result ↔
      ∃ nodes, Walk environment runtime agenda gathering.spread nodes result.spread ∧
        meetAll path gathering.groups nodes = .ok result.groups := by
  refine ⟨exists_walk_of_gather, ?_⟩
  rintro ⟨nodes, walk, met⟩
  have whole := walk.gather path gathering.groups []
  rw [List.append_nil, met, Except.bind, gather] at whole
  exact whole

end Environment

end ResponseShape

import ResponseShape.OrderedMap
import ResponseShape.Visit.Document

/-!
# The enums and input objects that documents use

A visit records the enum or input object at which a variable, an argument or a field of an
object value is read, and the enum that a selected field gives. After the visits the fields of
the recorded input objects are followed, those of input objects found on the way included, so
that every type that input can contain is recorded. Following ends because input objects are
recorded once, each by the first definition of its name.
-/

set_option autoImplicit false

namespace ResponseShape

/-- The names of the enums and of the input objects in use, each once, in the order in which they
were found. -/
structure TypeUsage where
  enums : List String
  inputs : List String
  [distinctEnums : OrderedSet.Distinct enums]
  [distinctInputs : OrderedSet.Distinct inputs]

attribute [instance] TypeUsage.distinctEnums TypeUsage.distinctInputs

namespace TypeUsage

/-- Nothing is in use. -/
def empty : TypeUsage :=
  ⟨[], []⟩

/-- Records a type, if it is an enum or an input object. -/
def record (usage : TypeUsage) (type : TypeDefinition) : TypeUsage :=
  match type.kind with
  | .enum => ⟨OrderedSet.add usage.enums type.name, usage.inputs⟩
  | .inputObject => ⟨usage.enums, OrderedSet.add usage.inputs type.name⟩
  | .scalar | .object | .interface | .union => usage

/-- Records a type, if there is one. -/
def recordAny (usage : TypeUsage) (type : Option TypeDefinition) : TypeUsage :=
  type.elim usage usage.record

/-- Records a type, if it is an enum. -/
def recordEnum (usage : TypeUsage) (type : Option TypeDefinition) : TypeUsage :=
  usage.recordAny (type.filter (fun type => type.kind == .enum))

/-- Records the types of a visit: input types everywhere, result types when they are enums. -/
def observer : Observer TypeUsage where
  onVariable _ scopes usage := usage.recordAny scopes.input?
  onArgument _ scopes usage := usage.recordAny scopes.input?
  onField _ scopes usage := usage.recordEnum scopes.type?
  onObjectField _ _ scopes usage := usage.recordAny scopes.input?

/-! ## Following the fields of input objects -/

/-- Records the types of the fields of the input object of the given name. -/
def recordFields (schema : Schema) (usage : TypeUsage) (name : String) : TypeUsage :=
  ((schema.type? name).elim [] TypeDefinition.inputFields).foldl
    (fun usage field => usage.recordAny (schema.type? field.type.namedType)) usage

/-- The number of types of the schema that are not recorded as input objects. -/
def unrecorded (schema : Schema) (usage : TypeUsage) : Nat :=
  (schema.types.filter (fun type => !usage.inputs.contains type.name)).length

/-- The recorded input objects and the types that could still be recorded as such. -/
def reach (schema : Schema) (usage : TypeUsage) : Nat :=
  usage.unrecorded schema + usage.inputs.length

theorem reach_recordAny_le (schema : Schema) (usage : TypeUsage) (name : String) :
    (usage.recordAny (schema.type? name)).reach schema ≤ usage.reach schema := by
  cases found : schema.type? name with
  | none => exact Nat.le_refl _
  | some type =>
      simp only [recordAny, Option.elim, record]
      split
      · exact Nat.le_refl _
      · by_cases present : type.name ∈ usage.inputs
        · simp [OrderedSet.add, present]
        · have member : type ∈ schema.types := List.mem_of_find?_eq_some found
          have added : OrderedSet.add usage.inputs type.name = usage.inputs ++ [type.name] := by
            simp [OrderedSet.add, present]
          simp only [reach, unrecorded, added, List.length_append, List.length_singleton]
          rw [← List.countP_eq_length_filter, ← List.countP_eq_length_filter]
          obtain ⟨before, after, split⟩ := List.append_of_mem member
          rw [split]
          simp only [List.countP_append, List.countP_cons]
          have weaker : ∀ types : List TypeDefinition,
              types.countP (fun other => !(usage.inputs ++ [type.name]).contains other.name) ≤
                types.countP (fun other => !usage.inputs.contains other.name) := by
            intro types
            refine List.countP_mono_left ?_
            intro other _ absent
            simp only [List.contains_eq_mem, List.mem_append, Bool.not_eq_true',
              decide_eq_false_iff_not, not_or] at absent ⊢
            exact absent.1
          have first := weaker before
          have last := weaker after
          simp only [List.contains_eq_mem, List.mem_append, List.mem_singleton, or_true,
            decide_true, Bool.not_true, Bool.false_eq_true, if_false, present, decide_false,
            Bool.not_false, if_true] at first last ⊢
          omega
      all_goals exact Nat.le_refl _

theorem reach_recordFields_le (schema : Schema) (usage : TypeUsage) (name : String) :
    (usage.recordFields schema name).reach schema ≤ usage.reach schema := by
  unfold recordFields
  generalize (schema.type? name).elim [] TypeDefinition.inputFields = fields
  induction fields generalizing usage with
  | nil => exact Nat.le_refl _
  | cons field rest ih =>
      exact Nat.le_trans (ih _) (reach_recordAny_le schema usage field.type.namedType)

/-- Follows the recorded input objects from the given place on. -/
def followFrom (schema : Schema) (usage : TypeUsage) (place : Nat) : TypeUsage :=
  match _ : usage.inputs[place]? with
  | none => usage
  | some name => followFrom schema (usage.recordFields schema name) (place + 1)
termination_by usage.reach schema - place
decreasing_by
  have bound := reach_recordFields_le schema usage name
  have inside : place < usage.inputs.length := (List.getElem?_eq_some_iff.mp ‹_›).1
  simp only [reach] at bound ⊢
  omega

/-- The types that the documents use. -/
def ofDocuments (schema : Schema) (documents : List Document) : TypeUsage :=
  (documents.foldl (observer.notesOn schema) empty).followFrom schema 0

/-! ## Definitions in use -/

/-- The definitions of the enums in use. -/
def enumTypes (usage : TypeUsage) (schema : Schema) : List TypeDefinition :=
  usage.enums.filterMap
    (fun name => (schema.type? name).filter (fun type => type.kind == .enum))

/-- The definitions of the input objects in use. -/
def inputTypes (usage : TypeUsage) (schema : Schema) : List TypeDefinition :=
  usage.inputs.filterMap
    (fun name => (schema.type? name).filter (fun type => type.kind == .inputObject))

end TypeUsage

end ResponseShape

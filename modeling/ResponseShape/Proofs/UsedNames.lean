import ResponseShape.Proofs.Children
import ResponseShape.Proofs.Visiting
import ResponseShape.Usage.TypeUsage

/-!
# Names of types in use

The types that a visit has in effect are found by their names (`TypeScopes.Known`), so what is
recorded of them can be looked up again. Each name of an enum in use is the name of an enum of the
schema; the same holds of the input objects (`TypeUsage.known_ofDocuments`). So the definitions of
the types in use have the names in use, in their order (`TypeUsage.Known.map_name_enumTypes`).
-/

set_option autoImplicit false

namespace ResponseShape

variable {schema : Schema}

/-! ## Types in effect -/

/-- The types of constructs and of input values are found by their names. -/
structure TypeScopes.Known (schema : Schema) (scopes : TypeScopes) : Prop where
  types : ∀ type, some type ∈ scopes.types → schema.type? type.name = some type
  inputs : ∀ type, some type ∈ scopes.inputs → schema.type? type.name = some type

namespace TypeScopes

theorem known_empty : Known schema empty :=
  ⟨nofun, nofun⟩

/-- A type that is found by some name is found by its own. -/
theorem known_of_cons {name : Option String} {known : List (Option TypeDefinition)}
    (before : ∀ type, some type ∈ known → schema.type? type.name = some type) :
    ∀ type, some type ∈ name.bind schema.type? :: known → schema.type? type.name = some type := by
  intro type member
  rcases List.mem_cons.mp member with here | earlier
  · obtain ⟨name, _, found⟩ := Option.bind_eq_some_iff.mp here.symm
    exact Schema.name_of_type? found ▸ found
  · exact before type earlier

theorem closedInside_known : ClosedInside schema (Known schema) where
  withType _ _ here := ⟨known_of_cons here.types, here.inputs⟩
  withParent _ here := ⟨here.types, here.inputs⟩
  withInput scopes type here := by
    have found : ∀ other, some other ∈ (type.map TypeRef.namedType).bind schema.type? ::
        scopes.inputs → schema.type? other.name = some other := known_of_cons here.inputs
    rw [Option.bind_map] at found
    exact ⟨here.types, found⟩

theorem mem_of_head?_join {known : List (Option TypeDefinition)} {type : TypeDefinition}
    (here : known.head?.join = some type) : some type ∈ known :=
  List.mem_of_head? (Option.join_eq_some_iff.mp here)

theorem Known.type? {scopes : TypeScopes} (known : Known schema scopes) :
    ∀ type, scopes.type? = some type → schema.type? type.name = some type :=
  fun type here => known.types type (mem_of_head?_join here)

theorem Known.input? {scopes : TypeScopes} (known : Known schema scopes) :
    ∀ type, scopes.input? = some type → schema.type? type.name = some type :=
  fun type here => known.inputs type (mem_of_head?_join here)

end TypeScopes

/-! ## Recorded names -/

/-- The names are the names of types of the kind. -/
def Schema.Names (schema : Schema) (kind : TypeKind) (names : List String) : Prop :=
  ∀ name ∈ names, ∃ type, schema.type? name = some type ∧ type.kind = kind

theorem Schema.Names.add {kind : TypeKind} {names : List String} (before : schema.Names kind names)
    {type : TypeDefinition} (known : schema.type? type.name = some type)
    (isKind : type.kind = kind) : schema.Names kind (OrderedSet.add names type.name) := by
  intro name member
  rcases OrderedSet.mem_add.mp member with earlier | rfl
  · exact before name earlier
  · exact ⟨type, known, isKind⟩

/-- The definitions of named types have the names. -/
theorem Schema.Names.map_name {kind : TypeKind} {names : List String}
    (known : schema.Names kind names) :
    (names.filterMap (fun name => (schema.type? name).filter (fun type => type.kind == kind))).map
      TypeDefinition.name = names := by
  induction names with
  | nil => rfl
  | cons name rest ih =>
      obtain ⟨type, here, isKind⟩ := known name List.mem_cons_self
      have kept : (schema.type? name).filter (fun type => type.kind == kind) = some type :=
        Option.filter_eq_some_iff.mpr ⟨here, beq_iff_eq.mpr isKind⟩
      simp only [List.filterMap_cons, kept, List.map_cons, Schema.name_of_type? here,
        ih fun other member => known other (List.mem_cons_of_mem _ member)]

namespace TypeUsage

/-- The names in use are those of enums and of input objects. -/
structure Known (schema : Schema) (usage : TypeUsage) : Prop where
  enums : schema.Names .enum usage.enums
  inputs : schema.Names .inputObject usage.inputs

variable {usage : TypeUsage}

theorem known_empty : Known schema empty :=
  ⟨nofun, nofun⟩

theorem Known.record (before : Known schema usage) {type : TypeDefinition}
    (known : schema.type? type.name = some type) : Known schema (usage.record type) := by
  rw [TypeUsage.record]
  cases kind : type.kind with
  | enum => exact ⟨before.enums.add known kind, before.inputs⟩
  | inputObject => exact ⟨before.enums, before.inputs.add known kind⟩
  | scalar | object | interface | union => exact before

theorem Known.recordAny (before : Known schema usage) {type : Option TypeDefinition}
    (known : ∀ here, type = some here → schema.type? here.name = some here) :
    Known schema (usage.recordAny type) := by
  cases type with
  | none => exact before
  | some type => exact before.record (known type rfl)

theorem keeps_known : observer.Keeps schema (TypeScopes.Known schema) (Known schema) where
  closed := TypeScopes.closedInside_known
  onVariable _ _ _ known before := before.recordAny known.input?
  onArgument _ _ _ known before := before.recordAny known.input?
  onField _ _ _ known before := before.recordAny fun type here =>
    known.type? type (Option.filter_eq_some_iff.mp here).1
  onObjectField _ _ _ _ known before := before.recordAny known.input?

theorem Known.recordFields (before : Known schema usage) (name : String) :
    Known schema (usage.recordFields schema name) :=
  related_foldl (R := fun before after => Known schema before → Known schema after)
    (fun _ => id) (fun first second => second ∘ first)
    (fun _ (_ : InputValueDefinition) before => before.recordAny fun _ found =>
      Schema.name_of_type? found ▸ found) _ usage before

theorem Known.followFrom (place : Nat) (before : Known schema usage) :
    Known schema (usage.followFrom schema place) := by
  induction usage, place using followFrom.induct schema with
  | case1 usage place last =>
      rw [TypeUsage.followFrom]
      split
      · exact before
      · simp_all
  | case2 usage place name here ih =>
      rw [TypeUsage.followFrom]
      split
      · exact before
      · rename_i other found
        obtain rfl : other = name := Option.some.inj (found.symm.trans here)
        exact ih (before.recordFields other)

/-- **The names in use are names of enums and of input objects of the schema.** -/
theorem known_ofDocuments (schema : Schema) (documents : List Document) :
    Known schema (ofDocuments schema documents) := by
  refine Known.followFrom 0 ?_
  refine related_foldl (R := fun before after => Known schema before → Known schema after)
    (fun _ => id) (fun first second => second ∘ first) (fun noted document => ?_) documents empty
    known_empty
  exact (Observer.keeps_visitDocument keeps_known document ⟨.empty, noted⟩).noted
    TypeScopes.known_empty

namespace Known

/-- **The definitions of the enums in use have the names in use, in their order.** -/
theorem map_name_enumTypes (known : Known schema usage) :
    (usage.enumTypes schema).map TypeDefinition.name = usage.enums :=
  known.enums.map_name

/-- **The definitions of the input objects in use have the names in use, in their order.** -/
theorem map_name_inputTypes (known : Known schema usage) :
    (usage.inputTypes schema).map TypeDefinition.name = usage.inputs :=
  known.inputs.map_name

end Known

end TypeUsage

end ResponseShape

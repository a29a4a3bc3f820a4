import ResponseShape.Proofs.RepeatedNames

/-!
# How the types in use are marked

A directive that shapes models is looked for at one element at a time: at a type, at a value of an
enum or at a field of an input object. Looking for one directive at one element is a `Marking`. It
is well-formed when the directive stands there at most once and gives a string for its argument.

Building a model reads the markings of its type in a fixed order (`TypeDefinition.enumMarkings`,
`TypeDefinition.inputMarkings`). It fails for the first that is ill-formed, and if there is none,
the model is what the markings say (`Marking.Reads`). A name is allotted on the way, but no model is
added before all markings of its type are read. So adding the models of the types in use succeeds
exactly when all their markings are well-formed, and a failure leaves the models that were there and
those of the types before the one that is marked wrongly (`Catalog.addsMarked_ofUsage`).
-/

set_option autoImplicit false

namespace ResponseShape

/-! ## Markings -/

namespace Hint

variable {hint : Hint} {directive : Directive}

/-- The directives of the hint's name. -/
def among (hint : Hint) (directives : List Directive) : List Directive :=
  directives.filter (fun directive => directive.name == hint.name)

/-- The string that the first directive of the hint's name gives. -/
def text? (hint : Hint) (directives : List Directive) : Option String :=
  (hint.among directives).head?.bind hint.textOf?

/-- A directive gives a string when one of its arguments has the right name and is a string. -/
theorem isSome_textOf?_iff : (hint.textOf? directive).isSome = true ↔
    ∃ text, ⟨hint.argument, .string text⟩ ∈ directive.arguments := by
  rw [textOf?, List.findSome?_isSome_iff]
  constructor
  · rintro ⟨⟨name, value⟩, member, here⟩
    cases value with
    | string text =>
        by_cases named : name = hint.argument
        · exact ⟨text, named ▸ member⟩
        · simp [named] at here
    | _ => cases here
  · rintro ⟨text, member⟩
    exact ⟨_, member, by simp⟩

end Hint

/-- A hint is looked for among the directives of an element. The location says in words which
element it is. -/
structure Marking where
  hint : Hint
  directives : List Directive
  location : String

namespace Marking

variable {marking : Marking}

/-- The directives that give the hint. -/
def found (marking : Marking) : List Directive :=
  marking.hint.among marking.directives

/-- The hint is given at most once, and with a string for its argument. -/
structure WellFormed (marking : Marking) : Prop where
  once : marking.found.length ≤ 1
  told : ∀ directive ∈ marking.found,
    ∃ text, ⟨marking.hint.argument, .string text⟩ ∈ directive.arguments

/-- What is wrong with a marking that is not well-formed. -/
def error (marking : Marking) : AnalysisError :=
  if 1 < marking.found.length then .duplicateDirective marking.hint.name marking.location
  else .invalidDirectiveArgument marking.hint.name marking.hint.argument marking.location

/-- What is read at the element. -/
def read (marking : Marking) : Outcome (Option String) :=
  marking.hint.read marking.directives marking.location

/-- What the element says, if its marking is well-formed. -/
def text? (marking : Marking) : Option String :=
  marking.hint.text? marking.directives

theorem read_of_nil (absent : marking.found = []) : marking.read = .ok none := by
  rw [found, Hint.among] at absent
  rw [read, Hint.read, Hint.find?, absent]
  rfl

theorem read_of_singleton {directive : Directive} (one : marking.found = [directive]) :
    marking.read = (marking.hint.textOf? directive).elim (.error marking.error)
      (fun text => .ok (some text)) := by
  have error : marking.error =
      .invalidDirectiveArgument marking.hint.name marking.hint.argument marking.location := by
    rw [Marking.error, one]
    exact if_neg (Nat.lt_irrefl 1)
  rw [found, Hint.among] at one
  rw [read, Hint.read, Hint.find?, one, error]
  cases given : marking.hint.textOf? directive with
  | none =>
      simp only [bind, Except.bind, given]
      rfl
  | some text =>
      simp only [bind, Except.bind, given]
      rfl

theorem read_of_repeated (repeated : 1 < marking.found.length) :
    marking.read = .error marking.error := by
  rw [error, if_pos repeated]
  rw [found, Hint.among] at repeated
  rw [read, Hint.read, Hint.find?]
  split
  next none => simp [none] at repeated
  next one => simp [one] at repeated
  next => rfl

/-- **A well-formed marking is read as what it says.** -/
theorem read_of_wellFormed (wellFormed : marking.WellFormed) :
    marking.read = .ok marking.text? := by
  obtain ⟨once, told⟩ := wellFormed
  have given : marking.text? = marking.found.head?.bind marking.hint.textOf? := rfl
  match here : marking.found with
  | [] =>
      rw [read_of_nil here, given, here]
      rfl
  | [directive] =>
      have isString := Hint.isSome_textOf?_iff.mpr (told directive (here ▸ List.mem_cons_self))
      obtain ⟨text, isText⟩ := Option.isSome_iff_exists.mp isString
      rw [read_of_singleton here, isText, given, here, List.head?_cons, Option.bind_some, isText]
      rfl
  | _ :: _ :: _ => simp [here] at once

/-- **Any other marking fails with what is wrong with it.** -/
theorem read_of_not_wellFormed (ill : ¬ marking.WellFormed) :
    marking.read = .error marking.error := by
  match here : marking.found with
  | [] => exact absurd ⟨by simp [here], by simp [here]⟩ ill
  | [directive] =>
      rw [read_of_singleton here]
      cases given : marking.hint.textOf? directive with
      | none => rfl
      | some text =>
          refine absurd ⟨by simp [here], fun other member => ?_⟩ ill
          rw [here, List.mem_singleton] at member
          exact Hint.isSome_textOf?_iff.mp (by rw [member, given]; rfl)
  | _ :: _ :: _ => exact read_of_repeated (by simp [here])

/-! ## Reading markings in turn -/

/-- The outcome of reading the markings in turn: the value if all are well-formed, and otherwise
what is wrong with the first that is not. -/
inductive Reads {α : Type} (value : α) : List Marking → Outcome α → Prop where
  | done : Reads value [] (.ok value)
  | next {marking : Marking} {rest : List Marking} {outcome : Outcome α} :
      marking.WellFormed → Reads value rest outcome → Reads value (marking :: rest) outcome
  | fault {marking : Marking} {rest : List Marking} :
      ¬ marking.WellFormed → Reads value (marking :: rest) (.error marking.error)

/-- The first marking that is not well-formed is wrong in this way. -/
def FirstFault (markings : List Marking) (error : AnalysisError) : Prop :=
  ∃ before marking after, markings = before ++ marking :: after ∧
    (∀ earlier ∈ before, earlier.WellFormed) ∧ ¬ marking.WellFormed ∧ error = marking.error

namespace Reads

variable {α β : Type} {value : α} {value' : β} {markings later : List Marking}
  {outcome : Outcome α}

theorem of_read (marking : Marking) : Reads marking.text? [marking] marking.read := by
  by_cases wellFormed : marking.WellFormed
  · rw [read_of_wellFormed wellFormed]
    exact .next wellFormed .done
  · rw [read_of_not_wellFormed wellFormed]
    exact .fault wellFormed

/-- **Markings are read one computation after the other.** -/
theorem bind {next : α → Outcome β} (reads : Reads value markings outcome)
    (readsLater : Reads value' later (next value)) :
    Reads value' (markings ++ later) (outcome >>= next) := by
  induction reads with
  | done => exact readsLater
  | next wellFormed _ ih => exact .next wellFormed ih
  | fault ill => exact .fault ill

theorem map (change : α → β) (reads : Reads value markings outcome) :
    Reads (change value) markings (outcome.map change) := by
  induction reads with
  | done => exact .done
  | next wellFormed _ ih => exact .next wellFormed ih
  | fault ill => exact .fault ill

theorem mapM {compute : α → Outcome β} {describe : α → β} {marks : α → List Marking}
    (each : ∀ item, Reads (describe item) (marks item) (compute item)) (items : List α) :
    Reads (items.map describe) (items.flatMap marks) (items.mapM compute) := by
  induction items with
  | nil => exact .done
  | cons item rest ih =>
      rw [List.mapM_cons, List.flatMap_cons]
      refine (each item).bind ?_
      rw [← List.append_nil (rest.flatMap marks)]
      exact ih.bind .done

/-- **Reading ends with the value and no fault, or with the first fault.** -/
theorem cases (reads : Reads value markings outcome) :
    (∀ marking ∈ markings, marking.WellFormed) ∧ outcome = .ok value ∨
      ∃ error, FirstFault markings error ∧ outcome = .error error := by
  induction reads with
  | done => exact .inl ⟨nofun, rfl⟩
  | @next marking rest outcome wellFormed _ ih =>
      rcases ih with ⟨all, ok⟩ | ⟨error, ⟨before, first, after, split, earlier, ill⟩, failed⟩
      · exact .inl ⟨List.forall_mem_cons.mpr ⟨wellFormed, all⟩, ok⟩
      · refine .inr ⟨error, ⟨marking :: before, first, after, ?_, ?_, ill⟩, failed⟩
        · rw [split, List.cons_append]
        · exact List.forall_mem_cons.mpr ⟨wellFormed, earlier⟩
  | @fault marking rest ill =>
      exact .inr ⟨marking.error, ⟨[], marking, rest, rfl, nofun, ill, rfl⟩, rfl⟩

end Reads

theorem FirstFault.not_forall {markings : List Marking} {error : AnalysisError}
    (fault : FirstFault markings error) : ¬ ∀ marking ∈ markings, marking.WellFormed := by
  obtain ⟨before, marking, after, rfl, _, ill, _⟩ := fault
  exact fun all => ill (all marking (List.mem_append_right _ List.mem_cons_self))

end Marking

/-! ## Models of marked types -/

namespace TypeDefinition

open Marking (Reads)

/-- The class name that an element of the name has when it is marked so. -/
def classNameOf (name : String) (directives : List Directive) : String :=
  Text.className ((Hint.rename.text? directives).getD name)

theorem reads_elementName (name : String) (directives : List Directive) (location : String) :
    Reads (classNameOf name directives) [⟨.rename, directives, location⟩]
      (elementName name directives location) :=
  (Reads.of_read ⟨.rename, directives, location⟩).bind .done

/-- The markings of a value of the enum: its name is read first, then its literal. -/
def valueMarkings (type : TypeDefinition) (value : EnumValueDefinition) : List Marking :=
  let location := "enum value " ++ type.name ++ "." ++ value.name
  [⟨.rename, value.directives, location⟩, ⟨.enumValue, value.directives, location⟩]

/-- The markings of the enum and of its values, in the order in which they are read. -/
def enumMarkings (type : TypeDefinition) : List Marking :=
  let location := "enum " ++ type.name
  ⟨.rename, type.directives, location⟩ :: (type.enumValues.flatMap type.valueMarkings ++
    [⟨.serializationType, type.directives, location⟩])

/-- The markings of a field of the input object. -/
def fieldMarkings (type : TypeDefinition) (field : InputValueDefinition) : List Marking :=
  [⟨.rename, field.directives, "input field " ++ type.name ++ "." ++ field.name⟩]

/-- The markings of the input object and of its fields, in the order in which they are read. -/
def inputMarkings (type : TypeDefinition) : List Marking :=
  ⟨.rename, type.directives, "input " ++ type.name⟩ :: type.inputFields.flatMap type.fieldMarkings

/-- What the model of a value of an enum says. -/
def describeValue (value : EnumValueDefinition) : EnumValueModel where
  name := classNameOf value.name value.directives
  value := value.name
  description := value.description
  explicitValue := Hint.enumValue.text? value.directives

/-- What the model of the enum says, under the given name. The values keep their order. -/
def describeEnum (type : TypeDefinition) (name : String) : EnumModel where
  name := name
  description := type.description
  schemaType := type.name
  serializationType := Hint.serializationType.text? type.directives
  values := type.enumValues.map describeValue

/-- What the model of a field of an input object says. -/
def describeField (field : InputValueDefinition) : InputFieldModel where
  name := classNameOf field.name field.directives
  fieldName := field.name
  description := field.description
  fieldType := field.type.render

/-- What the model of the input object says, under the given name. The fields keep their order. -/
def describeInput (type : TypeDefinition) (name : String) : InputModel where
  name := name
  description := type.description
  schemaType := type.name
  fields := type.inputFields.map describeField

theorem reads_enumValueModel (type : TypeDefinition) (value : EnumValueDefinition) :
    Reads (describeValue value) (type.valueMarkings value) (type.enumValueModel value) :=
  (reads_elementName value.name value.directives _).bind
    ((Reads.of_read ⟨.enumValue, value.directives, _⟩).bind .done)

theorem reads_inputFieldModel (type : TypeDefinition) (field : InputValueDefinition) :
    Reads (describeField field) (type.fieldMarkings field) (type.inputFieldModel field) :=
  (reads_elementName field.name field.directives _).bind .done

theorem reads_enumModel (type : TypeDefinition) (name : String) :
    Reads (type.describeEnum name) (type.enumMarkings.tail) (type.enumModel name) :=
  (Reads.mapM type.reads_enumValueModel type.enumValues).bind
    ((Reads.of_read ⟨.serializationType, type.directives, _⟩).bind .done)

theorem reads_inputModel (type : TypeDefinition) (name : String) :
    Reads (type.describeInput name) (type.inputMarkings.tail) (type.inputModel name) := by
  rw [← List.append_nil type.inputMarkings.tail]
  exact (Reads.mapM type.reads_inputFieldModel type.inputFields).bind .done

end TypeDefinition

/-! ## Adding the models of marked types -/

namespace Catalog

open Marking (Reads FirstFault)

variable {schema : Schema} {catalog later : Catalog} {avoided : List String} {kind : TypeKind}
  {build : Catalog → TypeDefinition → Cataloged TypeModel} {type : TypeDefinition}
  {types : List TypeDefinition} {markings : TypeDefinition → List Marking}
  {describe : TypeDefinition → String → TypeModel}

/-- The builder reads the markings of a type in turn and gives the model that they describe. It may
give names, but it adds no model. -/
structure DescribesTypes (build : Catalog → TypeDefinition → Cataloged TypeModel)
    (markings : TypeDefinition → List Marking) (describe : TypeDefinition → String → TypeModel) :
    Prop where
  reads : ∀ catalog type, ∃ name,
    Reads (describe type name) (markings type) (build catalog type).1
  models : ∀ catalog type, (build catalog type).2.models = catalog.models
  allots : ∀ (catalog : Catalog) type, ∃ owners, catalog.Allots owners (build catalog type).2
  named : ∀ type name, (describe type name).name = name

section BuildNamed

variable {α : Type} (catalog : Catalog) (avoided : List String) (type : TypeDefinition)
  (location : String) (compute : String → Outcome α)

/-- The name of the type is read first. -/
theorem reads_buildNamed {describe : String → α} {inner : List Marking}
    (reads : ∀ name, Reads (describe name) inner (compute name)) :
    ∃ name, Reads (describe name) (⟨.rename, type.directives, location⟩ :: inner)
      (catalog.buildNamed avoided type location compute).1 := by
  have first := TypeDefinition.reads_elementName type.name type.directives location
  rw [buildNamed]
  generalize TypeDefinition.elementName type.name type.directives location = proposed at first
  cases first with
  | next wellFormed rest =>
      cases rest
      exact ⟨_, .next wellFormed (reads _)⟩
  | fault ill => exact ⟨type.name, .fault ill⟩

theorem models_buildNamed :
    (catalog.buildNamed avoided type location compute).2.models = catalog.models := by
  rw [buildNamed]
  split
  · rfl
  · exact catalog.models_allot _ _ avoided

theorem exists_allots_buildNamed :
    ∃ owners, catalog.Allots owners (catalog.buildNamed avoided type location compute).2 := by
  rw [buildNamed]
  split
  · exact ⟨[], .refl catalog⟩
  · exact ⟨_, catalog.allots_allot _ _ avoided⟩

end BuildNamed

theorem describesTypes_buildEnum (avoided : List String) :
    DescribesTypes (fun catalog type => catalog.buildEnum avoided type)
      TypeDefinition.enumMarkings (fun type name => .enum (type.describeEnum name)) where
  reads catalog type := reads_buildNamed catalog avoided type _ _
    (fun name => (type.reads_enumModel name).map TypeModel.enum)
  models catalog type := models_buildNamed catalog avoided type _ _
  allots catalog type := exists_allots_buildNamed catalog avoided type _ _
  named _ _ := rfl

theorem describesTypes_buildInput (avoided : List String) :
    DescribesTypes (fun catalog type => catalog.buildInput avoided type)
      TypeDefinition.inputMarkings (fun type name => .input (type.describeInput name)) where
  reads catalog type := reads_buildNamed catalog avoided type _ _
    (fun name => (type.reads_inputModel name).map TypeModel.input)
  models catalog type := models_buildNamed catalog avoided type _ _
  allots catalog type := exists_allots_buildNamed catalog avoided type _ _
  named _ _ := rfl

/-- The later catalog has the models of the types behind those of the earlier one: one model for
each type, in their order, which describes the type and has the name of the type. -/
def Extends (describe : TypeDefinition → String → TypeModel) (earlier : Catalog)
    (types : List TypeDefinition) (later : Catalog) : Prop :=
  ∃ added, later.models.entries = earlier.models.entries ++ added ∧
    List.Forall₂ (fun (type : TypeDefinition) (entry : String × TypeModel) =>
      later.nameOf? (.schemaType type.name) = some entry.1 ∧ entry.2 = describe type entry.1)
      types added

theorem add_allotments {model : TypeModel} (adding : catalog.add model = .ok later) :
    later.allotments = catalog.allotments := by
  obtain ⟨_, rfl⟩ := add_eq_ok_iff.mp adding
  rfl

theorem Extends.nil (describe : TypeDefinition → String → TypeModel)
    (models : later.models = catalog.models) : catalog.Extends describe [] later :=
  ⟨[], by rw [models, List.append_nil], .nil⟩

/-- The model of the first type is added, then those of the others. -/
theorem Extends.cons {between next : Catalog} {name : String}
    (models : between.models = catalog.models) (key : (describe type name).name = name)
    (adding : between.add (describe type name) = .ok next)
    (named : later.nameOf? (.schemaType type.name) = some name)
    (rest : next.Extends describe types later) :
    catalog.Extends describe (type :: types) later := by
  obtain ⟨added, entries, related⟩ := rest
  obtain ⟨absent, rfl⟩ := add_eq_ok_iff.mp adding
  refine ⟨(name, describe type name) :: added, ?_, .cons ⟨named, rfl⟩ related⟩
  rw [entries, OrderedMap.entries_insert_of_absent absent, key, models, List.append_assoc,
    List.singleton_append]

/-- Adding models in turn gives names and takes none away, also when it fails. -/
theorem exists_allots_addBuilt (describes : DescribesTypes build markings describe)
    (catalog : Catalog) (types : List TypeDefinition) :
    ∃ owners, catalog.Allots owners (addBuilt build catalog types).2 := by
  induction types generalizing catalog with
  | nil => exact ⟨[], .refl catalog⟩
  | cons type rest ih =>
      obtain ⟨owners, first⟩ := describes.allots catalog type
      rw [addBuilt]
      cases built : build catalog type with
      | mk result between =>
          rw [built] at first
          cases result with
          | error error => exact ⟨owners, first⟩
          | ok model =>
              cases adding : between.add model with
              | error error =>
                  simp only [adding]
                  exact ⟨owners, first⟩
              | ok next =>
                  obtain ⟨others, later⟩ := ih next
                  simp only [adding]
                  exact ⟨owners ++ others,
                    (first.of_allotments (add_allotments adding)).trans later⟩

/-- **Models are added up to the first type that is marked wrongly.** -/
theorem exists_extends_addBuilt (describes : DescribesTypes build markings describe)
    (builds : BuildsTypes build kind) (names : NamesTypes build)
    (kinds : ∀ type ∈ types, type.kind = kind) (distinct : (types.map TypeDefinition.name).Nodup)
    (unnamed : ∀ owner ∈ ownersOf types, catalog.nameOf? owner = none)
    (given : ∀ key ∈ catalog.models.keys, key ∈ catalog.given) :
    ∃ before after, types = before ++ after ∧
      (∀ type ∈ before, ∀ marking ∈ markings type, marking.WellFormed) ∧
      catalog.Extends describe before (addBuilt build catalog types).2 ∧
      (after = [] ∧ (addBuilt build catalog types).1 = .ok () ∨
        ∃ type rest error, after = type :: rest ∧ FirstFault (markings type) error ∧
          (addBuilt build catalog types).1 = .error error) := by
  induction types generalizing catalog with
  | nil => exact ⟨[], [], rfl, nofun, .nil describe rfl, .inl ⟨rfl, rfl⟩⟩
  | cons type rest ih =>
      rw [List.map_cons, List.nodup_cons] at distinct
      obtain ⟨name, reads⟩ := describes.reads catalog type
      have models := describes.models catalog type
      have isKind := kinds type List.mem_cons_self
      rw [addBuilt]
      cases built : build catalog type with
      | mk result between =>
          rw [built] at reads models
          rcases reads.cases with ⟨well, rfl⟩ | ⟨error, fault, rfl⟩
          · obtain ⟨next, adding, allots, givenNext⟩ := exists_add_of_unnamed builds names isKind
              (unnamed _ List.mem_cons_self) given built
            obtain ⟨before, after, rfl, wellRest, extended, ends⟩ := ih
              (fun other member => kinds other (List.mem_cons_of_mem _ member)) distinct.2
              (allots.unnamed_ownersOf distinct.1 fun owner member =>
                unnamed owner (List.mem_cons_of_mem _ member)) givenNext
            -- the name that was given to the type is still its name at the end
            obtain ⟨_, _, named, _⟩ := builds catalog between type _ isKind built
            rw [describes.named, ← nameOf?_of_allotments (add_allotments adding)] at named
            obtain ⟨_, kept⟩ := exists_allots_addBuilt describes next (before ++ after)
            simp only [adding]
            exact ⟨type :: before, after, rfl, List.forall_mem_cons.mpr ⟨well, wellRest⟩,
              .cons models (describes.named type name) adding (kept.kept _ name named) extended,
              ends⟩
          · exact ⟨[], type :: rest, rfl, nofun, .nil describe models,
              .inr ⟨type, rest, error, rfl, fault, rfl⟩⟩

/-- What adding the models of types in turn comes to. It succeeds exactly when the markings of all
types are well-formed, and then every type has its model. Otherwise it fails for the first marking
of the first type that is marked wrongly, and the types before this one have their models. -/
structure AddsMarked (markings : TypeDefinition → List Marking)
    (describe : TypeDefinition → String → TypeModel) (catalog : Catalog)
    (types : List TypeDefinition) (done : Cataloged Unit) : Prop where
  succeeds_iff : done.1 = .ok () ↔ ∀ type ∈ types, ∀ marking ∈ markings type, marking.WellFormed
  succeeds : done.1 = .ok () → catalog.Extends describe types done.2
  fails : ∀ error, done.1 = .error error → ∃ before type after, types = before ++ type :: after ∧
    (∀ earlier ∈ before, ∀ marking ∈ markings earlier, marking.WellFormed) ∧
    FirstFault (markings type) error ∧ catalog.Extends describe before done.2

theorem addsMarked_addBuilt (describes : DescribesTypes build markings describe)
    (builds : BuildsTypes build kind) (names : NamesTypes build)
    (kinds : ∀ type ∈ types, type.kind = kind) (distinct : (types.map TypeDefinition.name).Nodup)
    (unnamed : ∀ owner ∈ ownersOf types, catalog.nameOf? owner = none)
    (given : ∀ key ∈ catalog.models.keys, key ∈ catalog.given) :
    AddsMarked markings describe catalog types (addBuilt build catalog types) := by
  obtain ⟨before, after, rfl, well, extended, ends⟩ :=
    exists_extends_addBuilt describes builds names kinds distinct unnamed given
  rcases ends with ⟨rfl, ok⟩ | ⟨type, rest, error, rfl, fault, failed⟩
  · rw [List.append_nil] at ok extended ⊢
    exact ⟨⟨fun _ => well, fun _ => ok⟩, fun _ => extended, fun error failed => by
      rw [ok] at failed
      cases failed⟩
  · refine ⟨⟨fun ok => ?_, fun all => ?_⟩, fun ok => ?_, fun other here => ?_⟩
    · rw [failed] at ok
      cases ok
    · exact absurd (all type (List.mem_append_right _ List.mem_cons_self)) fault.not_forall
    · rw [failed] at ok
      cases ok
    · obtain rfl := Except.error.inj (failed.symm.trans here)
      exact ⟨before, type, rest, rfl, well, fault, extended⟩

/-- Different names in use are names of different types. -/
theorem nodup_names_filterMap {names : List String} (distinct : names.Nodup) (kind : TypeKind) :
    ((names.filterMap (fun name => (schema.type? name).filter (fun type => type.kind == kind))).map
      TypeDefinition.name).Nodup := by
  have named : ∀ name type, (schema.type? name).filter (fun type => type.kind == kind) = some type →
      type.name = name :=
    fun name type found => Schema.name_of_type? (Option.filter_eq_some_iff.mp found).1
  rw [List.map_filterMap]
  refine distinct.filterMap fun name other shared isName isOther => ?_
  obtain ⟨type, found, rfl⟩ := Option.map_eq_some_iff.mp isName
  obtain ⟨type', found', same⟩ := Option.map_eq_some_iff.mp isOther
  rw [← named name type found, ← named other type' found', same]

/-- **Directives are checked exactly, and a failure leaves the models that were added before.** -/
theorem addsMarked_ofUsage (schema : Schema) (usage : TypeUsage) (catalog : Catalog)
    (avoided : List String) (given : ∀ key ∈ catalog.models.keys, key ∈ catalog.given) :
    ((∀ type ∈ usage.enumTypes schema, catalog.nameOf? (.schemaType type.name) = none) →
      AddsMarked TypeDefinition.enumMarkings (fun type name => .enum (type.describeEnum name))
        catalog (usage.enumTypes schema) (catalog.addEnums schema usage avoided)) ∧
    ((∀ type ∈ usage.inputTypes schema, catalog.nameOf? (.schemaType type.name) = none) →
      AddsMarked TypeDefinition.inputMarkings (fun type name => .input (type.describeInput name))
        catalog (usage.inputTypes schema) (catalog.addInputs schema usage avoided)) := by
  refine ⟨fun unnamed => ?_, fun unnamed => ?_⟩
  · exact addsMarked_addBuilt (describesTypes_buildEnum avoided) (buildsTypes_buildEnum avoided)
      (namesTypes_buildEnum avoided) (fun type member => (known_of_mem_filterMap type member).2)
      (nodup_names_filterMap usage.distinctEnums.nodup .enum) (List.forall_mem_map.mpr unnamed) given
  · exact addsMarked_addBuilt (describesTypes_buildInput avoided) (buildsTypes_buildInput avoided)
      (namesTypes_buildInput avoided) (fun type member => (known_of_mem_filterMap type member).2)
      (nodup_names_filterMap usage.distinctInputs.nodup .inputObject) (List.forall_mem_map.mpr unnamed) given

end Catalog

/-! ## A value that is marked twice -/

namespace Sample

/-- A directive with one string argument. -/
def hinted (name argument text : String) : Directive :=
  ⟨name, [⟨argument, .string text⟩], ⟨1, 1⟩⟩

/-- An enum with a value that has another name, and an enum with a value that is given two literals
and with a serialization type that is not a string. -/
def glossSchema : Schema :=
  ⟨[.type ⟨"Gloss", none, [], .enum [⟨"MATT", none, [hinted "rename" "name" "dull"]⟩]⟩,
    .type ⟨"Color", none, [⟨"serializationType", [⟨"name", .int 1⟩], ⟨1, 1⟩⟩],
      .enum [⟨"RED", none, []⟩,
        ⟨"BLUE", none, [hinted "enumValue" "value" "1", hinted "enumValue" "value" "2"]⟩]⟩,
    .type ⟨"Paint", none, [hinted "rename" "name" "gloss"],
      .inputObject [⟨"color", .named "Color", none, none, []⟩]⟩]⟩

/-- Everything in the schema is in use. -/
def glossUsage : TypeUsage :=
  ⟨OrderedSet.ofList ["Gloss", "Color"], OrderedSet.ofList ["Paint"]⟩

/-- A catalog with the model of an operation. -/
def glossCatalog : Catalog :=
  ⟨[⟨.operation "Gloss", "Gloss"⟩],
    OrderedMap.ofList [("Gloss", .object ⟨"Gloss", none, "Query", []⟩)]⟩

end Sample

namespace Catalog

open Sample in
/-- The enum before the one that is marked wrongly keeps its model. -/
theorem addsMarked_of_gloss :
    (glossCatalog.addEnums glossSchema glossUsage []).1 =
        .error (.duplicateDirective "enumValue" "enum value Color.BLUE") ∧
      (glossCatalog.addEnums glossSchema glossUsage []).2.models.keys = ["Gloss", "Gloss1"] ∧
      (glossCatalog.addInputs glossSchema glossUsage []).1 = .ok () ∧
      AddsMarked TypeDefinition.enumMarkings (fun type name => .enum (type.describeEnum name))
        glossCatalog (glossUsage.enumTypes glossSchema)
        (glossCatalog.addEnums glossSchema glossUsage []) ∧
      AddsMarked TypeDefinition.inputMarkings (fun type name => .input (type.describeInput name))
        glossCatalog (glossUsage.inputTypes glossSchema)
        (glossCatalog.addInputs glossSchema glossUsage []) := by
  have given : ∀ key ∈ glossCatalog.models.keys, key ∈ glossCatalog.given := by decide +kernel
  have done := addsMarked_ofUsage glossSchema glossUsage glossCatalog [] given
  exact ⟨by decide +kernel, by decide +kernel, by decide +kernel,
    done.1 (by decide +kernel), done.2 (by decide +kernel)⟩

end Catalog

end ResponseShape

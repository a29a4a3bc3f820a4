import ResponseShape.Syntax.Document
import ResponseShape.Path

/-!
# Why an analysis stops

An analysis gives a complete result or one error. The errors are the causes, with the names,
positions and paths that they concern; `AnalysisError.message` is the one place where they are
put into words.
-/

set_option autoImplicit false

namespace ResponseShape

/-- Why two selections of one response name cannot be merged. -/
inductive MergeConflict where
  | differentFields (first second : String)
  | differingArguments
  | differentTypes (first second : String)
  deriving DecidableEq

/-- The conflict in words. -/
def MergeConflict.message : MergeConflict → String
  | differentFields first second => s!"\"{first}\" and \"{second}\" are different fields"
  | differingArguments => "they have differing arguments"
  | differentTypes first second => s!"they return \"{first}\" and \"{second}\""

/-- The cause that stopped an analysis. -/
inductive AnalysisError where
  /-- No schema was given. -/
  | missingSchema
  /-- No document was given. -/
  | noDocuments
  /-- An operation has no name to call its models by. -/
  | anonymousOperation (position : Position)
  /-- The schema has no object type at which the operation could start. -/
  | unsupportedRootOperation (operation : String) (kind : OperationKind)
  /-- Selections of one response name exclude each other. -/
  | fieldMergeConflict (responseName : String) (path : Path) (first second : Position)
      (conflict : MergeConflict)
  /-- A type condition is no composite type or has no possible type in common with the type it
  is used on. -/
  | unknownTypeCondition (condition parent : String) (path : Path) (position : Position)
  /-- A spread names no fragment of the documents. -/
  | unknownFragment (name : String) (path : Path) (position : Position)
  /-- Two fragments have one name. -/
  | duplicateFragmentName (name : String)
  /-- A fragment spreads itself; `via` are the fragments entered from `name` until it is spread
  again. -/
  | fragmentCycle (name : String) (via : List String) (position : Position)
  /-- A selected field is not defined on the type. -/
  | unknownField (type field : String) (path : Path) (position : Position)
  /-- The type of a selected field is defined nowhere. -/
  | unknownType (name : String) (path : Path) (position : Position)
  /-- The type of a selected field is an input object. -/
  | notAnOutputType (name : String) (path : Path)
  /-- A model of the name was added before; `path` is the position that holds the name. Names
  held by an enum or an input object have no position. -/
  | duplicateTypeName (name : String) (path : Option Path)
  /-- A directive that may appear once is repeated. -/
  | duplicateDirective (directive location : String)
  /-- A directive lacks its string argument. -/
  | invalidDirectiveArgument (directive argument location : String)
  deriving DecidableEq

namespace AnalysisError

/-- The error in words. -/
def message : AnalysisError → String
  | missingSchema => "A schema must be provided before analyzing documents."
  | noDocuments => "At least one document must be provided."
  | anonymousOperation position => s!"Operation at {position.render} has no name."
  | unsupportedRootOperation operation kind =>
      s!"The schema has no {kind.keyword} root type, required by operation \"{operation}\"."
  | fieldMergeConflict responseName path first second conflict =>
      s!"Fields \"{responseName}\" at `{path.render}` conflict " ++
        s!"({first.render} and {second.render}): {conflict.message}."
  | unknownTypeCondition condition parent path position =>
      s!"Type condition \"{condition}\" at `{path.render}` ({position.render}) " ++
        s!"can never apply to \"{parent}\"."
  | unknownFragment name path position =>
      s!"Unknown fragment \"{name}\" at `{path.render}` ({position.render})."
  | duplicateFragmentName name => s!"Fragment \"{name}\" is defined more than once."
  | fragmentCycle name via position =>
      s!"Cannot spread fragment \"{name}\" within itself ({position.render}, via " ++
        String.intercalate " -> " via ++ ")."
  | unknownField type field path position =>
      s!"Cannot query field \"{field}\" on type \"{type}\" at `{path.render}` " ++
        s!"({position.render})."
  | unknownType name path position =>
      s!"Unknown type \"{name}\" at `{path.render}` ({position.render})."
  | notAnOutputType name path =>
      s!"Type \"{name}\" at `{path.render}` cannot be used as an output type."
  | duplicateTypeName name none => s!"Type name \"{name}\" is already registered."
  | duplicateTypeName name (some path) =>
      s!"Type name \"{name}\" is already registered (allocated at `{path.render}`)."
  | duplicateDirective directive location =>
      s!"Directive \"@{directive}\" may only appear once on {location}."
  | invalidDirectiveArgument directive argument location =>
      s!"Directive \"@{directive}\" on {location} requires a string argument \"{argument}\"."

end AnalysisError

/-- A result, or the error that stopped the analysis. -/
abbrev Outcome (α : Type) := Except AnalysisError α

end ResponseShape

import ResponseShape.Analysis
import ResponseShape.Catalog
import ResponseShape.Collection.Environment
import ResponseShape.Collection.Gathering
import ResponseShape.Collection.Grouping
import ResponseShape.Collection.Variants
import ResponseShape.Error
import ResponseShape.Fragment.Cycle
import ResponseShape.Fragment.Table
import ResponseShape.Hint
import ResponseShape.Model.DocumentModel
import ResponseShape.Model.Json
import ResponseShape.Model.TypeModel
import ResponseShape.OrderedMap
import ResponseShape.OrderedSet
import ResponseShape.Path
import ResponseShape.Proofs.Acyclicity
import ResponseShape.Proofs.Alike
import ResponseShape.Proofs.Building
import ResponseShape.Proofs.Chains
import ResponseShape.Proofs.Children
import ResponseShape.Proofs.Correspondence
import ResponseShape.Proofs.Draining
import ResponseShape.Proofs.EnumLinks
import ResponseShape.Proofs.Expansion
import ResponseShape.Proofs.Grouping
import ResponseShape.Proofs.InlinedRuns
import ResponseShape.Proofs.Inlining
import ResponseShape.Proofs.Joining
import ResponseShape.Proofs.Merging
import ResponseShape.Proofs.Naming
import ResponseShape.Proofs.NodeEquality
import ResponseShape.Proofs.Outcome
import ResponseShape.Proofs.Planning
import ResponseShape.Proofs.References
import ResponseShape.Proofs.Running
import ResponseShape.Proofs.StaticReading
import ResponseShape.Proofs.Thinning
import ResponseShape.Proofs.UsedTypes
import ResponseShape.Proofs.Visiting
import ResponseShape.Proofs.Walk
import ResponseShape.Schema.Definition
import ResponseShape.Schema.Lookup
import ResponseShape.Syntax.Binary64
import ResponseShape.Syntax.Document
import ResponseShape.Syntax.Position
import ResponseShape.Syntax.Selection
import ResponseShape.Syntax.TypeRef
import ResponseShape.Syntax.Value
import ResponseShape.Text.CaseMapping
import ResponseShape.Text.ClassName
import ResponseShape.Traversal.NamePolicy
import ResponseShape.Traversal.Naming
import ResponseShape.Traversal.Occurrences
import ResponseShape.Traversal.Operation
import ResponseShape.Traversal.Plan
import ResponseShape.Traversal.Task
import ResponseShape.Usage.Models
import ResponseShape.Usage.TypeUsage
import ResponseShape.Visit.Document
import ResponseShape.Visit.Scopes
import ResponseShape.Proofs.Allotting
import ResponseShape.Proofs.Schedules
import ResponseShape.Proofs.Passes
import ResponseShape.Proofs.Failures
import ResponseShape.Proofs.RepeatedNames
import ResponseShape.Proofs.Inventory
import ResponseShape.Proofs.Backing
import ResponseShape.Proofs.WellTyped
import ResponseShape.Proofs.Agreement
import ResponseShape.Proofs.Independence
import ResponseShape.Proofs.Absorbing
import ResponseShape.Proofs.PlainForm
import ResponseShape.Proofs.PlainPlans
import ResponseShape.Proofs.PlainRuns
import ResponseShape.Proofs.Pruning
import ResponseShape.Proofs.CatalogUses
import ResponseShape.Proofs.Registries
import ResponseShape.Proofs.Splitting
import ResponseShape.Proofs.AvoidedNames
import ResponseShape.Proofs.Observations
import ResponseShape.Proofs.ReachableTypes
import ResponseShape.Proofs.Flattening
import ResponseShape.Proofs.SpreadCycles
import ResponseShape.Proofs.Conditions
import ResponseShape.Proofs.ScopeChecks
import ResponseShape.Proofs.ExposedFields
import ResponseShape.Proofs.Implementations
import ResponseShape.Proofs.SharedFields
import ResponseShape.Proofs.VacantNames
import ResponseShape.Proofs.VariantConflicts
import ResponseShape.Proofs.Retaining
import ResponseShape.Proofs.SelfEquality
import ResponseShape.Proofs.RepeatedOccurrences
import ResponseShape.Proofs.BreadthFirst
import ResponseShape.Proofs.Buildable
import ResponseShape.Proofs.NestedWalks
import ResponseShape.Proofs.FirstFree
import ResponseShape.Proofs.ArgumentAgreement
import ResponseShape.Proofs.WrittenPaths
import ResponseShape.Proofs.Markings
import ResponseShape.Proofs.StaticScopes
import ResponseShape.Proofs.ClassNames
import ResponseShape.Proofs.WrittenTypes

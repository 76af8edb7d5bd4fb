import FederatedQuery.Blueprint.Sdl
import FederatedQuery.ExecutionTree
import FederatedQuery.Plan.Validate
import FederatedQuery.Proofs.Table
import FederatedQuery.Proofs.SchemaIndex.Declarations
import FederatedQuery.Proofs.SchemaIndex.Accepted
import FederatedQuery.Proofs.Decomposition.Keys
import FederatedQuery.Proofs.Decomposition.Completeness
import FederatedQuery.Proofs.Decomposition.Provenance
import FederatedQuery.Proofs.Decomposition.KeyForwarding
import FederatedQuery.Proofs.Plan.Build
import FederatedQuery.Proofs.Plan.Validity
import FederatedQuery.Proofs.Decomposition.Routing
import FederatedQuery.Proofs.Selection.Everywhere
import FederatedQuery.Proofs.Operation.Collect
import FederatedQuery.Proofs.Decomposition.Contents
import FederatedQuery.Proofs.Decomposition.Conflicts
import FederatedQuery.Proofs.Decomposition.Requirements
import FederatedQuery.Proofs.Plan.Waves
import FederatedQuery.Proofs.Plan.RootOrder
import FederatedQuery.Proofs.Decomposition.Dependencies
import FederatedQuery.Proofs.ExecutionTree.Minify
import FederatedQuery.Proofs.ExecutionTree.Schedule
import FederatedQuery.Proofs.Decomposition.WellFormed
import FederatedQuery.Proofs.Selection.Variables
import FederatedQuery.Proofs.Plan.Documents
import FederatedQuery.Proofs.Grammar.Executable
import FederatedQuery.Proofs.Operation.Ways
import FederatedQuery.Proofs.Operation.Complete
import FederatedQuery.Proofs.SchemaIndex.WellConnected
import FederatedQuery.Proofs.Decomposition.Progress
import FederatedQuery.Proofs.Plan.Progress
import FederatedQuery.Proofs.Decomposition.AttachPaths
import FederatedQuery.Proofs.Decomposition.HiddenFields
import FederatedQuery.Proofs.Selection.TypeNames
import FederatedQuery.Proofs.Decomposition.Configuration
import FederatedQuery.Proofs.Plan.Configuration
import FederatedQuery.Proofs.Operation.RoundTrip
import FederatedQuery.Proofs.SchemaIndex.EntryPoints
import FederatedQuery.Proofs.Decomposition.Failure
import FederatedQuery.Proofs.Operation.WellTyped
import FederatedQuery.Proofs.Operation.Inlining
import FederatedQuery.Proofs.ExecutionTree.NormalForm
import FederatedQuery.Proofs.Plan.Levels
import FederatedQuery.Proofs.Plan.Batches
import FederatedQuery.Proofs.Operation.Merging
import FederatedQuery.Proofs.Operation.Reordering
import FederatedQuery.Proofs.Operation.Expansion
import FederatedQuery.Proofs.SchemaIndex.Fields
import FederatedQuery.Proofs.SchemaIndex.Reordering
import FederatedQuery.Proofs.Plan.Variables
import FederatedQuery.Proofs.Plan.Mirroring
import FederatedQuery.Proofs.Validation.Traversal
import FederatedQuery.Proofs.Blueprint.Sources
import FederatedQuery.Proofs.Blueprint.Codec

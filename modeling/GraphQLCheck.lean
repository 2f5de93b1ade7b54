import GraphQLCheck.Validation.Validate
import GraphQLCheck.Schema.Loader
import GraphQLCheck.Proofs.Traversal.Tree
import GraphQLCheck.Proofs.Validation.Position
import GraphQLCheck.Proofs.Traversal.Invariant
import GraphQLCheck.Proofs.Validation.Limit
import GraphQLCheck.Proofs.Schema.Closed
import GraphQLCheck.Proofs.Validation.FullRun
import GraphQLCheck.Proofs.Typing.Known
import GraphQLCheck.Proofs.Rules.ValueCheck
import GraphQLCheck.Proofs.Rules.Values
import GraphQLCheck.Proofs.Validation.Silent
import GraphQLCheck.Proofs.Rules.WellTyped
import GraphQLCheck.Proofs.Document.Occurrences
import GraphQLCheck.Proofs.Document.FragmentGraph
import GraphQLCheck.Proofs.Document.Reachability
import GraphQLCheck.Proofs.Validation.Outline
import GraphQLCheck.Proofs.Rules.FragmentUse
import GraphQLCheck.Proofs.Document.VariableUse
import GraphQLCheck.Proofs.Rules.VariableUse
import GraphQLCheck.Proofs.Document.FragmentCycle
import GraphQLCheck.Proofs.Rules.CycleSearch
import GraphQLCheck.Proofs.Rules.FragmentCycles
import GraphQLCheck.Proofs.Validation.Interleaving
import GraphQLCheck.Proofs.Traversal.Addresses
import GraphQLCheck.Proofs.Validation.Locality
import GraphQLCheck.Proofs.Document.Grammar
import GraphQLCheck.Proofs.Document.Unambiguous
import GraphQLCheck.Proofs.Document.Recognition
import GraphQLCheck.Proofs.Document.Parsing
import GraphQLCheck.Proofs.Token.Rescan
import GraphQLCheck.Proofs.Document.Printing
import GraphQLCheck.Proofs.Schema.Reading
import GraphQLCheck.Proofs.Schema.Acceptance
import GraphQLCheck.Proofs.Schema.Implementors
import GraphQLCheck.Proofs.Token.Untracked
import GraphQLCheck.Proofs.Document.Unplaced
import GraphQLCheck.Proofs.Document.Untracked
import GraphQLCheck.Proofs.Document.UnplacedParts
import GraphQLCheck.Proofs.Validation.Lockstep
import GraphQLCheck.Proofs.Rules.Unplaced
import GraphQLCheck.Proofs.Schema.Grammar
import GraphQLCheck.Proofs.Schema.Members
import GraphQLCheck.Proofs.Schema.Recognition
import GraphQLCheck.Proofs.Schema.Parsing
import GraphQLCheck.Proofs.Schema.Rendering
import GraphQLCheck.Proofs.Schema.References
import GraphQLCheck.Proofs.Schema.Ordered
import GraphQLCheck.Proofs.Sorting.Natural
import GraphQLCheck.Proofs.Rules.Ordered
import GraphQLCheck.Proofs.Schema.Reordered
import GraphQLCheck.Proofs.Validation.SchemaOrder
import GraphQLCheck.Proofs.Validation.Paths
import GraphQLCheck.Proofs.Validation.HandlerSets
import GraphQLCheck.Proofs.Schema.ScalarCheck
import GraphQLCheck.Proofs.Rules.ScalarCheck
import GraphQLCheck.Proofs.Token.Extent
import GraphQLCheck.Proofs.Token.Separation
import GraphQLCheck.Proofs.Token.Locations
import GraphQLCheck.Proofs.Token.Caret
import GraphQLCheck.Proofs.Rules.ArgumentOwners
import GraphQLCheck.Proofs.Token.Context
import GraphQLCheck.Proofs.Document.Separation
import GraphQLCheck.Proofs.Token.StringPrint
import GraphQLCheck.Proofs.Token.BlockString
import GraphQLCheck.Proofs.Token.Lookahead
import GraphQLCheck.Proofs.Document.Lookahead
import GraphQLCheck.Proofs.Schema.Lookahead
import GraphQLCheck.Proofs.Schema.Termination
import GraphQLCheck.Proofs.Document.Completion
import GraphQLCheck.Proofs.Document.SyntaxErrors
import GraphQLCheck.Proofs.Validation.NodeReports
import GraphQLCheck.Proofs.Rules.Uniqueness
import GraphQLCheck.Proofs.Suggestion.Alignment
import GraphQLCheck.Proofs.Suggestion.Near
import GraphQLCheck.Proofs.Sorting.Keeping
import GraphQLCheck.Proofs.Sorting.Merging
import GraphQLCheck.Proofs.Sorting.Runs
import GraphQLCheck.Proofs.Sorting.Parting
import GraphQLCheck.Proofs.Rules.Candidates
import GraphQLCheck.Proofs.Rules.CandidateOrder
import GraphQLCheck.Proofs.Schema.Redeclared
import GraphQLCheck.Proofs.Rules.NarrowerTypes
import GraphQLCheck.Proofs.Rules.NarrowerOrder
import GraphQLCheck.Proofs.Document.TypePrinting
import GraphQLCheck.Proofs.Traversal.PathText
import GraphQLCheck.Source.Excerpt
import GraphQLCheck.Proofs.Source.Excerpt
import GraphQLCheck.Token.Script
import GraphQLCheck.Proofs.Token.Script
import GraphQLCheck.Proofs.Document.Scripts
import GraphQLCheck.Proofs.Validation.SpotCalls
import GraphQLCheck.Proofs.Typing.Scopes
import GraphQLCheck.Proofs.Rules.UnresolvedFields

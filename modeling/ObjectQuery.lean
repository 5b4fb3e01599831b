import ObjectQuery.Keyed
import ObjectQuery.Binary64.Shortest
import ObjectQuery.Literal
import ObjectQuery.Operator
import ObjectQuery.Text.Quoted
import ObjectQuery.Text.Blank
import ObjectQuery.Text.LowerCase
import ObjectQuery.Text.Dotted
import ObjectQuery.Query.Node
import ObjectQuery.Query.Same
import ObjectQuery.Query.Describe
import ObjectQuery.Query.Path
import ObjectQuery.Schema.Spec
import ObjectQuery.Statement.Same
import ObjectQuery.Settings
import ObjectQuery.Compile.Query
import ObjectQuery.Proofs.Run
import ObjectQuery.Proofs.World
import ObjectQuery.Proofs.Content
import ObjectQuery.Proofs.Valid
import ObjectQuery.Proofs.Step
import ObjectQuery.Proofs.Holds
import ObjectQuery.Proofs.Laws.Basic
import ObjectQuery.Proofs.Laws.Value
import ObjectQuery.Proofs.Calls.Respect
import ObjectQuery.Proofs.Calls.Resolve
import ObjectQuery.Proofs.Calls.Value
import ObjectQuery.Proofs.Calls.Rows
import ObjectQuery.Proofs.Calls.Setter
import ObjectQuery.Proofs.Calls.Operator
import ObjectQuery.Proofs.Reached
import ObjectQuery.Proofs.Traversal
import ObjectQuery.Proofs.Specification.Keyed
import ObjectQuery.Proofs.Specification.Closed
import ObjectQuery.Proofs.Coherent
import ObjectQuery.Proofs.Targets
import ObjectQuery.Proofs.Leaves
import ObjectQuery.Proofs.Fills
import ObjectQuery.Proofs.OwnRow
import ObjectQuery.Proofs.Scoping
import ObjectQuery.Proofs.Narrowing
import ObjectQuery.Proofs.Retarget
import ObjectQuery.Proofs.Laws.Operator
import ObjectQuery.Proofs.Joins.Matched
import ObjectQuery.Proofs.Joins.Kinds
import ObjectQuery.Proofs.UpdateRoot
import ObjectQuery.Proofs.SetColumn
import ObjectQuery.Proofs.Nested.Derives
import ObjectQuery.Proofs.Nested.Values
import ObjectQuery.Proofs.Nested.Operators
import ObjectQuery.Proofs.Nested.Isolation
import ObjectQuery.Proofs.Assigned.Denotes
import ObjectQuery.Proofs.Assigned.Setter
import ObjectQuery.Proofs.Assigned.Chain
import ObjectQuery.Proofs.Assigned.Items
import ObjectQuery.Proofs.Assigned.Selected
import ObjectQuery.Proofs.Assigned.Retargeted
import ObjectQuery.Proofs.Twins.Pairing
import ObjectQuery.Proofs.Twins.State
import ObjectQuery.Proofs.Twins.Lookup
import ObjectQuery.Proofs.Twins.Rules
import ObjectQuery.Proofs.Twins.Values
import ObjectQuery.Proofs.Twins.Operators
import ObjectQuery.Proofs.Twins.Source
import ObjectQuery.Proofs.Twins.Outcome
import ObjectQuery.Proofs.Twins.Ahead
import ObjectQuery.Proofs.Twins.Sets
import ObjectQuery.Proofs.Mirror.Alike
import ObjectQuery.Proofs.Mirror.Shape
import ObjectQuery.Proofs.Mirror.Lexicon
import ObjectQuery.Proofs.Mirror.Moment
import ObjectQuery.Proofs.Mirror.Rules
import ObjectQuery.Proofs.Mirror.Values
import ObjectQuery.Proofs.Mirror.Rows
import ObjectQuery.Proofs.Mirror.Operators
import ObjectQuery.Proofs.Mirror.Identical
import ObjectQuery.Proofs.Mirror.Parameters
import ObjectQuery.Proofs.Mirror.Sameness
import ObjectQuery.Proofs.Mirror.Connectives
import ObjectQuery.Proofs.Mirror.Inline
import ObjectQuery.Proofs.Mirror.Meaning
import ObjectQuery.Proofs.Mirror.Lexical
import ObjectQuery.Proofs.Mirror.Names
import ObjectQuery.Proofs.Mirror.Covers
import ObjectQuery.Proofs.Mirror.Renaming
import ObjectQuery.Proofs.Halting.Preserves
import ObjectQuery.Proofs.Halting.Rules
import ObjectQuery.Proofs.Halting.Paths
import ObjectQuery.Proofs.Halting.Values
import ObjectQuery.Proofs.Halting.Operators
import ObjectQuery.Proofs.Halting.Queries
import ObjectQuery.Proofs.Conversions.Erase
import ObjectQuery.Proofs.Conversions.Peers
import ObjectQuery.Proofs.Conversions.Echo
import ObjectQuery.Proofs.Conversions.Values
import ObjectQuery.Proofs.Conversions.Rows
import ObjectQuery.Proofs.Conversions.Operators
import ObjectQuery.Proofs.Conversions.Queries
import ObjectQuery.Proofs.Enumeration.Unnested
import ObjectQuery.Proofs.Enumeration.Session
import ObjectQuery.Proofs.Enumeration.Recurs
import ObjectQuery.Proofs.Enumeration.Addresses
import ObjectQuery.Proofs.Enumeration.Listed
import ObjectQuery.Proofs.Assigned.Appends
import ObjectQuery.Proofs.Intact.State
import ObjectQuery.Proofs.Parts
import ObjectQuery.Proofs.Fusion.Replace
import ObjectQuery.Proofs.Fusion.Mode
import ObjectQuery.Proofs.Fusion.Moment
import ObjectQuery.Proofs.Fusion.Rules
import ObjectQuery.Proofs.Fusion.Seat
import ObjectQuery.Proofs.Fusion.Resolve
import ObjectQuery.Proofs.Fusion.Reach
import ObjectQuery.Proofs.Fusion.Values
import ObjectQuery.Proofs.Fusion.Rows
import ObjectQuery.Proofs.Fusion.Operators
import ObjectQuery.Proofs.Fusion.Query
import ObjectQuery.Proofs.Intact.Rules
import ObjectQuery.Proofs.Intact.Values
import ObjectQuery.Proofs.Intact.Operators
import ObjectQuery.Proofs.Intact.Queries
import ObjectQuery.Proofs.Repeated.Register
import ObjectQuery.Proofs.Repeated.Renumber
import ObjectQuery.Proofs.Repeated.Landed
import ObjectQuery.Proofs.Repeated.Moment
import ObjectQuery.Proofs.Repeated.Changes
import ObjectQuery.Proofs.Repeated.Rules
import ObjectQuery.Proofs.Repeated.Shifted
import ObjectQuery.Proofs.Repeated.Resolve
import ObjectQuery.Proofs.Repeated.Values
import ObjectQuery.Proofs.Repeated.Operators
import ObjectQuery.Proofs.Repeated.Again
import ObjectQuery.Proofs.Repeated.Ordinals
import ObjectQuery.Proofs.Conditions.Equality
import ObjectQuery.Proofs.Conditions.Normal
import ObjectQuery.Proofs.Fuel.Rules
import ObjectQuery.Proofs.Fuel.Calls
import ObjectQuery.Proofs.Conditions.Tested
import ObjectQuery.Proofs.UpdateWhere
import ObjectQuery.Proofs.Assigned.Itself
import ObjectQuery.Proofs.Assigned.Trails
import ObjectQuery.Proofs.Dispatch
import ObjectQuery.Proofs.Extents
import ObjectQuery.Proofs.Chains
import ObjectQuery.Proofs.Environment

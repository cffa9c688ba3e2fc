import LazyConfig.Main
import LazyConfig.Value.Data
import LazyConfig.Value.Equality
import LazyConfig.Proofs.Machine.Progress
import LazyConfig.Proofs.Machine.Session
import LazyConfig.Proofs.ByName.Step
import LazyConfig.Proofs.Memoisation
import LazyConfig.Proofs.ByName.Run
import LazyConfig.Proofs.ByName.Mirror
import LazyConfig.Proofs.ByName.Heap
import LazyConfig.Proofs.ByName.Operations
import LazyConfig.Proofs.ByName.Rules
import LazyConfig.Proofs.ByName.Simulation
import LazyConfig.Proofs.Machine.Frames
import LazyConfig.Proofs.Machine.Runs
import LazyConfig.Proofs.Machine.Deepen
import LazyConfig.Proofs.ByName.Agreement
import LazyConfig.Proofs.ByName.Adequacy
import LazyConfig.Proofs.Types.Links
import LazyConfig.Proofs.Types.Sound
import LazyConfig.Proofs.Types.Cycle
import LazyConfig.Proofs.Types.Circles
import LazyConfig.Proofs.Types.Resolve
import LazyConfig.Proofs.Types.Groups
import LazyConfig.Proofs.Types.Annotations
import LazyConfig.Proofs.Types.Unfolding
import LazyConfig.Proofs.Types.Image
import LazyConfig.Proofs.Types.Resolver
import LazyConfig.Proofs.Types.Stable
import LazyConfig.Proofs.Types.Tidy
import LazyConfig.Proofs.Types.Atomic
import LazyConfig.Proofs.Types.Meaning
import LazyConfig.Proofs.Types.Occurrences
import LazyConfig.Proofs.Erasure.Erase
import LazyConfig.Proofs.Erasure.Relation
import LazyConfig.Proofs.Erasure.Checks
import LazyConfig.Proofs.Erasure.Rules
import LazyConfig.Proofs.Erasure.Expressions
import LazyConfig.Proofs.Erasure.Simulation
import LazyConfig.Proofs.Erasure.Runs
import LazyConfig.Proofs.Erasure.SameData
import LazyConfig.Proofs.Machine.Within
import LazyConfig.Proofs.Store.Growth
import LazyConfig.Proofs.Machine.Additions
import LazyConfig.Proofs.Machine.Moves
import LazyConfig.Proofs.Machine.Answers
import LazyConfig.Proofs.Machine.Exits
import LazyConfig.Proofs.Machine.Annotated
import LazyConfig.Proofs.Twins.Relation
import LazyConfig.Proofs.Twins.Stores
import LazyConfig.Proofs.Twins.Rules
import LazyConfig.Proofs.Conformance.Conforms
import LazyConfig.Proofs.Conformance.Violations
import LazyConfig.Proofs.Conformance.Guards
import LazyConfig.Proofs.Twins.Runs
import LazyConfig.Proofs.Twins.Asides
import LazyConfig.Proofs.Lists.Turns
import LazyConfig.Proofs.Twins.Walks
import LazyConfig.Proofs.Conformance.Parts
import LazyConfig.Proofs.Conformance.Courses
import LazyConfig.Proofs.Conformance.Checked
import LazyConfig.Proofs.Conformance.Verdicts
import LazyConfig.Proofs.Machine.Limit
import LazyConfig.Proofs.Machine.Nesting
import LazyConfig.Proofs.Machine.Wrappers
import LazyConfig.Proofs.Lists.Sequence
import LazyConfig.Proofs.Lists.Spreads
import LazyConfig.Proofs.Store.Contents
import LazyConfig.Proofs.Value.Texts
import LazyConfig.Proofs.Lists.Reading
import LazyConfig.Proofs.Deepening.Again
import LazyConfig.Proofs.Deepening.Finite
import LazyConfig.Proofs.Deepening.Ends
import LazyConfig.Proofs.Deepening.Complete
import LazyConfig.Proofs.Equality.Same
import LazyConfig.Proofs.Equality.Compare
import LazyConfig.Proofs.Equality.Evaluated
import LazyConfig.Proofs.Equality.Agrees
import LazyConfig.Proofs.Lists.Primitives
import LazyConfig.Proofs.Lists.Semantics
import LazyConfig.Proofs.ByName.Unwinding
import LazyConfig.Proofs.ByName.Sessions
import LazyConfig.Proofs.ByName.Confluence
import LazyConfig.Proofs.Lists.Productions
import LazyConfig.Proofs.Prelude.Around
import LazyConfig.Proofs.Prelude.Calls
import LazyConfig.Proofs.Prelude.Cells
import LazyConfig.Proofs.Prelude.Elements
import LazyConfig.Proofs.Prelude.Foldl
import LazyConfig.Proofs.Prelude.Map2
import LazyConfig.Proofs.Scoping.Agreement
import LazyConfig.Proofs.Scoping.Lexical
import LazyConfig.Proofs.Lists.Failures
import LazyConfig.Proofs.Value.Integers
import LazyConfig.Proofs.Equality.Lockstep
import LazyConfig.Proofs.Equality.Unequal
import LazyConfig.Proofs.Lists.Windings
import LazyConfig.Proofs.Lists.Peeks
import LazyConfig.Proofs.Value.Endings
import LazyConfig.Proofs.Twins.Texts
import LazyConfig.Proofs.Twins.Outcomes
import LazyConfig.Proofs.Suspending.Policy
import LazyConfig.Proofs.Suspending.Shortcut
import LazyConfig.Proofs.Suspending.Guard
import LazyConfig.Proofs.Suspending.Unguard
import LazyConfig.Proofs.Suspending.Plainly
import LazyConfig.Proofs.Applying.Sequence
import LazyConfig.Proofs.Applying.PutOff
import LazyConfig.Proofs.Applying.Calls
import LazyConfig.Proofs.Applying.Ways
import LazyConfig.Proofs.Twins.Turns
import LazyConfig.Proofs.Lists.Checked
import LazyConfig.Proofs.Lists.Abreast
import LazyConfig.Proofs.Machine.Unasked
import LazyConfig.Proofs.Records.Bytes
import LazyConfig.Proofs.Records.Reading
import LazyConfig.Proofs.Records.Mapping
import LazyConfig.Proofs.Records.Literals
import LazyConfig.Proofs.Twins.Exchange
import LazyConfig.Proofs.Suspending.Adopted
import LazyConfig.Proofs.Records.Orders
import LazyConfig.Proofs.Records.Reflection
import LazyConfig.Proofs.Applying.Passing
import LazyConfig.Proofs.Applying.Currying
import LazyConfig.Proofs.Applying.Functions
import LazyConfig.Proofs.Types.Signatures
import LazyConfig.Proofs.Types.Writing
import LazyConfig.Proofs.Depth
import LazyConfig.Proofs.Names
import LazyConfig.Proofs.Types.Follow
import LazyConfig.Proofs.Nodes.Calls
import LazyConfig.Proofs.Nodes.Limited
import LazyConfig.Proofs.Nodes.Passes
import LazyConfig.Proofs.Nodes.Order

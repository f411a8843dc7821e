import Midend.Diagnostic
import Midend.Flow.Decode
import Midend.Flow.Encode
import Midend.Heap.Operations
import Midend.Heap.Usage
import Midend.Name.Lemmas
import Midend.Proofs.Flow.Graph
import Midend.Session
import Midend.Tree.Decode
import Midend.Tree.Encode
import Midend.Proofs.Solver.Turn
import Midend.Proofs.Solver.Consistency
import Midend.Proofs.Analysis.Order
import Midend.Proofs.Solver.Ascent
import Midend.Proofs.Copies.Environment
import Midend.Proofs.Copies.Rest
import Midend.Proofs.Solver.Answer
import Midend.Proofs.Solver.Reached
import Midend.Proofs.Constants.Environment
import Midend.Proofs.Constants.Order
import Midend.Proofs.Constants.Rest
import Midend.Proofs.Constants.Least
import Midend.Proofs.Optimization.Pass
import Midend.Proofs.Optimization.Rounds
import Midend.Proofs.Meaning.Machine
import Midend.Proofs.Meaning.Preservation
import Midend.Proofs.Constants.Meaning
import Midend.Proofs.Copies.Meaning
import Midend.Proofs.Heap.Layout
import Midend.Proofs.Heap.Moving
import Midend.Proofs.Heap.Running
import Midend.Proofs.Heap.Holders
import Midend.Proofs.Heap.Scopes
import Midend.Proofs.Heap.Making
import Midend.Proofs.Heap.Stores
import Midend.Proofs.Heap.Discipline
import Midend.Proofs.Heap.Keeping
import Midend.Proofs.Heap.Calls
import Midend.Proofs.Heap.Exactness
import Midend.Proofs.Heap.Revival
import Midend.Proofs.Heap.Failures
import Midend.Proofs.Heap.Invariants
import Midend.Proofs.Heap.Reclaiming
import Midend.Proofs.Heap.Compaction
import Midend.Proofs.Heap.Allocation
import Midend.Proofs.Heap.Decrements
import Midend.Proofs.Heap.Totals
import Midend.Proofs.Activity
import Midend.Proofs.Linear.Names
import Midend.Proofs.Linear.Placement
import Midend.Proofs.Meaning.Structured
import Midend.Proofs.Linear.Expressions
import Midend.Proofs.Linear.Loops
import Midend.Proofs.Linear.Meaning
import Midend.Proofs.Linear.Flattening
import Midend.Proofs.Linear.Programs
import Midend.Proofs.Linear.Faults
import Midend.Proofs.Linear.ControlFlow
import Midend.Proofs.Linear.Contents
import Midend.Proofs.Linear.Growth
import Midend.Proofs.Linear.Nesting
import Midend.Proofs.Linear.Scopes
import Midend.Proofs.Linear.Bodies
import Midend.Proofs.Linear.Binding
import Midend.Proofs.Linear.Lambdas
import Midend.Proofs.Linear.Sessions
import Midend.Proofs.Linear.Operands
import Midend.Proofs.Linear.Regions
import Midend.Proofs.Linear.Evaluation
import Midend.Proofs.Linear.Stepwise
import Midend.Proofs.Linear.Repetition
import Midend.Proofs.Linear.Objects
import Midend.Proofs.Layout
import Midend.Proofs.Linear.Layouts
import Midend.Proofs.Linear.Dispatch
import Midend.Proofs.Tree.RoundTrip
import Midend.Proofs.Tree.Positions
import Midend.Proofs.Name.Derived
import Midend.Proofs.Linear.Additions
import Midend.Proofs.Linear.Distinct
import Midend.Proofs.Solver.Stable
import Midend.Proofs.Constants.Idempotence
import Midend.Proofs.Optimization.Fixpoint
import Midend.Proofs.Flow.Shape
import Midend.Proofs.Optimization.Shape
import Midend.Proofs.Linear.Temporaries
import Midend.Proofs.Linear.Guards
import Midend.Proofs.Linear.Iteration
import Midend.Proofs.Linear.Entry
import Midend.Proofs.Linear.Freshness
import Midend.Proofs.Flow.Agreement
import Midend.Proofs.Analysis.Merging
import Midend.Proofs.Copies.Chains
import Midend.Proofs.Linear.Connectives
import Midend.Proofs.Linear.Requests

import Overapprox.Call.Semantics
import Overapprox.Call.Site
import Overapprox.Call.Symbol
import Overapprox.Domain.Basic
import Overapprox.Domain.InferredTypes
import Overapprox.Domain.Interval
import Overapprox.Domain.Level
import Overapprox.Env.Basic
import Overapprox.Env.Types
import Overapprox.Env.Value
import Overapprox.Error
import Overapprox.Expr.Negation
import Overapprox.Expr.Operator
import Overapprox.Expr.Symbolic
import Overapprox.Expr.Value
import Overapprox.Heap.Basic
import Overapprox.Heap.Replacement
import Overapprox.Heap.Rewriter
import Overapprox.Heap.Scripted
import Overapprox.Heap.Summary
import Overapprox.Identifier
import Overapprox.Lattice.Basic
import Overapprox.Lattice.Pointwise
import Overapprox.Lattice.Powerset
import Overapprox.Location
import Overapprox.Number.Bounds
import Overapprox.Number.Extended
import Overapprox.Options
import Overapprox.Order.Atom
import Overapprox.Order.Map
import Overapprox.Order.Set
import Overapprox.Report
import Overapprox.State.Analysis
import Overapprox.State.Composite
import Overapprox.State.Store
import Overapprox.Text.Blank
import Overapprox.Text.Quoted
import Overapprox.Text.Unprintable
import Overapprox.Ty.Basic
import Overapprox.Ty.Supertype
import Overapprox.Verdict
import Overapprox.Proofs.Number.Bounds
import Overapprox.Proofs.Concrete.Condition
import Overapprox.Proofs.Interval.Best
import Overapprox.Proofs.Interval.Evaluation
import Overapprox.Proofs.Interval.Monotone
import Overapprox.Proofs.Interval.Refinement
import Overapprox.Proofs.Interval.Verdict
import Overapprox.Proofs.Call.Aliases
import Overapprox.Proofs.Call.Recordings
import Overapprox.Proofs.Call.Resolvers
import Overapprox.Proofs.Call.ResultVariable
import Overapprox.Proofs.Call.Results
import Overapprox.Proofs.Domain.Level
import Overapprox.Proofs.Env.Assumption
import Overapprox.Proofs.Env.Conjunction
import Overapprox.Proofs.Env.History
import Overapprox.Proofs.Env.Narrowing
import Overapprox.Proofs.Env.Reachable
import Overapprox.Proofs.Env.Tracking
import Overapprox.Proofs.Env.Unreachable
import Overapprox.Proofs.Heap.Access
import Overapprox.Proofs.Heap.Rewriting
import Overapprox.Proofs.Lattice.Lifting
import Overapprox.Proofs.Options
import Overapprox.Proofs.Order.Fields
import Overapprox.Proofs.State.Assignment
import Overapprox.Proofs.State.Call
import Overapprox.Proofs.State.Condition
import Overapprox.Proofs.State.Substitution
import Overapprox.Proofs.State.Target
import Overapprox.Proofs.Types.Inference
import Overapprox.Proofs.Types.Joins
import Overapprox.Proofs.Types.Supertype
import Overapprox.Proofs.Widening.States

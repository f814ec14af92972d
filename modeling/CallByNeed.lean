import CallByNeed.Symbol
import CallByNeed.Symbol.Table
import CallByNeed.Arithmetic.Matrix
import CallByNeed.Builtin
import CallByNeed.Value.Combine
import CallByNeed.Value.Equality
import CallByNeed.Matching
import CallByNeed.Heap.Scope
import CallByNeed.Heap.Collect
import CallByNeed.Kernel.Shared
import CallByNeed.Loop.Expr
import CallByNeed.Loop.Table
import CallByNeed.Namespace
import CallByNeed.Session.Basic
import CallByNeed.Session.Collect
import CallByNeed.Evaluator.Invocation
import CallByNeed.Dispatch.Selection
import CallByNeed.Loop.Run
import CallByNeed.Builtin.Special
import CallByNeed.Builtin.Numeric
import CallByNeed.Builtin.Attributes
import CallByNeed.Evaluator
import CallByNeed.Session
import CallByNeed.Proofs.Run
import CallByNeed.Proofs.Failures
import CallByNeed.Proofs.Contract
import CallByNeed.Proofs.Contract.Actions
import CallByNeed.Proofs.Teardown
import CallByNeed.Proofs.LoopTable
import CallByNeed.Proofs.LifeCycle
import CallByNeed.Proofs.Resolution
import CallByNeed.Proofs.Promises
import CallByNeed.Proofs.Lowering
import CallByNeed.Proofs.Trial
import CallByNeed.Proofs.Roots
import CallByNeed.Proofs.Operations
import CallByNeed.Proofs.Iteration
import CallByNeed.Proofs.Refinement
import CallByNeed.Proofs.Matching.Reordering
import CallByNeed.Proofs.Heap.Collection
import CallByNeed.Proofs.Heap.References
import CallByNeed.Proofs.Heap.Assignment
import CallByNeed.Proofs.Returns.Escape
import CallByNeed.Proofs.Dangling.Collection
import CallByNeed.Proofs.UseMethod
import CallByNeed.Proofs.Termination.Endless
import CallByNeed.Proofs.Twins.Matching
import CallByNeed.Proofs.Twins.Builtins
import CallByNeed.Proofs.Twins.Bridge
import CallByNeed.Proofs.Twins.Sessions
import CallByNeed.Proofs.Twins.Outcomes
import CallByNeed.Proofs.Twins.Actions
import CallByNeed.Proofs.Twins.Evaluation
import CallByNeed.Proofs.Twins.Collection
import CallByNeed.Proofs.Twins.Loops
import CallByNeed.Proofs.Twins.TopLevel
import CallByNeed.Proofs.Restrained.Discipline
import CallByNeed.Proofs.Methods.Tables
import CallByNeed.Proofs.Restrained.Evaluation
import CallByNeed.Proofs.Restrained.Loops
import CallByNeed.Proofs.Restrained.ReservedNames
import CallByNeed.Proofs.Methods.Registration
import CallByNeed.Proofs.Methods.Spared
import CallByNeed.Proofs.Methods.Dispatch
import CallByNeed.Proofs.Methods.Operators
import CallByNeed.Proofs.Arguments.Omitted
import CallByNeed.Proofs.Arguments.Binding
import CallByNeed.Proofs.Namespaces
import CallByNeed.Proofs.Positions.Evaluation
import CallByNeed.Proofs.Heap.Ancestry
import CallByNeed.Proofs.Preserved
import CallByNeed.Proofs.Scopes
import CallByNeed.Proofs.Knots
import CallByNeed.Proofs.Arguments.Eager
import CallByNeed.Proofs.Relocation.References
import CallByNeed.Proofs.AttributeLists
import CallByNeed.Proofs.Interning
import CallByNeed.Proofs.Margins
import CallByNeed.Proofs.Increments

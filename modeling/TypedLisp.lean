import TypedLisp.Session
import TypedLisp.Proofs.Arguments
import TypedLisp.Proofs.TypeExpr.Grammar
import TypedLisp.Proofs.Resolution
import TypedLisp.Proofs.FunctionTypes
import TypedLisp.Proofs.Scopes
import TypedLisp.Proofs.World
import TypedLisp.Proofs.Evolution
import TypedLisp.Proofs.Frame
import TypedLisp.Proofs.Registry
import TypedLisp.Proofs.Instances.Requests
import TypedLisp.Proofs.Instances.Base
import TypedLisp.Proofs.Instances.Plans
import TypedLisp.Proofs.Instances.Values
import TypedLisp.Proofs.Instances.Rules
import TypedLisp.Proofs.Instances.Templates
import TypedLisp.Proofs.Instances.Expressions
import TypedLisp.Proofs.Instances.Bodies
import TypedLisp.Proofs.FailedCalls
import TypedLisp.Proofs.Number.Rounding
import TypedLisp.Proofs.Number.RoundTrip
import TypedLisp.Proofs.Operands
import TypedLisp.Proofs.Forms
import TypedLisp.Proofs.Datum.RoundTrip
import TypedLisp.Proofs.Datum.Grammar
import TypedLisp.Proofs.Datum.Faults
import TypedLisp.Proofs.Instances.Cache
import TypedLisp.Proofs.LocalRules
import TypedLisp.Proofs.Stepwise
import TypedLisp.Proofs.Counting
import TypedLisp.Proofs.Log
import TypedLisp.Proofs.Blame
import TypedLisp.Proofs.Instances.Specialization
import TypedLisp.Proofs.Simulation.Basic
import TypedLisp.Proofs.Simulation.Rules
import TypedLisp.Proofs.Simulation.Expressions
import TypedLisp.Proofs.FusedCalls
import TypedLisp.Proofs.Strictness
import TypedLisp.Proofs.Search
import TypedLisp.Proofs.Visibility
import TypedLisp.Proofs.Grounding
import TypedLisp.Proofs.ScopeSafety
import TypedLisp.Proofs.Prelude
import TypedLisp.Proofs.Registering
import TypedLisp.Proofs.FailedDeclarations
import TypedLisp.Proofs.Incremental
import TypedLisp.Proofs.ClassTables
import TypedLisp.Proofs.Nesting
import TypedLisp.Proofs.WithoutTemplates
import TypedLisp.Proofs.Termination
import TypedLisp.Proofs.ErrorPositions
import TypedLisp.Proofs.Interning
import TypedLisp.Proofs.Unions
import TypedLisp.Proofs.Expansion
import TypedLisp.Proofs.Pairing
import TypedLisp.Proofs.Levels
import TypedLisp.Proofs.Datum.Parts
import TypedLisp.Proofs.Datum.Composition
import TypedLisp.Proofs.TypeExpr.Substitution
import TypedLisp.Proofs.TypeExpr.Renaming
import TypedLisp.Proofs.Hygiene.Expressions
import TypedLisp.Proofs.Hygiene.Templates
import TypedLisp.Proofs.Hygiene.Checkers
import TypedLisp.Proofs.Hygiene.Instantiation

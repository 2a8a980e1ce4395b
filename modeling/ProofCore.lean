import ProofCore.Data.Table
import ProofCore.Data.Digraph
import ProofCore.Data.StrongComponents
import ProofCore.Syntax.Name
import ProofCore.Syntax.Term
import ProofCore.Syntax.Equality
import ProofCore.Syntax.Binding
import ProofCore.Syntax.Substitution
import ProofCore.Syntax.Context
import ProofCore.Syntax.Pattern
import ProofCore.Syntax.Definition
import ProofCore.Syntax.NatShape
import ProofCore.Evaluation.Matching
import ProofCore.Evaluation.WeakHead
import ProofCore.SizeChange.Relation
import ProofCore.SizeChange.RelationRow
import ProofCore.SizeChange.CallMatrix
import ProofCore.SizeChange.Outgoing
import ProofCore.SizeChange.CallGraph
import ProofCore.SizeChange.Closure
import ProofCore.SizeChange.Comparison
import ProofCore.SizeChange.Resolution
import ProofCore.Checking.Diagnostic
import ProofCore.Checking.Fault
import ProofCore.Checking.Declaration
import ProofCore.Checking.Dependency
import ProofCore.Checking.Checker
import ProofCore.Checking.Component
import ProofCore.Checking.Report
import ProofCore.Proofs.TableLookup
import ProofCore.Proofs.MatrixAlgebra
import ProofCore.Proofs.RecordedCalls
import ProofCore.Proofs.ClosureExact
import ProofCore.Proofs.SizeChangePrinciple
import ProofCore.Proofs.GraphEdges
import ProofCore.Proofs.GraphSearch
import ProofCore.Proofs.StrongConnect
import ProofCore.Proofs.Components
import ProofCore.Proofs.TermParts
import ProofCore.Proofs.Rebuilding
import ProofCore.Proofs.OpeningRules
import ProofCore.Proofs.Grafting
import ProofCore.Proofs.EvaluationRules
import ProofCore.Proofs.RulesAdequacy
import ProofCore.Proofs.DeterminedAnswers
import ProofCore.Proofs.SpareFuel
import ProofCore.Proofs.Simulation
import ProofCore.Proofs.EvaluationTransfer
import ProofCore.Proofs.ResolvedCalls
import ProofCore.Proofs.CallSites
import ProofCore.Proofs.DependencyUnits
import ProofCore.Proofs.UnitComponents
import ProofCore.Proofs.Acceptance
import ProofCore.Proofs.Judgement
import ProofCore.Proofs.SessionState
import ProofCore.Proofs.ComponentCheck
import ProofCore.Proofs.ModuleRun
import ProofCore.Proofs.Isolation
import ProofCore.Proofs.ClosureRounds
import ProofCore.Proofs.ComparedSizes
import ProofCore.Proofs.EndlessLoops
import ProofCore.Proofs.Scoping
import ProofCore.Proofs.ComponentPhases
import ProofCore.Proofs.Rollback
import ProofCore.Proofs.Turns
import ProofCore.Proofs.Conduct
import ProofCore.Proofs.Discipline
import ProofCore.Proofs.Metering
import ProofCore.Proofs.EvaluationBudget
import ProofCore.Proofs.ErrorAccounting
import ProofCore.Proofs.Deliveries
import ProofCore.Proofs.ModuleReport
import ProofCore.Proofs.Grounding
import ProofCore.Proofs.CircularSignatures
import ProofCore.Proofs.ReportCoverage
import ProofCore.Proofs.RetainedSignatures
import ProofCore.Proofs.MirroredChecks
import ProofCore.Proofs.KeptExamples
import ProofCore.Proofs.Instances
import ProofCore.Proofs.WrittenOut
import ProofCore.Proofs.NumeralTwins
import ProofCore.Proofs.NumeralTransparency
import ProofCore.Proofs.BetaReduction
import ProofCore.Proofs.CleanOpening
import ProofCore.Proofs.OpenedTerms
import ProofCore.Proofs.RoundTrips
import ProofCore.Proofs.BoundSegments
import ProofCore.Proofs.ReadBack
import ProofCore.Proofs.InlinedPatterns
import ProofCore.Proofs.PatternReferences
import ProofCore.Proofs.ComparedNumerals
import ProofCore.Proofs.NumeralLoop
import ProofCore.Proofs.ComparedParts

import FunkLang.Main
import FunkLang.Session
import FunkLang.Proofs.Outcome
import FunkLang.Proofs.ScopeTree
import FunkLang.Proofs.Visit
import FunkLang.Proofs.Evaluation
import FunkLang.Proofs.Frame
import FunkLang.Proofs.ScopeDiscipline
import FunkLang.Proofs.LocalSteps
import FunkLang.Proofs.CheckSteps
import FunkLang.Proofs.Scoping
import FunkLang.Proofs.Placement
import FunkLang.Proofs.BoundNames
import FunkLang.Proofs.CheckVisit
import FunkLang.Proofs.CheckedTypes
import FunkLang.Proofs.TypedSteps
import FunkLang.Proofs.TypedMachine
import FunkLang.Proofs.TypedRuns
import FunkLang.Proofs.TypeSoundness
import FunkLang.Proofs.Reading
import FunkLang.Proofs.Edges
import FunkLang.Proofs.Derived
import FunkLang.Proofs.DerivedStatements
import FunkLang.Proofs.Accepted
import FunkLang.Proofs.AcceptedStatements
import FunkLang.Proofs.ReadDerivations
import FunkLang.Proofs.Parts
import FunkLang.Proofs.MoreRoom
import FunkLang.Proofs.Finishing
import FunkLang.Proofs.FinishingSteps
import FunkLang.Proofs.Termination
import FunkLang.Proofs.Raising
import FunkLang.Proofs.Returns
import FunkLang.Proofs.Cells
import FunkLang.Proofs.Footprint
import FunkLang.Proofs.Attained
import FunkLang.Proofs.Encapsulation
import FunkLang.Proofs.Cutting
import FunkLang.Proofs.SpeltTrees
import FunkLang.Proofs.Lexemes
import FunkLang.Proofs.Respelling
import FunkLang.Proofs.Sums
import FunkLang.Proofs.RoundTrip
import FunkLang.Proofs.Fading
import FunkLang.Proofs.Splitting
import FunkLang.Proofs.Unlined
import FunkLang.Proofs.Layouts
import FunkLang.Proofs.SideBySide
import FunkLang.Proofs.Braces
import FunkLang.Proofs.BracedChecks
import FunkLang.Proofs.Mirroring
import FunkLang.Proofs.BracedSteps
import FunkLang.Proofs.BracedRuns
import FunkLang.Proofs.Rounding
import FunkLang.Proofs.Numerals
import FunkLang.Proofs.ShortestDecimals
import FunkLang.Proofs.WrittenNumbers
import FunkLang.Proofs.PrintedExpressions
import FunkLang.Proofs.PrintedStatements
import FunkLang.Proofs.PrintedPrograms
import FunkLang.Proofs.Occurrences
import FunkLang.Proofs.Joins
import FunkLang.Proofs.AgreeingChecks
import FunkLang.Proofs.Following
import FunkLang.Proofs.FollowedRuns
import FunkLang.Proofs.FollowedVisits
import FunkLang.Proofs.ConcreteTypes
import FunkLang.Proofs.Productions
import FunkLang.Proofs.WrittenPrograms
import FunkLang.Proofs.ProgramsAsWritten
import FunkLang.Proofs.CommandLine
import FunkLang.Proofs.CheckScopes
import FunkLang.Proofs.Operations
import FunkLang.Proofs.ChangedCollections
import FunkLang.Proofs.ScopeOperations
import FunkLang.Proofs.Unfoldings
import FunkLang.Proofs.Comparisons
import FunkLang.Proofs.CourseOfRuns
import FunkLang.Proofs.Moments
import FunkLang.Proofs.Renderings
import FunkLang.Proofs.Surroundings
import FunkLang.Proofs.ForLoops
import FunkLang.Proofs.Indexing
import FunkLang.Proofs.FlatExpressions
import FunkLang.Proofs.Choices
import FunkLang.Proofs.Rejections
import FunkLang.Proofs.StraightLines
import FunkLang.Proofs.FalseAlarms
import FunkLang.Proofs.Ranges
import FunkLang.Proofs.Lookahead
import FunkLang.Proofs.NodeLines
import FunkLang.Proofs.BlankScopes
import FunkLang.Proofs.NotedShadowing
import FunkLang.Proofs.SettledScopes
import FunkLang.Proofs.WellFormedMachines
import FunkLang.Proofs.WithBlocks
import FunkLang.Proofs.JoinedScripts
import FunkLang.Proofs.ScopeChains
import FunkLang.Proofs.EnoughRoom
import FunkLang.Proofs.Progress
import FunkLang.Proofs.InsertionOrder

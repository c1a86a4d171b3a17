import CodeGraph.Main
import CodeGraph.Cypher.Builders
import CodeGraph.Proofs.EdgeLists
import CodeGraph.Proofs.Growth
import CodeGraph.Schedule.Document
import CodeGraph.Proofs.EdgeLog
import CodeGraph.Proofs.EdgeIntegrity
import CodeGraph.Proofs.Candidates
import CodeGraph.Proofs.Evaluation
import CodeGraph.Proofs.Comparing
import CodeGraph.Proofs.NearestDouble
import CodeGraph.Proofs.MixedNumbers
import CodeGraph.Proofs.Pruning
import CodeGraph.Proofs.Rows
import CodeGraph.Proofs.Lowering
import CodeGraph.Proofs.Filling
import CodeGraph.Proofs.Matching
import CodeGraph.Proofs.Meaning
import CodeGraph.Proofs.FarEnds
import CodeGraph.Proofs.SurvivingPairs
import CodeGraph.Proofs.Answering
import CodeGraph.Proofs.Bindings
import CodeGraph.Proofs.CheckedPruning
import CodeGraph.Proofs.CheckedMatching
import CodeGraph.Proofs.SettledParts
import CodeGraph.Proofs.PruningRounds
import CodeGraph.Proofs.Walking
import CodeGraph.Proofs.Connectives
import CodeGraph.Proofs.Independence
import CodeGraph.Proofs.Monotonicity
import CodeGraph.Proofs.Rewriting
import CodeGraph.Proofs.Reversal
import CodeGraph.Proofs.Naming
import CodeGraph.Proofs.LabelIndex
import CodeGraph.Proofs.Alternatives
import CodeGraph.Proofs.Acceptance
import CodeGraph.Proofs.FailClosed
import CodeGraph.Proofs.Cypher.Gaps
import CodeGraph.Proofs.Cypher.Readers
import CodeGraph.Proofs.Cypher.Cutting
import CodeGraph.Proofs.Cypher.Standing
import CodeGraph.Proofs.Cypher.Restyling
import CodeGraph.Proofs.Cypher.RestyledClauses
import CodeGraph.Proofs.Cypher.Respacing
import CodeGraph.Proofs.Cypher.NumberFaults
import CodeGraph.Proofs.Cypher.Takings
import CodeGraph.Proofs.Cypher.TakenClauses
import CodeGraph.Proofs.Cypher.RenderedTokens
import CodeGraph.Proofs.Cypher.Operands
import CodeGraph.Proofs.Cypher.RoundTrip
import CodeGraph.Proofs.Cypher.Precedence
import CodeGraph.Proofs.Cypher.Quoting
import CodeGraph.Proofs.Cypher.Spellings
import CodeGraph.Proofs.Cypher.WrittenNames
import CodeGraph.Proofs.Cypher.LetterCase
import CodeGraph.Proofs.Cypher.Recasing

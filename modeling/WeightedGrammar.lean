import WeightedGrammar.Grammar.Printer
import WeightedGrammar.PromptNode
import WeightedGrammar.Proofs.Form.Loading
import WeightedGrammar.Proofs.Grammar.RoundTrip
import WeightedGrammar.Proofs.Pass.Derivation
import WeightedGrammar.Proofs.Selection.Contenders
import WeightedGrammar.Random.Source
import WeightedGrammar.Token.Cursor
import WeightedGrammar.Proofs.Pass.Agenda
import WeightedGrammar.Proofs.Pass.Ending
import WeightedGrammar.Proofs.Number.Double
import WeightedGrammar.Proofs.Pass.Failure
import WeightedGrammar.Proofs.Pass.Gating
import WeightedGrammar.Proofs.Pass.Guard
import WeightedGrammar.Proofs.Number.Rational
import WeightedGrammar.Proofs.Selection.Distribution
import WeightedGrammar.Proofs.Selection.Ungated
import WeightedGrammar.Proofs.Condition.RoundTrip
import WeightedGrammar.Proofs.Grammar.WellFormed
import WeightedGrammar.Proofs.Token.Joined
import WeightedGrammar.Proofs.Form.Heads
import WeightedGrammar.Proofs.Grammar.Joined
import WeightedGrammar.Proofs.Token.Lines
import WeightedGrammar.Proofs.Token.Comment
import WeightedGrammar.Proofs.Form.Places
import WeightedGrammar.Proofs.Form.Stretches
import WeightedGrammar.Proofs.Grammar.Undefined
import WeightedGrammar.Proofs.Pass.Unreached
import WeightedGrammar.Proofs.Grammar.Located
import WeightedGrammar.Proofs.Grammar.Marks
import WeightedGrammar.Proofs.Selection.Partition
import WeightedGrammar.Proofs.Pass.History
import WeightedGrammar.Proofs.Pass.Trap
import WeightedGrammar.Proofs.Grammar.Opener
import WeightedGrammar.Proofs.Pass.Opener
import WeightedGrammar.Proofs.Pass.Simulation
import WeightedGrammar.Proofs.Token.Cursor
import WeightedGrammar.Proofs.Token.Leaf
import WeightedGrammar.Proofs.Pass.Trace
import WeightedGrammar.Proofs.Pass.Determined

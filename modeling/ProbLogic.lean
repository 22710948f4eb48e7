import ProbLogic.Text.Quoted
import ProbLogic.Scalar
import ProbLogic.Ascending
import ProbLogic.Token.Lexer
import ProbLogic.Statement.Parser
import ProbLogic.Cnf.Dimacs
import ProbLogic.Cnf.Draft
import ProbLogic.Cnf.Reader
import ProbLogic.Weights.Text
import ProbLogic.Numbering
import ProbLogic.Program
import ProbLogic.Problem
import ProbLogic.Command.Memory
import ProbLogic.Main
import ProbLogic.Proofs.Evidence
import ProbLogic.Proofs.Count
import ProbLogic.Proofs.Calls
import ProbLogic.Proofs.Contents
import ProbLogic.Proofs.StableModel
import ProbLogic.Proofs.Facts
import ProbLogic.Proofs.ReachedChoices
import ProbLogic.Proofs.Unrolling.Termination
import ProbLogic.Proofs.Unrolling.Reentry
import ProbLogic.Proofs.Unrolling.Seeds
import ProbLogic.Proofs.Unrolling.Elimination
import ProbLogic.Proofs.Unrolling.Names
import ProbLogic.Proofs.Unrolling.Unchanged
import ProbLogic.Proofs.UniqueExtension
import ProbLogic.Proofs.Cnf.Dimacs
import ProbLogic.Proofs.Cnf.Atomicity
import ProbLogic.Proofs.Cnf.Reader
import ProbLogic.Proofs.ProgramText
import ProbLogic.Proofs.Decimal.Reader
import ProbLogic.Proofs.Header
import ProbLogic.Completion.Encoder
import ProbLogic.Proofs.Encoder
import ProbLogic.Proofs.WeightText
import ProbLogic.Proofs.Grounding
import ProbLogic.Proofs.AtomNames
import ProbLogic.Token.Repetition
import ProbLogic.Proofs.Layout
import ProbLogic.Proofs.Repetition
import ProbLogic.Proofs.Respacing
import ProbLogic.Proofs.Concatenation
import ProbLogic.Proofs.LiteralFields
import ProbLogic.Proofs.WeightLine

import Capuchin.Main
import Capuchin.Syntax.Outline
import Capuchin.Proofs.Evaluation.Invariant
import Capuchin.Proofs.Scope.Frames
import Capuchin.Proofs.Evaluation.Traversal
import Capuchin.Proofs.Evaluation.Discipline
import Capuchin.Proofs.Evaluation.Flat
import Capuchin.Proofs.Evaluation.FlatAgreement
import Capuchin.Proofs.Syntax.Progress
import Capuchin.Proofs.Syntax.Acceptance
import Capuchin.Proofs.Syntax.Reprinting
import Capuchin.Proofs.Syntax.Conservation
import Capuchin.Proofs.Syntax.Appending
import Capuchin.Proofs.Evaluation.Piecewise
import Capuchin.Proofs.Evaluation.Sessions
import Capuchin.Proofs.Evaluation.Returning
import Capuchin.Proofs.Evaluation.Following
import Capuchin.Proofs.Evaluation.Widening
import Capuchin.Proofs.Token.Languages
import Capuchin.Proofs.Token.Munching
import Capuchin.Proofs.Evaluation.Accesses
import Capuchin.Proofs.Evaluation.Consoles
import Capuchin.Proofs.CommandLine.LineMode
import Capuchin.Proofs.Syntax.Climbing
import Capuchin.Proofs.Syntax.Contents
import Capuchin.Proofs.Syntax.Finishing
import Capuchin.Proofs.Syntax.Objections
import Capuchin.Proofs.Syntax.Spacing
import Capuchin.Proofs.Token.Quotes
import Capuchin.Proofs.Evaluation.HigherOrder
import Capuchin.Proofs.Scope.Histories
import Capuchin.Proofs.Evaluation.Halting
import Capuchin.Proofs.Value.Equality
import Capuchin.Proofs.Value.StringOrder
import Capuchin.Proofs.Evaluation.Arithmetic
import Capuchin.Proofs.Evaluation.Conversions

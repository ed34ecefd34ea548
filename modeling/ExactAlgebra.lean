import ExactAlgebra.Console
import ExactAlgebra.FileTree
import ExactAlgebra.Ledger.Command
import ExactAlgebra.Main
import ExactAlgebra.Proofs.Ages.History
import ExactAlgebra.Proofs.Ages.Operators
import ExactAlgebra.Proofs.Bindings.First
import ExactAlgebra.Proofs.Bindings.Unbound
import ExactAlgebra.Proofs.Console
import ExactAlgebra.Proofs.Content.FixedPoint
import ExactAlgebra.Proofs.Content.Flattening
import ExactAlgebra.Proofs.Content.Idempotence
import ExactAlgebra.Proofs.Content.Inverses
import ExactAlgebra.Proofs.Direct
import ExactAlgebra.Proofs.Equality.Structural
import ExactAlgebra.Proofs.Formula.Parsing
import ExactAlgebra.Proofs.Fraction
import ExactAlgebra.Proofs.Ledger.Accumulation
import ExactAlgebra.Proofs.Ledger.Commands
import ExactAlgebra.Proofs.Meaning.Folding
import ExactAlgebra.Proofs.Nesting
import ExactAlgebra.Proofs.Numerals
import ExactAlgebra.Proofs.Order.Session
import ExactAlgebra.Proofs.Polynomial.Parsing
import ExactAlgebra.Proofs.Printed.FunctionForm
import ExactAlgebra.Proofs.Printed.RoundTrip
import ExactAlgebra.Proofs.Termination.Unbounded
import ExactAlgebra.Proofs.Written.Joined
import ExactAlgebra.Script.Run
import ExactAlgebra.Settings

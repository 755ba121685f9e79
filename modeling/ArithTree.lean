import ArithTree.Main
import ArithTree.Proofs.Arena.Equality
import ArithTree.Proofs.Draft.Unfolding
import ArithTree.Proofs.Evaluation.Quotient
import ArithTree.Proofs.Evaluation.Table
import ArithTree.Proofs.Form.Balance
import ArithTree.Proofs.Form.Continuation
import ArithTree.Proofs.Form.Display
import ArithTree.Proofs.Form.Segmentation
import ArithTree.Proofs.Formula.Place
import ArithTree.Proofs.Formula.Regrouping
import ArithTree.Proofs.Grade.Totals
import ArithTree.Proofs.Grammar.Runaway
import ArithTree.Proofs.Sampling.Lines
import ArithTree.Proofs.Sampling.Shape
import ArithTree.Proofs.Sampling.Value
import ArithTree.Proofs.Session.Accepted

import LoxFront.Main
import LoxFront.Proofs.Parse.Isolation
import LoxFront.Proofs.Parse.Writing
import LoxFront.Proofs.Token.Stream
import LoxFront.Proofs.Parse.Reports
import LoxFront.Proofs.Parse.Enclosing
import LoxFront.Proofs.Diagnostic.Quoting
import LoxFront.Proofs.Token.Tiling
import LoxFront.Proofs.Parse.Balance
import LoxFront.Proofs.Parse.Budget
import LoxFront.Proofs.Parse.Hook
import LoxFront.Proofs.Parse.Lookahead
import LoxFront.Proofs.Parse.Accounting
import LoxFront.Proofs.Parse.Separators
import LoxFront.Proofs.Parse.Relabelling
import LoxFront.Proofs.Node.Equality
import LoxFront.Proofs.CommandLine.Status
import LoxFront.Proofs.Parse.Chains
import LoxFront.Proofs.Parse.Recovery
import LoxFront.Proofs.Token.Joined
import LoxFront.Proofs.Token.Literals
import LoxFront.Proofs.Token.Spaced
import LoxFront.Proofs.Token.Returns
import LoxFront.Proofs.Parse.Wording
import LoxFront.Proofs.Diagnostic.Layout
import LoxFront.Proofs.Tree.Rows
import LoxFront.Proofs.CommandLine.Output
import LoxFront.Proofs.Node.Listing
import LoxFront.Proofs.Node.Walking

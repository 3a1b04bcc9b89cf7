import ImpLang.Parser.Built
import ImpLang.Main
import ImpLang.Proofs.Command.BigStep
import ImpLang.Proofs.Command.Widening
import ImpLang.Proofs.Token.Lexeme
import ImpLang.Proofs.Token.MaximalMunch
import ImpLang.Proofs.Grammar.Longest
import ImpLang.Proofs.Program.Source
import ImpLang.Proofs.Program.Canonical
import ImpLang.Proofs.Program.Printer
import ImpLang.Proofs.Command.Sequence
import ImpLang.Proofs.Program.Joining
import ImpLang.Proofs.Command.OutputLimit
import ImpLang.Proofs.Store.Names
import ImpLang.Proofs.Store.Lookup
import ImpLang.Proofs.Store.Written
import ImpLang.Proofs.Store.Language
import ImpLang.Proofs.Store.RoundTrip
import ImpLang.Proofs.Command.Pending
import ImpLang.Proofs.Command.Targets
import ImpLang.Proofs.Program.FinalStore
import ImpLang.Proofs.Program.Nodes
import ImpLang.Proofs.Expr.Strict
import ImpLang.Proofs.Parser.OperatorChain
import ImpLang.Proofs.Parser.Session
import ImpLang.Proofs.Program.Widening
import ImpLang.Proofs.Token.Stuck
import ImpLang.Proofs.Expr.Display
import ImpLang.Proofs.Program.Display
import ImpLang.Proofs.Token.Adjacent
import ImpLang.Proofs.Token.Lines
import ImpLang.Proofs.Parser.SepBy
import ImpLang.Proofs.Grammar.Shift
import ImpLang.Proofs.Command.Renaming
import ImpLang.Proofs.Command.Agreement
import ImpLang.Proofs.Program.Renaming
import ImpLang.Proofs.Grammar.Ascent
import ImpLang.Proofs.Store.LastWrites
import ImpLang.Proofs.Parser.Bounds
import ImpLang.Proofs.Grammar.Alternatives

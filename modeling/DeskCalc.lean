import DeskCalc.Console.World
import DeskCalc.Main
import DeskCalc.Proofs.Code.Buffer
import DeskCalc.Proofs.Code.Calls
import DeskCalc.Proofs.Code.Letters
import DeskCalc.Proofs.Code.Postfix
import DeskCalc.Proofs.Console.Dialogue
import DeskCalc.Proofs.Production.Folds
import DeskCalc.Proofs.Production.Termination
import DeskCalc.Proofs.Program.Brackets
import DeskCalc.Proofs.Program.Concatenation
import DeskCalc.Proofs.Program.Indentation
import DeskCalc.Proofs.Program.RoundTrip
import DeskCalc.Proofs.Session.Excerpts
import DeskCalc.Proofs.Session.Layout
import DeskCalc.Proofs.Session.Repetition
import DeskCalc.Proofs.Session.Reuse
import DeskCalc.Proofs.Session.Soundness
import DeskCalc.Proofs.Symbol.History
import DeskCalc.Proofs.Token.Lookahead
import DeskCalc.Proofs.Token.Recovery
import DeskCalc.Proofs.Typing.Divisions
import DeskCalc.Proofs.Typing.Entries
import DeskCalc.Proofs.Typing.Idempotence
import DeskCalc.Proofs.Typing.Reports

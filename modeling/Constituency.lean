import Constituency.Grammar.Printer
import Constituency.Main
import Constituency.Proofs.Chart.Outside
import Constituency.Proofs.Decode.Yield
import Constituency.Proofs.Search.Backpointers
import Constituency.Proofs.Chart.Traced
import Constituency.Proofs.Decode.Bracketing
import Constituency.Proofs.Decode.Goodman
import Constituency.Proofs.Search.Rounds
import Constituency.Proofs.Decode.Licensed
import Constituency.Proofs.Search.Agenda.FirstParse
import Constituency.Proofs.Chart.Storage
import Constituency.Proofs.Search.Storage
import Constituency.Proofs.Search.WordChains
import Constituency.Proofs.Decode.ConstituentTree
import Constituency.Proofs.Decode.Reduction
import Constituency.Proofs.Grammar.Builder
import Constituency.Proofs.Grammar.Written
import Constituency.Proofs.Grammar.Binarization
import Constituency.Proofs.Grammar.Flattening
import Constituency.Proofs.Search.Survival
import Constituency.Proofs.Search.Agenda.Budget
import Constituency.Proofs.Chart.Offers
import Constituency.Proofs.Search.Crossing
import Constituency.Proofs.Decode.UnknownWords
import Constituency.Proofs.Decode.Unsplit
import Constituency.Proofs.Search.Resummed
import Constituency.Proofs.Decode.OptimalBracketing
import Constituency.Proofs.Decode.OptimalRules
import Constituency.Proofs.Chart.Race
import Constituency.Proofs.Grammar.Assembly
import Constituency.Proofs.Merit
import Constituency.Proofs.Search.MeritTable
import Constituency.Proofs.Search.CommitOrder
import Constituency.Proofs.Decode.RuleSole
import Constituency.Proofs.Chart.Leaders
import Constituency.Proofs.Chart.Refinement
import Constituency.Proofs.Grammar.Calls
import Constituency.Proofs.Search.Agenda.Drain
import Constituency.Proofs.ChildCode.Faithful
import Constituency.Proofs.Unfactor
import Constituency.Proofs.Chart.Extraction
import Constituency.Proofs.Chart.Installed
import Constituency.Proofs.Grammar.Echo
import Constituency.Proofs.Score.LogSum
import Constituency.Proofs.Options
import Constituency.Proofs.Strides
import Constituency.Proofs.Score.Number

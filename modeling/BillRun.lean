import BillRun.Account.Session
import BillRun.Json.Writer
import BillRun.Service.Reply
import BillRun.Proofs.Convergence
import BillRun.Proofs.UnchangedHistory
import BillRun.Proofs.Ledger
import BillRun.Proofs.Arranging
import BillRun.Proofs.Shortening
import BillRun.Proofs.LateEvent
import BillRun.Proofs.Separation
import BillRun.Proofs.InputOrder
import BillRun.Proofs.CycleDates
import BillRun.Proofs.Coverage
import BillRun.Proofs.Horizon
import BillRun.Proofs.Replies
import BillRun.Proofs.Spelling
import BillRun.Proofs.TargetOffset
import BillRun.Proofs.Repetition
import BillRun.Proofs.Cutting
import BillRun.Proofs.ExactRounding
import BillRun.Proofs.Precision
import BillRun.Proofs.Proportion
import BillRun.Proofs.Succession
import BillRun.Proofs.Extent
import BillRun.Proofs.FullPrice
import BillRun.Proofs.StretchEnd
import BillRun.Proofs.WholeMonths
import BillRun.Proofs.Linking
import BillRun.Proofs.Totals
import BillRun.Proofs.AnchorDay

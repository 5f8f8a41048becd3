import NeigeCalm.Objective.Compaction
import NeigeCalm.Objective.Arrival
import NeigeCalm.Checkout.Exclusion
import NeigeCalm.Tree.Budget
import NeigeCalm.Runs.Commits
import NeigeCalm.Harness.Custody
import NeigeCalm.Harness.Folding
import NeigeCalm.Vcs.Prune
import NeigeCalm.Vcs.Collect
import NeigeCalm.Objective.Ratchet
import NeigeCalm.Objective.Budget
import NeigeCalm.Conversation.Consistency
import NeigeCalm.Authority.Resolve
import NeigeCalm.EventLog.Safety
import NeigeCalm.EventLog.Delivery
import NeigeCalm.Terminal.Certainty
import NeigeCalm.Terminal.Resize
import NeigeCalm.Report.Codec
import NeigeCalm.Report.Replace
import NeigeCalm.Report.Stripping
import NeigeCalm.Tree.Suggestion
import NeigeCalm.Report.Plans
import NeigeCalm.Context.Closure
import NeigeCalm.Market.Calendar
import NeigeCalm.Report.Glob

import Http4.Client.Encodable
import Http4.Client.InFlight
import Http4.Sender.Repair
import Http4.Sender.RepairSeq
import Http4.Server.BytecacheLru
import Http4.Server.CacheDirectives
import Http4.Server.Lifetime
import Http4.Server.Origins
import Http4.Server.Routes
import Http4.Impair.Pipe
import Http4.Client.BudgetLimited
import Http4.Client.MinRtt
import Http4.Client.QuietPeriod
import Http4.Client.ReorderWindow
import Http4.Sender.Accounting
import Http4.Sender.DatagramLimit
import Http4.Sender.MetaFirst
import Http4.Sender.Pacer
import Http4.Sender.TailDuplicate
import Http4.Client.Fetcher
import Http4.System.RoundTrip
import Http4.System.SeqRanges
import Http4.Client.Settled
import Http4.Client.DeadLoop
import Http4.Client.Outcomes
import Http4.Client.Stuck
import Http4.System.FlowControl
import Http4.System.Deadlock
import Http4.Sender.Drain
import Http4.System.Verdicts
import Http4.Worker.Released
import Http4.Server.Site
import Http4.System.SameSite
import Http4.System.HttpReplies

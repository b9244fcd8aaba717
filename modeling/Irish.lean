import Irish.Xv6.QueueMoves
import Irish.Xv6.Boost
import Irish.Xv6.Waitx
import Irish.Xv6.Fifo
import Irish.Xv6.Family
import Irish.Xv6.MulticoreMetrics
import Irish.Xv6.Wakeups
import Irish.Xv6.LogRecovery
import Irish.Xv6.BioCoherence
import Irish.Xv6.PipeWaiters
import Irish.Xv6.FileRefs
import Irish.Xv6.VirtioTransfers
import Irish.Shell.Quoting
import Irish.Shell.LexerMemory
import Irish.Shell.LineRuns
import Irish.Shell.Decomposition
import Irish.Shell.HelperLoops
import Irish.Shell.Stopping
import Irish.Shell.JobGroups
import Irish.Shell.JobNames
import Irish.Shell.CmdLine
import Irish.Shell.Announcements
import Irish.Shell.ShellTable
import Irish.Shell.PeekReversal
import Irish.Shell.Hop
import Irish.Shell.Reveal
import Irish.Shell.Locate
import Irish.Shell.Snoop

import Svr42.MuxReach
import Svr42.FlockBytes
import Svr42.FlockDeadlock
import Svr42.FlockWakeup
import Svr42.StreamWriters
import Svr42.BufcallRuns
import Svr42.SemWakeups
import Svr42.SemBooks
import Svr42.MsgRuns
import Svr42.CalloutWrap
import Svr42.DnlcRuns
import Svr42.ModldRuns
import Svr42.S5Search
import Svr42.VnodeChecks
import Svr42.PidTable
import Svr42.BfsDirRuns
import Svr42.BfsFileContents
import Svr42.TsRuns
import Svr42.SigRuns
import Svr42.PgrpRuns
import Svr42.StreamInsert
import Svr42.ClistRuns
import Svr42.QrunRuns
import Svr42.ShmRuns
import Svr42.AdjmsgCalls
import Svr42.HrtRound
import Svr42.ClockRuns
import Svr42.SemAccess
import Svr42.SegGap
import Svr42.SegFault
import Svr42.S5TruncRuns
import Svr42.ModLinksFails
import Svr42.ArgvStrTrip
import Svr42.LvlInverse
import Svr42.AclSortValid
import Svr42.MktimeExact
import Svr42.MlockRestores
import Svr42.QsortSorts
import Svr42.TzDays
import Svr42.StrtolExact
import Svr42.TsearchRuns
import Svr42.HsearchRuns
import Svr42.DcArith
import Svr42.Strptr
import Svr42.InputVm
import Svr42.Gmatch
import Svr42.Strecpy

import Garnet.Inspect.StateLimit
import Garnet.Merkle.Agreement
import Garnet.Far.Agreement
import Garnet.Pkg.Paths
import Garnet.Stash.Transactions
import Garnet.Thinfs.Conductor
import Garnet.Intl.CharAlgebra
import Garnet.Async.Executor
import Garnet.Async.Timer
import Garnet.Async.TimerHeaps
import Garnet.Gpt.Misplaced
import Garnet.Msdosfs.FileArray
import Garnet.PkgResolver.Serializable
import Garnet.Logger.Isolation
import Garnet.Wayland.RoundTrip
import Garnet.PseudoFs.FileSession
import Garnet.PseudoFs.Rights
import Garnet.PseudoFs.ListingRuns
import Garnet.Inspect.Histogram
import Garnet.Inspect.Seqlock
import Garnet.SystemMonitor.Responses
import Garnet.Pmd.Activation
import Garnet.OmahaClient.Borrows
import Garnet.Inspect.Names
import Garnet.Stash.Messages
import Garnet.Packet.UndoParse
import Garnet.Fidl.Replies
import Garnet.Packet.Serialize
import Garnet.Gpt.Checksums
import Garnet.Msdosfs.FreeCount
import Garnet.Msdosfs.Collect
import Garnet.Wayland.Array
import Garnet.Vsock.Ports
import Garnet.Logger.Datagram

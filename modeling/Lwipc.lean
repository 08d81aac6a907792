import Lwipc.MpmcProgress
import Lwipc.SpmcLog
import Lwipc.PoolAvailable
import Lwipc.SocketTransport
import Lwipc.ChannelStats
import Lwipc.LoanPaths
import Lwipc.Checksum
import Lwipc.WireFormat
import Lwipc.SocketReceive
import Lwipc.ChannelRegistry
import Lwipc.ShmAttach
import Lwipc.ServerStop
import Lwipc.AsyncSubscriber
import Lwipc.MpmcLinearizable
import Lwipc.PoolLinearizable
import Lwipc.RegistryLookup
import Lwipc.SocketNetwork
import Lwipc.AsyncRounds
import Lwipc.SocketBroadcast
import Lwipc.PoolProgress
import Lwipc.RegistryProgress

import NoxClassic.Dispatch.Event
import NoxClassic.Dispatch.TimerWrap
import NoxClassic.Storage.Queries
import NoxClassic.Storage.Scan
import NoxClassic.SpanningTree.Callback
import NoxClassic.SpanningTree.PortCount
import NoxClassic.Openflow.Transmit
import NoxClassic.Openflow.Handshake
import NoxClassic.Messenger.Binary
import NoxClassic.Messenger.JsonText
import NoxClassic.Kernel.Failure
import NoxClassic.Classifier.NatEnforcer
import NoxClassic.Classifier.Delete
import NoxClassic.Nox.Connections
import NoxClassic.Nox.Handshake
import NoxClassic.Storage.Removal
import NoxClassic.SwitchMgr.Commit
import NoxClassic.Threads.RwLock
import NoxClassic.Threads.Pool.Shutdown
import NoxClassic.Packet.Checksum
import NoxClassic.Packet.Dhcp
import NoxClassic.Nox.MessageOrder
import NoxClassic.DataCache.Groups
import NoxClassic.DataCache.Addresses
import NoxClassic.Discovery
import NoxClassic.Openflow.Reliable
import NoxClassic.SslSocket
import NoxClassic.Netlink
import NoxClassic.WebService
import NoxClassic.LocationNames
import NoxClassic.UserEventLog
import NoxClassic.ArrayBuffer
import NoxClassic.NetworkState

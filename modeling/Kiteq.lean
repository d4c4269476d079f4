import Kiteq.Lib.BigEndian
import Kiteq.Lib.PrefixCode
import Kiteq.Lib.System
import Kiteq.Lib.History
import Kiteq.Lib.Machine
import Kiteq.Lib.Proto2
import Kiteq.Lib.CodedStream
import Kiteq.Lib.ArrayStream
import Kiteq.Lib.GeneratedClass
import Kiteq.Lib.FieldLoop
import Kiteq.Lib.MessageModel
import Kiteq.Lib.MessageSlots
import Kiteq.Lib.SchemaModel
import Kiteq.Lib.MessageLife
import Kiteq.Lib.Table
import Kiteq.Lib.Separator
import Kiteq.Lib.Optimistic
import Kiteq.Commons.Platform
import Kiteq.Commons.Vector
import Kiteq.Commons.ByteBuf
import Kiteq.Commons.Representation
import Kiteq.Commons.Counter
import Kiteq.Commons.Numbering
import Kiteq.Commons.HostPort
import Kiteq.Protocol.Message
import Kiteq.Protocol.Generated
import Kiteq.Protocol.Packet
import Kiteq.Protocol.Frame
import Kiteq.Protocol.Proto2
import Kiteq.Protocol.RoundTrip
import Kiteq.Protocol.GeneratedRuntime
import Kiteq.Protocol.GeneratedLife
import Kiteq.Protocol.GeneratedBytes
import Kiteq.Protocol.WireFormat
import Kiteq.Protocol.Grammar
import Kiteq.Protocol.Reencoding
import Kiteq.Protocol.Delimited
import Kiteq.Remoting.Session
import Kiteq.Remoting.ReadLoop
import Kiteq.Remoting.Neighbours
import Kiteq.Remoting.StreamRoundTrip
import Kiteq.Remoting.FrameBounds
import Kiteq.Remoting.Oversized
import Kiteq.Remoting.Wire
import Kiteq.Remoting.ResponseFuture
import Kiteq.Remoting.RegistrySafety
import Kiteq.Remoting.LostResponse
import Kiteq.Remoting.Client
import Kiteq.Remoting.Steps
import Kiteq.Remoting.Core
import Kiteq.Remoting.Acknowledged
import Kiteq.Remoting.Clients
import Kiteq.Remoting.Authenticated
import Kiteq.Remoting.Control
import Kiteq.Remoting.StatusMachine
import Kiteq.Remoting.OneReconnect
import Kiteq.Remoting.Stopping
import Kiteq.Remoting.Retrying
import Kiteq.Remoting.Casts
import Kiteq.Remoting.Listeners
import Kiteq.Remoting.Addresses
import Kiteq.Remoting.DeathVerdict
import Kiteq.Remoting.HeartbeatTime
import Kiteq.Remoting.InOrder
import Kiteq.Remoting.Attempts
import Kiteq.Remoting.Progress
import Kiteq.Remoting.Pacing
import Kiteq.Remoting.EndToEnd

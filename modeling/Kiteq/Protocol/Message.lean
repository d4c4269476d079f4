import Kiteq.Commons.Platform

/-!
# The messages of `kite_remoting.proto`

One record for each proto2 message that travels as a packet body, with `Option` for the
has-bits; a getter of an unset field returns the default the schema declares.  `isInitialized`
is the generated `IsInitialized`: every required field is set, recursively.

The protobuf runtime is not part of the client.  `Protobuf` is what the client calls of it,
and `Protobuf.Encodes` is what the client relies on when it serializes a message.
-/

namespace Kiteq

/-- `std::string` and `bytes` fields. -/
abbrev Bytes := List CChar

structure HeartBeat where
  version : Option CLong
deriving DecidableEq, Repr

structure ConnMeta where
  groupId : Option Bytes
  secretKey : Option Bytes
  warmingupSec : Option CInt
deriving DecidableEq, Repr

structure ConnAuthAck where
  status : Option Bool
  feedback : Option Bytes
deriving DecidableEq, Repr

structure MessageStoreAck where
  messageId : Option Bytes
  status : Option Bool
  feedback : Option Bytes
deriving DecidableEq, Repr

structure DeliverAck where
  messageId : Option Bytes
  topic : Option Bytes
  messageType : Option Bytes
  groupId : Option Bytes
  status : Option Bool
  feedback : Option Bytes
deriving DecidableEq, Repr

structure Entry where
  key : Option Bytes
  value : Option Bytes
deriving DecidableEq, Repr

structure Header where
  messageId : Option Bytes
  topic : Option Bytes
  messageType : Option Bytes
  expiredTime : Option CLong
  deliverLimit : Option CInt
  groupId : Option Bytes
  commit : Option Bool
  fly : Option Bool
  properties : List Entry
  createTime : Option CLong
deriving DecidableEq, Repr

structure TxACKPacket where
  header : Option Header
  status : Option CInt
  feedback : Option Bytes
deriving DecidableEq, Repr

structure BytesMessage where
  header : Option Header
  body : Option Bytes
deriving DecidableEq, Repr

structure StringMessage where
  header : Option Header
  body : Option Bytes
deriving DecidableEq, Repr

/-! ## Getters with a declared default -/

/-- `version()`, `0` when unset. -/
def HeartBeat.getVersion (m : HeartBeat) : CLong := m.version.getD 0

/-- `status()`, declared `[default = true]`. -/
def ConnAuthAck.getStatus (m : ConnAuthAck) : Bool := m.status.getD true

/-- `status()`, declared `[default = true]`. -/
def MessageStoreAck.getStatus (m : MessageStoreAck) : Bool := m.status.getD true

/-! ## Required fields -/

def Entry.isInitialized (m : Entry) : Bool := m.key.isSome && m.value.isSome

def Header.isInitialized (m : Header) : Bool :=
  m.messageId.isSome && m.topic.isSome && m.messageType.isSome && m.expiredTime.isSome &&
    m.deliverLimit.isSome && m.groupId.isSome && m.commit.isSome && m.fly.isSome &&
    m.properties.all Entry.isInitialized

/-- The message classes that travel as packet bodies. -/
inductive MessageKind where
  | heartBeat
  | connMeta
  | connAuthAck
  | messageStoreAck
  | deliverAck
  | txACKPacket
  | bytesMessage
  | stringMessage
deriving DecidableEq, Repr

/-- An object behind a `shared_ptr<protobuf::MessageLite>`. -/
inductive MessageLite where
  | heartBeat (m : HeartBeat)
  | connMeta (m : ConnMeta)
  | connAuthAck (m : ConnAuthAck)
  | messageStoreAck (m : MessageStoreAck)
  | deliverAck (m : DeliverAck)
  | txACKPacket (m : TxACKPacket)
  | bytesMessage (m : BytesMessage)
  | stringMessage (m : StringMessage)
deriving DecidableEq, Repr

namespace MessageLite

/-- The class of the object. -/
def kind : MessageLite → MessageKind
  | .heartBeat _ => .heartBeat
  | .connMeta _ => .connMeta
  | .connAuthAck _ => .connAuthAck
  | .messageStoreAck _ => .messageStoreAck
  | .deliverAck _ => .deliverAck
  | .txACKPacket _ => .txACKPacket
  | .bytesMessage _ => .bytesMessage
  | .stringMessage _ => .stringMessage

/-- `IsInitialized()`: the message is complete. -/
def isInitialized : MessageLite → Bool
  | .heartBeat m => m.version.isSome
  | .connMeta m => m.groupId.isSome && m.secretKey.isSome
  | .connAuthAck m => m.status.isSome && m.feedback.isSome
  | .messageStoreAck m => m.messageId.isSome && m.status.isSome && m.feedback.isSome
  | .deliverAck m => m.messageId.isSome && m.topic.isSome && m.messageType.isSome &&
      m.groupId.isSome && m.status.isSome
  | .txACKPacket m => m.header.any Header.isInitialized && m.status.isSome && m.feedback.isSome
  | .bytesMessage m => m.header.any Header.isInitialized && m.body.isSome
  | .stringMessage m => m.header.any Header.isInitialized && m.body.isSome

end MessageLite

/-! ## The protobuf runtime -/

/-- The protobuf runtime, as far as the client calls it. -/
structure Protobuf where
  /-- `ByteSize()`. -/
  byteSize : MessageLite → CInt
  /-- The bytes `SerializeToArray` stores. -/
  serialize : MessageLite → List CChar
  /-- `ParseFromArray(data, size)` on a new object of a class: its result, and the object with
  the fields read until it returned. -/
  parseFromArray : MessageKind → Mem → CInt → Bool × MessageLite
  /-- Parsing does not change the class of the object. -/
  kind_parseFromArray : ∀ k p n, (parseFromArray k p n).2.kind = k

/-- The runtime can carry `m`: the message is complete, `ByteSize` is the length of what
`SerializeToArray` stores, and `ParseFromArray` inverts it. -/
structure Protobuf.Encodes (P : Protobuf) (m : MessageLite) : Prop where
  complete : m.isInitialized
  toInt_byteSize : (P.byteSize m).toInt = (P.serialize m).length
  parse_serialize : ∀ p : Mem, p.Holds (P.serialize m) →
    P.parseFromArray m.kind p (P.byteSize m) = (true, m)

end Kiteq

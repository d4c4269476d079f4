import Kiteq.Commons.ByteBuf
import Kiteq.Protocol.Message

/-!
# `KitePacket`

The packet of `protocol/KitePacket.cpp`: a header, a message and the buffer `toByteBuf`
serializes into.  `toByteBuf` appends to that buffer, so only its first call on a packet starts
from an empty one; its `do … while (true)` runs on fuel here and says when it runs out.

`parseFrom` reads the header fields through the pointer it is given before it checks anything,
and ignores what `ParseFromArray` returns.  Its closed form is `parseFrom_eq`; later files
reason about that and not about the reads.
-/

namespace Kiteq

open Lib.BigEndian

/-! ## `Protocol` -/

namespace Protocol

def CMD_HEARTBEAT : CChar := 0x01
def CMD_CONN_AUTH : CChar := 0x03
def CMD_MESSAGE_STORE_ACK : CChar := 0x04
def CMD_TX_ACK : CChar := 0x06
def CMD_BYTES_MESSAGE : CChar := 0x11
def CMD_STRING_MESSAGE : CChar := 0x12

def PACKET_HEAD_LEN : CInt := 4 + 1 + 2 + 8 + 4
def MAX_PACKET_BYTES : CInt := 32 * 1024

def HEAD_EXTENSION : CLong := 0

end Protocol

/-! ## The packet -/

/-- The fields `KitePacketHeader` stores. -/
structure KitePacketHeader where
  opaqueId : CInt
  cmdType : CChar
  version : CShort
  extension : CLong
deriving DecidableEq, Repr

structure KitePacket extends KitePacketHeader where
  /-- A null `shared_ptr` is `none`. -/
  message : Option MessageLite
  buff : ByteBuf
deriving DecidableEq

/-- Why `toByteBuf` does not return. -/
inductive Fault where
  /-- A null pointer is dereferenced. -/
  | nullPointer
  /-- `std::length_error` escapes. -/
  | lengthError
  /-- The loop is still running when the fuel is spent. -/
  | outOfFuel
deriving DecidableEq, Repr

namespace KitePacket

variable (E : Platform) (P : Protobuf)

def getHeaderLen : CInt := Protocol.PACKET_HEAD_LEN

def getMaxFrameLength : CInt := Protocol.MAX_PACKET_BYTES

/-- The `do … while (true)` of `toByteBuf`. -/
def writeBody (message : MessageLite) (serializedSize totalOutputSize : CInt) :
    ℕ → ByteBuf → Except Fault ByteBuf
  | 0, _ => .error .outOfFuel
  | fuel + 1, buff =>
    match buff.getWritePtr serializedSize with
    | none =>
      -- `continue` goes back to the test of `while (true)`
      match buff.resize E totalOutputSize with
      | none => .error .lengthError
      | some buff => writeBody message serializedSize totalOutputSize fuel buff
    | some _ =>
      match ByteBuf.ofSize E serializedSize with
      | none => .error .lengthError
      | some buf =>
        match buf.getWritePtr serializedSize with
        | none => .error .nullPointer
        | some cell =>
          let buf := buf.storeAt cell (P.serialize message)
          .ok (buff.writeBytes E (buf.getBuffPtr E) serializedSize)

/-- `toByteBuf`: the value of `num`, and the packet whose `getBuffPtr` is returned. -/
def toByteBuf (fuel : ℕ) (pkg : KitePacket) : Except Fault (CInt × KitePacket) :=
  match pkg.message with
  | none => .error .nullPointer
  | some message =>
    let serializedSize := P.byteSize message
    let totalOutputSize := getHeaderLen + serializedSize + 4
    let resized :=
      if pkg.buff.size < totalOutputSize.toInt then pkg.buff.resize E totalOutputSize
      else some pkg.buff
    match resized with
    | none => .error .lengthError
    | some buff =>
      let buff := buff.writeInt E (getHeaderLen + serializedSize)
      let buff := buff.writeInt E pkg.opaqueId
      let buff := buff.writeByte E pkg.cmdType
      let buff := buff.writeShort E pkg.version
      let buff := buff.writeLong E pkg.extension
      let buff := buff.writeInt E serializedSize
      (writeBody E P message serializedSize totalOutputSize fuel buff).map fun buff ↦
        (totalOutputSize, { pkg with buff })

/-! ## `parseFrom` -/

/-- The message class the `switch` of `parseFrom` creates for a command. -/
def messageKind (cmdType : CChar) : Option MessageKind :=
  if cmdType = Protocol.CMD_CONN_AUTH then some .connAuthAck
  else if cmdType = Protocol.CMD_MESSAGE_STORE_ACK then some .messageStoreAck
  else if cmdType = Protocol.CMD_TX_ACK then some .txACKPacket
  else if cmdType = Protocol.CMD_BYTES_MESSAGE then some .bytesMessage
  else if cmdType = Protocol.CMD_STRING_MESSAGE then some .stringMessage
  else if cmdType = Protocol.CMD_HEARTBEAT then some .heartBeat
  else none

/-- `msg->ParseFromArray(buf + off, size)` on a new object, its result discarded. -/
def parseMessage (k : MessageKind) (p : Mem) (off : ℕ) (size : CInt) : Peek MessageLite :=
  fun log ↦ ((P.parseFromArray k (p.shift off) size).2, log ++ [.slice off size])

/-- `static bool parseFrom(KitePacket &, const char *, int)`. -/
def parseFrom (pkg : KitePacket) (buf : Mem) (pkglen : CInt) : Peek (Bool × KitePacket) := do
  let opaqueId ← ByteBuf.readIntAt E buf 0
  let cmdType ← ByteBuf.readByteAt buf 4
  let version ← ByteBuf.readShortAt E buf (4 + 1)
  let extension ← ByteBuf.readLongAt E buf (4 + 1 + 2)
  let bodyLength ← ByteBuf.readIntAt E buf (4 + 1 + 2 + 8)
  if (pkglen - getHeaderLen).toInt < bodyLength.toInt then
    return (false, pkg)
  match messageKind cmdType with
  | none => return (false, pkg)
  | some k =>
    let msg ← parseMessage P k buf getHeaderLen.toNat bodyLength
    return (true, { pkg with opaqueId, cmdType, version, extension, message := some msg })

/-! ## The closed form of `parseFrom` -/

/-- The header fields in front of a frame, as `parseFrom` reads them. -/
def headerOf (buf : Mem) : KitePacketHeader where
  opaqueId := BitVec.ofNat 32 (value (buf.slice 0 4))
  cmdType := buf 4
  version := BitVec.ofNat 16 (value (buf.slice 5 2))
  extension := ByteBuf.longValue E buf 7

/-- The inner body length of a frame. -/
def bodyLength (buf : Mem) : CInt := BitVec.ofNat 32 (value (buf.slice 15 4))

/-- The message class of a frame `parseFrom` accepts, `none` for one it rejects. -/
def accepted (buf : Mem) (pkglen : CInt) : Option MessageKind :=
  if (pkglen - getHeaderLen).toInt < (bodyLength buf).toInt then none else messageKind (buf 4)

/-- The message `parseFrom` makes of a frame of the given class. -/
def messageOf (k : MessageKind) (buf : Mem) : MessageLite :=
  (P.parseFromArray k (buf.shift 19) (bodyLength buf)).2

/-- `parseFrom` reads the nineteen header bytes; an accepted frame then has its body slice
decoded and fills in the packet, a rejected one leaves it alone. -/
theorem parseFrom_eq (pkg : KitePacket) (buf : Mem) (pkglen : CInt) :
    parseFrom E P pkg buf pkglen = fun log ↦ match accepted buf pkglen with
      | none => ((false, pkg), log ++ ByteBuf.touched 0 19)
      | some k =>
        ((true, { pkg with
            toKitePacketHeader := headerOf E buf, message := some (messageOf P k buf) }),
          log ++ ByteBuf.touched 0 19 ++ [.slice 19 (bodyLength buf)]) := by
  funext log
  have htouch : ByteBuf.touched 0 4 ++ (ByteBuf.touched 4 1 ++ (ByteBuf.touched 5 2 ++
      (ByteBuf.touched 7 8 ++ ByteBuf.touched 15 4))) = ByteBuf.touched 0 19 := rfl
  simp only [parseFrom, ByteBuf.readIntAt_eq, ByteBuf.readByteAt_eq, ByteBuf.readShortAt_eq,
    ByteBuf.readLongAt_eq, bind, StateT.bind, List.append_assoc]
  by_cases hlen : (pkglen - getHeaderLen).toInt < (bodyLength buf).toInt
  · have hacc : accepted buf pkglen = none := if_pos hlen
    rw [hacc, ← htouch]
    exact congrFun (if_pos hlen) _
  · have hacc : accepted buf pkglen = messageKind (buf 4) := if_neg hlen
    rw [hacc, ← htouch]
    refine (congrFun (if_neg hlen) _).trans ?_
    cases messageKind (buf 4) with
    | none => rfl
    | some k => exact congrArg (Prod.mk _) (List.append_assoc log _ _)

/-- The result of `parseFrom` and the packet it leaves. -/
def parsed (pkg : KitePacket) (buf : Mem) (pkglen : CInt) : Bool × KitePacket :=
  ((parseFrom E P pkg buf pkglen).run []).1

/-- The accesses `parseFrom` makes through its pointer. -/
def accesses (pkg : KitePacket) (buf : Mem) (pkglen : CInt) : List Access :=
  ((parseFrom E P pkg buf pkglen).run []).2

variable {E P} {pkg : KitePacket} {buf : Mem} {pkglen : CInt}

/-- What a frame has behind its header; the subtraction does not wrap. -/
theorem toInt_sub_getHeaderLen (h : 0 ≤ pkglen.toInt) :
    (pkglen - getHeaderLen).toInt = pkglen.toInt - 19 := by
  have hlt := BitVec.toInt_lt (x := pkglen)
  have hheader : getHeaderLen.toInt = 19 := by decide
  rw [BitVec.toInt_sub, hheader]
  exact Int.bmod_eq_of_le (by omega) (by omega)

theorem parsed_of_rejected (h : accepted buf pkglen = none) :
    parsed E P pkg buf pkglen = (false, pkg) := by
  simp [parsed, parseFrom_eq, StateT.run, h]

theorem parsed_of_accepted {k : MessageKind} (h : accepted buf pkglen = some k) :
    parsed E P pkg buf pkglen = (true, { pkg with
      toKitePacketHeader := headerOf E buf, message := some (messageOf P k buf) }) := by
  simp [parsed, parseFrom_eq, StateT.run, h]

theorem accesses_of_rejected (h : accepted buf pkglen = none) :
    accesses E P pkg buf pkglen = ByteBuf.touched 0 19 := by
  simp [accesses, parseFrom_eq, StateT.run, h]

theorem accesses_of_accepted {k : MessageKind} (h : accepted buf pkglen = some k) :
    accesses E P pkg buf pkglen = ByteBuf.touched 0 19 ++ [.slice 19 (bodyLength buf)] := by
  simp [accesses, parseFrom_eq, StateT.run, h]

end KitePacket

end Kiteq

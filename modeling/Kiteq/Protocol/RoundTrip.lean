import Kiteq.Protocol.Frame
import Kiteq.Protocol.Proto2

/-!
# The packet round trip

What `parseFrom` makes of the bytes `toByteBuf` yields, for every packet of the six commands
`parseFrom` decodes.  Everything comes back but the upper half of the extension:
`ByteBuf::writeLong` writes eight bytes of a `long`, and `ByteBuf::readLong` joins eight bytes
in an `unsigned int`.  `parsed_toByteBuf_iff` is the exact condition.
-/

namespace Kiteq

open Lib.BigEndian

namespace KitePacket

variable {E : Platform} {P : Protobuf} {pkg : KitePacket} {m : MessageLite}

/-- What `parseFrom` makes of a packet's payload, whatever the extension. -/
theorem parsed_payload {p : Mem} {pkglen : CInt} (hkind : messageKind pkg.cmdType = some m.kind)
    (hP : P.Encodes m) (hp : p.Holds (pkg.payload (P.serialize m)))
    (hlen : pkglen.toInt = (19 + (P.serialize m).length : ℕ)) (tgt : KitePacket) :
    parsed E P tgt p pkglen = (true, { tgt with
      toKitePacketHeader := { pkg.toKitePacketHeader with extension := ByteBuf.longValue E p 7 }
      message := some m }) := by
  have hacc : accepted p pkglen = some m.kind := (accepted_payload hp hlen).trans hkind
  rw [parsed_of_accepted hacc, headerOf_payload hp, messageOf_payload hP hp]

/-- **Packet round trip.** The bytes of the first `toByteBuf` are parsed back to the header and
the message of the packet exactly when the extension fits in 32 unsigned bits. -/
theorem parsed_toByteBuf_iff {bs : List CChar} {mem : Mem} (hfresh : pkg.buff = .empty)
    (hm : pkg.message = some m) (hkind : messageKind pkg.cmdType = some m.kind)
    (hP : P.Encodes m) (hy : Yields E P pkg bs) (hmem : mem.Holds bs) (tgt : KitePacket) :
    parsed E P tgt (mem.shift 4) (BitVec.ofNat 32 bs.length - 4) =
        (true, { tgt with toKitePacketHeader := pkg.toKitePacketHeader, message := some m }) ↔
      0 ≤ pkg.extension.toInt ∧ pkg.extension.toInt < 2 ^ 32 := by
  have hbound := bound_of_yields hfresh hm hP.toInt_byteSize hy
  have hbs := eq_frame_of_yields hfresh hm hP.toInt_byteSize hy
  have hp : (mem.shift 4).Holds (pkg.payload (P.serialize m)) := by
    rw [hbs, KitePacketHeader.frame] at hmem
    simpa using hmem.shift_of_append
  have hlen : (BitVec.ofNat 32 bs.length - 4).toInt = (19 + (P.serialize m).length : ℕ) := by
    have hsub : BitVec.ofNat 32 bs.length - 4 = BitVec.ofNat 32 (19 + (P.serialize m).length) := by
      rw [hbs, KitePacketHeader.length_frame, show 23 + (P.serialize m).length =
        19 + (P.serialize m).length + 4 by omega, BitVec.ofNat_add]
      exact BitVec.add_sub_cancel _ _
    rw [hsub, toInt_ofNat_of_lt (by omega)]
  rw [parsed_payload hkind hP hp hlen, ← longValue_payload_iff (E := E) hp]
  constructor
  · intro heq
    exact congrArg (fun r ↦ r.2.extension) heq
  · intro hext
    rw [hext]

/-- A heartbeat with the given extension. -/
def heartBeatOf (extension : CLong) : KitePacket where
  opaqueId := 7
  cmdType := Protocol.CMD_HEARTBEAT
  version := 0
  extension := extension
  message := some (.heartBeat ⟨some 1⟩)
  buff := .empty

theorem yields_heartBeatOf (extension : CLong) :
    Yields .gcc proto2 (heartBeatOf extension)
      ((heartBeatOf extension).frame (proto2.serialize (.heartBeat ⟨some 1⟩))) :=
  yields_frame rfl rfl (by decide) (by decide)

/-- A heartbeat that stays below the limit makes the round trip. -/
theorem parsed_toByteBuf_iff_heartBeat :
    parsed .gcc proto2 (heartBeatOf 0)
        ((Platform.gcc.memory ((heartBeatOf 5).frame
          (proto2.serialize (.heartBeat ⟨some 1⟩)))).shift 4)
        (BitVec.ofNat 32 ((heartBeatOf 5).frame
          (proto2.serialize (.heartBeat ⟨some 1⟩))).length - 4) =
      (true, heartBeatOf 5) :=
  (parsed_toByteBuf_iff rfl rfl (by decide) (encodes_proto2 (by decide) (by decide))
    (yields_heartBeatOf 5) (Platform.gcc.holds_memory _) (heartBeatOf 0)).mpr (by decide)

/-- A heartbeat with extension `2 ^ 32` is parsed without complaint, and its extension is not
the one that was sent. -/
theorem parsed_toByteBuf_drops_high :
    ∃ bs, Yields .gcc proto2 (heartBeatOf (2 ^ 32)) bs ∧
      proto2.Encodes (.heartBeat ⟨some 1⟩) ∧
      (parsed .gcc proto2 (heartBeatOf 0) ((Platform.gcc.memory bs).shift 4)
        (BitVec.ofNat 32 bs.length - 4)).1 = true ∧
      (parsed .gcc proto2 (heartBeatOf 0) ((Platform.gcc.memory bs).shift 4)
        (BitVec.ofNat 32 bs.length - 4)).2.extension ≠ 2 ^ 32 := by
  refine ⟨_, yields_heartBeatOf (2 ^ 32), encodes_proto2 (by decide) (by decide), ?_, ?_⟩
  · decide
  · decide

end KitePacket

end Kiteq

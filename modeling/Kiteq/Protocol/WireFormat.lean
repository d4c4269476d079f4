import Kiteq.Lib.PrefixCode
import Kiteq.Protocol.RoundTrip

/-!
# The wire format

The bytes the first `toByteBuf` of a packet leaves in its buffer, and what a reader who knows
only those bytes can recover.  `toByteBuf_first` spells out the buffer field by field; the
frames it describes form a prefix-free code, because the length in front of a frame fixes where
the frame ends, so that a stream of frames can be cut in one way only.
-/

namespace Kiteq

open Lib Lib.BigEndian

namespace KitePacketHeader

variable {h h' : KitePacketHeader} {body body' : List CChar}

/-- Every field of the header and the body can be read off a frame. -/
theorem frame_injective (heq : h.frame body = h'.frame body') : h = h' ∧ body = body' := by
  have hlen : body.length = body'.length := by
    have := congrArg List.length heq
    simpa using this
  obtain ⟨-, hpayload⟩ := List.append_inj heq (by simp)
  obtain ⟨hfront, hbody⟩ := List.append_inj hpayload (by simp)
  refine ⟨?_, hbody⟩
  obtain ⟨hid, hrest⟩ := List.append_inj hfront (by simp)
  obtain ⟨hcmd, hrest⟩ := List.cons.inj hrest
  obtain ⟨hversion, hrest⟩ := List.append_inj hrest (by simp)
  obtain ⟨hext, -⟩ := List.append_inj hrest (by simp)
  cases h
  cases h'
  rw [KitePacketHeader.mk.injEq]
  exact ⟨bytes_injective (by decide) hid, hcmd, bytes_injective (by decide) hversion,
    bytes_injective (by decide) hext⟩

variable (bound : ℕ)

/-- The frames whose body is shorter than `bound`. -/
def frames : Set (List CChar) :=
  {bs | ∃ (h : KitePacketHeader) (body : List CChar), body.length < bound ∧ bs = h.frame body}

theorem nil_notMem_frames : [] ∉ frames bound := by
  rintro ⟨h, body, -, heq⟩
  have := congrArg List.length heq
  simp at this
  omega

variable {bound}

/-- As long as the length prefix does not wrap, no frame begins another: their prefixes agree,
so they have the same length. -/
theorem prefixFree_frames (hbound : bound ≤ 2 ^ 32 - 19) : PrefixFree (frames bound) := by
  rintro _ ⟨h, body, hb, rfl⟩ _ ⟨h', body', hb', rfl⟩ ⟨rest, hrest⟩
  rw [frame, frame, List.append_assoc] at hrest
  obtain ⟨hlength, -⟩ := List.append_inj hrest (by simp)
  have hword : BitVec.ofNat 32 (19 + body.length) = BitVec.ofNat 32 (19 + body'.length) :=
    bytes_injective (by decide) hlength
  have hlen : body.length = body'.length := by
    have hnat := congrArg BitVec.toNat hword
    rw [BitVec.toNat_ofNat, BitVec.toNat_ofNat, Nat.mod_eq_of_lt (by omega),
      Nat.mod_eq_of_lt (by omega)] at hnat
    omega
  have hnil : rest = [] := by
    have := congrArg List.length hrest
    simp only [List.length_append, length_bytes, length_payload] at this
    exact List.eq_nil_of_length_eq_zero (by omega)
  simpa [frame, hnil] using hrest

end KitePacketHeader

namespace KitePacket

variable {E : Platform} {P : Protobuf} {pkg : KitePacket} {m : MessageLite} {n : ℕ}

/-- **The first encoding is exact.** On a packet that has not been encoded before, the first
pass of the loop succeeds, `num` is `n + 23`, and the buffer holds the header and the
serialized message, byte for byte and nothing else. -/
theorem toByteBuf_first (hbuff : pkg.buff = .empty) (hm : pkg.message = some m)
    (hsize : (P.byteSize m).toInt = n) (hn : (P.serialize m).length = n)
    (hbound : n + 24 ≤ 2 ^ 31 - 1) :
    ∃ buff num, (∀ passes, toByteBuf E P (passes + 1) pkg = .ok (num, { pkg with buff })) ∧
      num.toInt = n + 23 ∧
      buff.buff.data = bytes 4 (BitVec.ofNat 32 (n + 19)) ++ bytes 4 pkg.opaqueId ++
        [pkg.cmdType] ++ bytes 2 pkg.version ++ bytes 8 pkg.extension ++
        bytes 4 (BitVec.ofNat 32 n) ++ P.serialize m ∧
      (buff.getBuffPtr E).Holds buff.buff.data ∧
      buff.size = num.toInt ∧ buff.writerIndex.toInt = buff.size := by
  obtain ⟨buff, hok, hdata, hindex⟩ :=
    toByteBuf_fresh (E := E) hbuff hm (hn.symm ▸ hsize) (by omega)
  have hlen : (pkg.frame (P.serialize m)).length = n + 23 := by
    rw [KitePacketHeader.length_frame, hn, Nat.add_comm]
  have hnum : (BitVec.ofNat 32 (n + 23)).toInt = (n + 23 : ℕ) := toInt_ofNat_of_lt (by omega)
  have hsz : buff.size = (n + 23 : ℕ) := by
    rw [ByteBuf.size, ← Vec.length_data, hdata, hlen]
  rw [hlen] at hok hindex
  refine ⟨buff, _, hok, hnum, ?_, ByteBuf.holds_getBuffPtr_data E buff, ?_, ?_⟩
  · rw [hdata, KitePacketHeader.frame, KitePacketHeader.payload, KitePacketHeader.front, hn,
      Nat.add_comm 19]
    simp only [List.append_assoc, List.cons_append, List.nil_append]
  · rw [hsz, hnum]
  · rw [hindex, hnum, hsz]

/-- A heartbeat leaves its 25 bytes. -/
theorem toByteBuf_first_heartBeat :
    ∃ buff num, (∀ passes, toByteBuf .gcc proto2 (passes + 1) (heartBeatOf (-1)) =
        .ok (num, { heartBeatOf (-1) with buff })) ∧
      num.toInt = (2 : ℕ) + 23 ∧
      buff.buff.data = bytes 4 (BitVec.ofNat 32 (2 + 19)) ++ bytes 4 (heartBeatOf (-1)).opaqueId ++
        [(heartBeatOf (-1)).cmdType] ++ bytes 2 (heartBeatOf (-1)).version ++
        bytes 8 (heartBeatOf (-1)).extension ++ bytes 4 (BitVec.ofNat 32 2) ++
        proto2.serialize (.heartBeat ⟨some 1⟩) ∧
      (buff.getBuffPtr .gcc).Holds buff.buff.data ∧
      buff.size = num.toInt ∧ buff.writerIndex.toInt = buff.size :=
  toByteBuf_first rfl rfl (by decide) (by decide) (by decide)

/-! ## Streams -/

/-- A packet with the bytes its first `toByteBuf` call yields. -/
structure FirstEncoding (E : Platform) (P : Protobuf) where
  pkg : KitePacket
  message : MessageLite
  encoded : List CChar
  fresh : pkg.buff = .empty
  message_eq : pkg.message = some message
  toInt_byteSize : (P.byteSize message).toInt = (P.serialize message).length
  yields : Yields E P pkg encoded

namespace FirstEncoding

/-- What is compared: the header fields and the serialized body. -/
def content (x : FirstEncoding E P) : KitePacketHeader × List CChar :=
  (x.pkg.toKitePacketHeader, P.serialize x.message)

theorem encoded_eq (x : FirstEncoding E P) : x.encoded = x.content.1.frame x.content.2 :=
  eq_frame_of_yields x.fresh x.message_eq x.toInt_byteSize x.yields

theorem encoded_mem_frames (x : FirstEncoding E P) :
    x.encoded ∈ KitePacketHeader.frames (2 ^ 31) := by
  have hbound := bound_of_yields x.fresh x.message_eq x.toInt_byteSize x.yields
  exact ⟨_, _, by simp only [content]; omega, x.encoded_eq⟩

end FirstEncoding

/-- **Unique decodability.** Two sequences of packets whose encodings concatenate to the same
bytes agree, packet by packet, in every header field and in the serialized body. -/
theorem content_eq_of_flatten_eq {xs ys : List (FirstEncoding E P)}
    (h : (xs.map FirstEncoding.encoded).flatten = (ys.map FirstEncoding.encoded).flatten) :
    xs.map FirstEncoding.content = ys.map FirstEncoding.content := by
  have hcode : InformationTheory.UniquelyDecodable (KitePacketHeader.frames (2 ^ 31)) :=
    (KitePacketHeader.prefixFree_frames (by decide)).uniquelyDecodable
      (KitePacketHeader.nil_notMem_frames _)
  have hmem (zs : List (FirstEncoding E P)) :
      ∀ w ∈ zs.map FirstEncoding.encoded, w ∈ KitePacketHeader.frames (2 ^ 31) := by
    intro w hw
    obtain ⟨z, -, rfl⟩ := List.mem_map.mp hw
    exact z.encoded_mem_frames
  have hwords := hcode _ _ (hmem xs) (hmem ys) h
  have hframes (zs : List (FirstEncoding E P)) : zs.map FirstEncoding.encoded =
      (zs.map FirstEncoding.content).map fun c ↦ c.1.frame c.2 := by
    rw [List.map_map]
    exact List.map_congr_left fun z _ ↦ z.encoded_eq
  have hinj : Function.Injective fun c : KitePacketHeader × List CChar ↦ c.1.frame c.2 := by
    intro c d hcd
    obtain ⟨hheader, hbody⟩ := KitePacketHeader.frame_injective hcd
    exact Prod.ext hheader hbody
  rw [hframes, hframes ys] at hwords
  exact List.map_injective_iff.mpr hinj hwords

/-- The first encoding of a heartbeat. -/
def heartBeatEncoding (extension : CLong) : FirstEncoding .gcc proto2 where
  pkg := heartBeatOf extension
  message := .heartBeat ⟨some 1⟩
  encoded := (heartBeatOf extension).frame (proto2.serialize (.heartBeat ⟨some 1⟩))
  fresh := rfl
  message_eq := rfl
  toInt_byteSize := by decide
  yields := yields_heartBeatOf extension

/-- Two ways to write one extension give one stream and one content. -/
theorem content_eq_of_flatten_eq_heartBeat :
    [heartBeatEncoding 5, heartBeatEncoding (-1)].map FirstEncoding.content =
      [heartBeatEncoding 5, heartBeatEncoding 0xFFFFFFFFFFFFFFFF].map FirstEncoding.content :=
  content_eq_of_flatten_eq rfl

end KitePacket

end Kiteq

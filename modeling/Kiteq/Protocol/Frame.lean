import Kiteq.Protocol.Packet

/-!
# The frame grammar

What a packet is on the wire, stated without the code: a 32-bit length, the header fields and
a 32-bit body length, all big-endian, and the body.  `KitePacketHeader.frame` is that string
and `KitePacketHeader.payload` the part behind the length, which is what `parseFrom` is given.

The two sides of the code meet here.  `eq_frame_of_yields` says that the first `toByteBuf` of a
packet yields its frame and nothing else; the lemmas about `payload` say what `parseFrom` reads
from one.  Between them stands `readLong`, which returns only the low half of the extension.
-/

namespace Kiteq

open Lib.BigEndian

namespace KitePacketHeader

variable (h : KitePacketHeader) (body : List CChar)

/-- The nineteen header bytes of a frame whose body has `n` bytes. -/
def front (n : ℕ) : List CChar :=
  bytes 4 h.opaqueId ++ (h.cmdType :: (bytes 2 h.version ++ (bytes 8 h.extension ++
    bytes 4 (BitVec.ofNat 32 n))))

/-- The frame of a packet behind its length prefix. -/
def payload : List CChar := h.front body.length ++ body

/-- The frame of a packet with the given header and serialized message. -/
def frame : List CChar := bytes 4 (BitVec.ofNat 32 (19 + body.length)) ++ h.payload body

@[simp] theorem length_front (n : ℕ) : (h.front n).length = 19 := by simp [front]

@[simp] theorem length_payload : (h.payload body).length = 19 + body.length := by
  simp [payload]

@[simp] theorem length_frame : (h.frame body).length = 23 + body.length := by
  simp [frame]; omega

end KitePacketHeader

namespace KitePacket

variable (E : Platform) (P : Protobuf)

/-! ## Encoding -/

/-- `toByteBuf` returns, `num` is the length of `bs`, and `bs` is what the returned pointer
points to. -/
def Yields (pkg : KitePacket) (bs : List CChar) : Prop :=
  ∃ fuel num pkg', toByteBuf E P fuel pkg = .ok (num, pkg') ∧ num.toInt = bs.length ∧
    (pkg'.buff.getBuffPtr E).Holds bs

variable {E P} {pkg : KitePacket} {m : MessageLite}

/-- The loop body of `toByteBuf` appends the serialized message as soon as the block has room
for it. -/
theorem writeBody_of_room {size total : CInt} {fuel : ℕ} {buff : ByteBuf} {cell : ℕ}
    (hsize : size.toInt = (P.serialize m).length)
    (hbound : (P.serialize m).length + 1 < 2 ^ 31) (hroom : buff.getWritePtr size = some cell) :
    writeBody E P m size total (fuel + 1) buff = .ok (buff.append E (P.serialize m)) := by
  have hcap : (Vec.empty.reserve E ((P.serialize m).length + 1)).capacity =
      (P.serialize m).length + 1 := by
    rw [Vec.capacity_reserve, Vec.capacity_empty, Nat.zero_max]
  have hbuf := ByteBuf.resize_of_nonneg E .empty hsize hbound
  have hptr : ({ ByteBuf.empty with
      buff := Vec.empty.reserve E ((P.serialize m).length + 1) } : ByteBuf).getWritePtr size =
      some 0 :=
    ByteBuf.getWritePtr_of_room _ (k := (P.serialize m).length + 1) (w := 0) (by simp [hcap])
      (Nat.zero_le _) rfl hbound (by omega)
  simp only [writeBody, hroom, ByteBuf.ofSize, hbuf]
  simp only [ByteBuf.empty] at hptr ⊢
  simp only [hptr]
  rw [ByteBuf.writeBytes_eq_append E buff _ hsize]
  exact ByteBuf.holds_getBuffPtr_storeAt E _ (by simp [hcap])

/-- `toByteBuf` with its arithmetic done: reserve, append the length prefix and the header,
and run the loop. -/
theorem toByteBuf_eq (hm : pkg.message = some m) {n : ℕ} (hsize : (P.byteSize m).toInt = n)
    (fuel : ℕ) :
    toByteBuf E P fuel pkg =
      (if pkg.buff.size < (BitVec.ofNat 32 (23 + n)).toInt
        then pkg.buff.resize E (BitVec.ofNat 32 (23 + n)) else some pkg.buff).elim
          (.error .lengthError) fun buff ↦
          (writeBody E P m (BitVec.ofNat 32 n) (BitVec.ofNat 32 (23 + n)) fuel
            (buff.append E (bytes 4 (BitVec.ofNat 32 (19 + n)) ++ pkg.front n))).map fun buff ↦
              (BitVec.ofNat 32 (23 + n), { pkg with buff }) := by
  have hsz : P.byteSize m = BitVec.ofNat 32 n := eq_ofNat_of_toInt_eq hsize
  have hlen : getHeaderLen + BitVec.ofNat 32 n = BitVec.ofNat 32 (19 + n) := by
    rw [BitVec.ofNat_add]; rfl
  have htotal : BitVec.ofNat 32 (19 + n) + 4 = BitVec.ofNat 32 (23 + n) := by
    rw [show 23 + n = 19 + n + 4 by omega, BitVec.ofNat_add _ 4]; rfl
  simp only [toByteBuf, hm, hsz, hlen, htotal,
    ByteBuf.writeInt_eq_append, ByteBuf.writeByte_eq_append, ByteBuf.writeShort_eq_append,
    ByteBuf.writeLong_eq_append, ByteBuf.append_append, List.append_assoc,
    KitePacketHeader.front, List.cons_append, List.nil_append]
  cases if pkg.buff.size < (BitVec.ofNat 32 (23 + n)).toInt
    then pkg.buff.resize E (BitVec.ofNat 32 (23 + n)) else some pkg.buff <;> rfl

/-- **First encoding.** On a packet whose buffer is empty, `toByteBuf` leaves its loop on the
first pass, sets `num` to the length of the frame and holds exactly the frame. -/
theorem toByteBuf_fresh (hbuff : pkg.buff = .empty) (hm : pkg.message = some m)
    (hsize : (P.byteSize m).toInt = (P.serialize m).length)
    (hbound : (P.serialize m).length + 24 < 2 ^ 31) :
    ∃ buff, (∀ fuel, toByteBuf E P (fuel + 1) pkg =
        .ok (BitVec.ofNat 32 (pkg.frame (P.serialize m)).length, { pkg with buff })) ∧
      buff.buff.data = pkg.frame (P.serialize m) ∧
      buff.writerIndex = BitVec.ofNat 32 (pkg.frame (P.serialize m)).length := by
  set n := (P.serialize m).length with hn
  set hdr := bytes 4 (BitVec.ofNat 32 (19 + n)) ++ pkg.front n with hhdr
  have hhdrlen : hdr.length = 23 := by simp [hhdr]
  have hframe : hdr ++ P.serialize m = pkg.frame (P.serialize m) := by
    simp [hhdr, hn, KitePacketHeader.frame, KitePacketHeader.payload]
  let buff₀ : ByteBuf := { ByteBuf.empty with buff := Vec.empty.reserve E (23 + n + 1) }
  have hcap₀ : buff₀.buff.capacity = 24 + n := by
    rw [Vec.capacity_reserve, Vec.capacity_empty]; omega
  have hsize₀ : buff₀.buff.size = 0 := Vec.size_reserve E Vec.empty _
  have hresize : ByteBuf.empty.resize E (BitVec.ofNat 32 (23 + n)) = some buff₀ :=
    ByteBuf.resize_of_nonneg E .empty (toInt_ofNat_of_lt (by omega)) (by omega)
  -- the header fits in the reserved block, and leaves room for the body and one byte more
  have hcap : (buff₀.append E hdr).buff.capacity = 24 + n := by
    rw [ByteBuf.capacity_append E _ (by omega), hcap₀]
  have hptr : (buff₀.append E hdr).getWritePtr (BitVec.ofNat 32 n) = some 23 := by
    have hw : (buff₀.append E hdr).writerIndex.toInt = (23 : ℕ) := by
      rw [ByteBuf.writerIndex_append, hhdrlen]; rfl
    have hn' := toInt_ofNat_of_lt (n := n) (by omega)
    exact ByteBuf.getWritePtr_of_room _ (k := 1 + n) (by omega) (by omega) hw (by omega) (by omega)
  have hbody (fuel : ℕ) : writeBody E P m (BitVec.ofNat 32 n) (BitVec.ofNat 32 (23 + n))
      (fuel + 1) (buff₀.append E hdr) = .ok ((buff₀.append E hdr).append E (P.serialize m)) :=
    writeBody_of_room (toInt_ofNat_of_lt (by omega)) (by omega) hptr
  refine ⟨buff₀.append E (pkg.frame (P.serialize m)), fun fuel ↦ ?_, ?_, ?_⟩
  · have hlt : pkg.buff.size < (23 + n : ℕ) := by
      rw [hbuff]; simp [ByteBuf.size, ByteBuf.empty]; omega
    rw [toByteBuf_eq hm hsize, toInt_ofNat_of_lt (by omega), if_pos hlt, hbuff, hresize]
    simp only [Option.elim_some, ← hhdr, hbody, ByteBuf.append_append, hframe, Except.map,
      KitePacketHeader.length_frame, ← hn]
  · simp [buff₀, ByteBuf.data_append]
  · rw [ByteBuf.writerIndex_append]
    simp [buff₀, ByteBuf.empty]

/-- A packet whose serialized message is too long for the arithmetic of `toByteBuf` yields
nothing: its `num` is negative, or `reserve` has thrown before. -/
theorem bound_of_yields {bs : List CChar} (hbuff : pkg.buff = .empty) (hm : pkg.message = some m)
    (hsize : (P.byteSize m).toInt = (P.serialize m).length) (hy : Yields E P pkg bs) :
    (P.serialize m).length + 24 < 2 ^ 31 := by
  obtain ⟨fuel, num, pkg', hok, hnum, -⟩ := hy
  set n := (P.serialize m).length
  by_contra hlong
  have hn31 : n < 2 ^ 31 := by
    have := BitVec.toInt_lt (x := P.byteSize m); omega
  have htotalInt := BitVec.toInt_eq_toNat_cond (BitVec.ofNat 32 (23 + n))
  have hnat : (BitVec.ofNat 32 (23 + n)).toNat = 23 + n := by
    rw [BitVec.toNat_ofNat]; exact Nat.mod_eq_of_lt (by omega)
  rw [toByteBuf_eq hm hsize] at hok
  by_cases hmax : 23 + n = 2 ^ 31 - 1
  · -- `resize(INT_MAX)` throws
    have hint : (BitVec.ofNat 32 (23 + n)).toInt = 2 ^ 31 - 1 := by
      rw [htotalInt, hnat]; omega
    rw [hbuff, if_pos (by rw [hint]; simp [ByteBuf.size, ByteBuf.empty]),
      ByteBuf.resize_intMax E _ hint] at hok
    cases hok
  · -- the sum overflows, and `num` is what it overflowed to
    have hneg : (BitVec.ofNat 32 (23 + n)).toInt < 0 := by
      rw [htotalInt, hnat]; split <;> omega
    rw [if_neg (by rw [hbuff]; simp [ByteBuf.size, ByteBuf.empty]; omega)] at hok
    simp only [Option.elim_some, Except.map] at hok
    split at hok
    · cases hok
    · cases hok
      omega

/-- The first `toByteBuf` of a packet yields its frame and nothing else. -/
theorem eq_frame_of_yields {bs : List CChar} (hbuff : pkg.buff = .empty)
    (hm : pkg.message = some m) (hsize : (P.byteSize m).toInt = (P.serialize m).length)
    (hy : Yields E P pkg bs) : bs = pkg.frame (P.serialize m) := by
  have hbound := bound_of_yields hbuff hm hsize hy
  obtain ⟨fuel, num, pkg', hok, hnum, hholds⟩ := hy
  cases fuel with
  | zero =>
      rw [toByteBuf_eq hm hsize, Option.elim.eq_def] at hok
      split at hok <;> cases hok
  | succ fuel =>
      obtain ⟨buff, hbuf, hdata, -⟩ := toByteBuf_fresh (E := E) hbuff hm hsize hbound
      rw [hbuf] at hok
      cases hok
      have hlen : bs.length = (pkg.frame (P.serialize m)).length := by
        rw [toInt_ofNat_of_lt (by simp; omega)] at hnum
        omega
      have hframe := hdata ▸ ByteBuf.holds_getBuffPtr_data E buff
      exact hholds.eq_of_length_eq hframe hlen

/-- The first `toByteBuf` of a packet yields its frame, provided that the lengths fit. -/
theorem yields_frame (hbuff : pkg.buff = .empty) (hm : pkg.message = some m)
    (hsize : (P.byteSize m).toInt = (P.serialize m).length)
    (hbound : (P.serialize m).length + 24 < 2 ^ 31) :
    Yields E P pkg (pkg.frame (P.serialize m)) := by
  obtain ⟨buff, hbuf, hdata, -⟩ := toByteBuf_fresh (E := E) hbuff hm hsize hbound
  refine ⟨1, _, _, hbuf 0, toInt_ofNat_of_lt (by simp; omega), ?_⟩
  exact hdata ▸ ByteBuf.holds_getBuffPtr_data E buff

/-! ## Decoding -/

variable {h : KitePacketHeader} {body : List CChar} {p : Mem}

/-- The front of a payload with the body split off, field by field. -/
theorem payload_eq (h : KitePacketHeader) (body : List CChar) : h.payload body =
    bytes 4 h.opaqueId ++ (h.cmdType :: (bytes 2 h.version ++ (bytes 8 h.extension ++
      (bytes 4 (BitVec.ofNat 32 body.length) ++ body)))) := by
  simp [KitePacketHeader.payload, KitePacketHeader.front]

theorem cmdType_payload (hp : p.Holds (h.payload body)) : p 4 = h.cmdType := by
  have hp' : p.Holds (bytes 4 h.opaqueId ++ h.cmdType :: _) := payload_eq h body ▸ hp
  exact hp'.apply_of_append (by simp)

/-- `parseFrom` reads back every header field of a payload except, possibly, the extension. -/
theorem headerOf_payload (hp : p.Holds (h.payload body)) :
    headerOf E p = { h with extension := ByteBuf.longValue E p 7 } := by
  have hreadOpaque : p.slice 0 4 = bytes 4 h.opaqueId := by
    have hp' : p.Holds ([] ++ (bytes 4 h.opaqueId ++ _)) := payload_eq h body ▸ hp
    exact hp'.slice_of_append rfl (by simp)
  have hversion : p.slice 5 2 = bytes 2 h.version := by
    have hp' : p.Holds ((bytes 4 h.opaqueId ++ [h.cmdType]) ++ (bytes 2 h.version ++
        (bytes 8 h.extension ++ (bytes 4 (BitVec.ofNat 32 body.length) ++ body)))) := by
      simpa [payload_eq] using hp
    exact hp'.slice_of_append (by simp) (by simp)
  simp only [headerOf, hreadOpaque, cmdType_payload hp, hversion,
    ofNat_value_bytes (show 32 ≤ 8 * 4 by omega), ofNat_value_bytes (show 16 ≤ 8 * 2 by omega)]

theorem slice_extension (hp : p.Holds (h.payload body)) : p.slice 7 8 = bytes 8 h.extension := by
  have hp' : p.Holds ((bytes 4 h.opaqueId ++ (h.cmdType :: bytes 2 h.version)) ++
      (bytes 8 h.extension ++ (bytes 4 (BitVec.ofNat 32 body.length) ++ body))) := by
    simpa [payload_eq] using hp
  exact hp'.slice_of_append (by simp) (by simp)

/-- `parseFrom` reads back the body length of a payload. -/
theorem bodyLength_payload (hp : p.Holds (h.payload body)) :
    bodyLength p = BitVec.ofNat 32 body.length := by
  have hp' : p.Holds ((bytes 4 h.opaqueId ++ (h.cmdType :: (bytes 2 h.version ++
      bytes 8 h.extension))) ++ (bytes 4 (BitVec.ofNat 32 body.length) ++ body)) := by
    simpa [payload_eq] using hp
  rw [bodyLength, hp'.slice_of_append (by simp) (by simp),
    ofNat_value_bytes (show 32 ≤ 8 * 4 by omega)]

theorem holds_body (hp : p.Holds (h.payload body)) : (p.shift 19).Holds body := by
  have hlen := h.length_front body.length
  exact hlen ▸ hp.shift_of_append

/-- A payload of the right length is accepted exactly when its command is decoded. -/
theorem accepted_payload {pkglen : CInt} (hp : p.Holds (h.payload body))
    (hlen : pkglen.toInt = (19 + body.length : ℕ)) :
    accepted p pkglen = messageKind h.cmdType := by
  have hlen' : pkglen = BitVec.ofNat 32 (19 + body.length) := eq_ofNat_of_toInt_eq hlen
  have hbound := BitVec.toInt_lt (x := pkglen)
  have hdiff : pkglen - getHeaderLen = BitVec.ofNat 32 body.length := by
    rw [hlen', BitVec.ofNat_add, BitVec.add_comm]
    exact BitVec.add_sub_cancel _ _
  rw [accepted, bodyLength_payload hp, hdiff, if_neg (lt_irrefl _), cmdType_payload hp]

/-- The message a payload carries is the one that was serialized into it. -/
theorem messageOf_payload (hP : P.Encodes m) (hp : p.Holds (h.payload (P.serialize m))) :
    messageOf P m.kind p = m := by
  rw [messageOf, bodyLength_payload hp, ← eq_ofNat_of_toInt_eq hP.toInt_byteSize,
    hP.parse_serialize _ (holds_body hp)]

/-- `readLong` reads the extension of a payload back exactly when it fits in 32 unsigned
bits. -/
theorem longValue_payload_iff (hp : p.Holds (h.payload body)) :
    ByteBuf.longValue E p 7 = h.extension ↔
      0 ≤ h.extension.toInt ∧ h.extension.toInt < 2 ^ 32 := by
  have hrange : (0 ≤ h.extension.toInt ∧ h.extension.toInt < 2 ^ 32) ↔
      h.extension.toNat < 2 ^ 32 := by
    have := BitVec.toInt_eq_toNat_cond h.extension
    have := h.extension.isLt
    split at * <;> omega
  rw [hrange]
  constructor
  · intro heq
    exact heq ▸ ByteBuf.toNat_longValue_lt E p 7
  · intro hlt
    have hhigh : h.extension >>> (8 * 4) = 0#64 := by
      apply BitVec.eq_of_toNat_eq
      rw [BitVec.toNat_ushiftRight, Nat.shiftRight_eq_div_pow]
      exact Nat.div_eq_of_lt hlt
    have hbytes : p.slice 7 8 = List.replicate 4 0 ++ bytes 4 h.extension := by
      rw [slice_extension hp, bytes_add 4 4, hhigh, bytes_zero]
    have hzero : ∀ i < 4, p (7 + i) = 0 := by
      intro i hi
      have hget : (p.slice 7 8)[i]? = some (p (7 + i)) := by
        simp [Mem.slice, List.getElem?_range (show i < 8 by omega)]
      rw [hbytes, List.getElem?_append_left (by simpa using hi),
        List.getElem?_replicate_of_lt hi] at hget
      exact (Option.some.inj hget).symm
    have hlow : p.slice (7 + 4) 4 = bytes 4 h.extension := by
      have hdrop : p.slice (7 + 4) 4 = (p.slice 7 8).drop 4 := by
        simp [Mem.slice, List.range_succ]
      rw [hdrop, hbytes]
      exact List.drop_left' (by simp)
    rw [ByteBuf.longValue_of_high_eq_zero E hzero, hlow, value_bytes_mod,
      Nat.mod_eq_of_lt (by omega), BitVec.ofNat_toNat, BitVec.setWidth_eq]

end KitePacket

end Kiteq

import Kiteq.Protocol.Frame
import Kiteq.Protocol.Proto2
import Kiteq.Remoting.ReadLoop

/-!
# The stream round trip

The length prefix is written by `ByteBuf::writeInt` and read by the session, which joins four
`char`s without masking them.  Where a `char` is signed, a low byte of 128 or more makes the
length negative: `prepare` throws and the loop is over.  `roundTrips_iff` is the exact
condition on a sequence of packets, each below the frame limit.
-/

namespace Kiteq

open Lib Lib.BigEndian

/-! ## The second decoder of the prefix -/

/-- Without a sign bit in any byte, the session reads the prefix as written. -/
theorem lengthOf_of_msb {c0 c1 c2 c3 : CChar} (h0 : c0.msb = false) (h1 : c1.msb = false)
    (h2 : c2.msb = false) (h3 : c3.msb = false) :
    lengthOf [c0, c1, c2, c3] = BitVec.ofNat 32 (value [c0, c1, c2, c3]) := by
  rw [← ByteBuf.or_shl_eq_ofNat_value]
  simp [lengthOf, BitVec.signExtend_eq_setWidth_of_msb_false, h0, h1, h2, h3]

/-- A sign bit in the last byte makes the length negative. -/
theorem toInt_lengthOf_neg {c0 c1 c2 c3 : CChar} (h3 : c3.msb = true) :
    (lengthOf [c0, c1, c2, c3]).toInt < 0 := by
  apply BitVec.toInt_neg_of_msb_true
  simp [lengthOf, BitVec.msb_signExtend, h3]

theorem bytes_four (x : CInt) : bytes 4 x =
    [(x >>> 24).setWidth 8, (x >>> 16).setWidth 8, (x >>> 8).setWidth 8, x.setWidth 8] := by
  simp [bytes]

theorem msb_setWidth_shiftRight {n : ℕ} (hn : n < 2 ^ 32) (k : ℕ) :
    ((BitVec.ofNat 32 n >>> k).setWidth 8 : CChar).msb = decide (128 ≤ n / 2 ^ k % 256) := by
  rw [BitVec.msb_eq_decide, BitVec.toNat_setWidth, BitVec.toNat_ushiftRight, BitVec.toNat_ofNat,
    Nat.mod_eq_of_lt hn, Nat.shiftRight_eq_div_pow]

/-- The prefix of a frame below the limit is read as written if its low byte has no sign bit. -/
theorem lengthOf_bytes_of_lt {n : ℕ} (hn : n < Protocol.MAX_PACKET_BYTES.toNat)
    (h : n % 256 < 128) : lengthOf (bytes 4 (BitVec.ofNat 32 n)) = BitVec.ofNat 32 n := by
  have hmax : n < 32768 := hn
  have hmsb (k : ℕ) (hk : n / 2 ^ k % 256 < 128) :
      ((BitVec.ofNat 32 n >>> k).setWidth 8 : CChar).msb = false := by
    rw [msb_setWidth_shiftRight (by omega)]
    simpa using hk
  have h0 := hmsb 0 (by omega)
  rw [BitVec.ushiftRight_zero] at h0
  rw [bytes_four, lengthOf_of_msb (hmsb 24 (by omega)) (hmsb 16 (by omega)) (hmsb 8 (by omega)) h0,
    ← bytes_four, ofNat_value_bytes (by omega)]

/-- It is read as a negative number otherwise. -/
theorem toInt_lengthOf_bytes_neg {n : ℕ} (hn : n < 2 ^ 32) (h : 128 ≤ n % 256) :
    (lengthOf (bytes 4 (BitVec.ofNat 32 n))).toInt < 0 := by
  rw [bytes_four]
  apply toInt_lengthOf_neg
  have := msb_setWidth_shiftRight hn 0
  rw [BitVec.ushiftRight_zero] at this
  rw [this]
  simpa using h

/-! ## Packets on a stream -/

/-- A packet that the client can send and read back: the default extension, a message of the
class its command stands for, and a frame below the limit. -/
structure Outgoing (P : Protobuf) where
  header : KitePacketHeader
  message : MessageLite
  extension_eq : header.extension = Protocol.HEAD_EXTENSION
  messageKind_eq : KitePacket.messageKind header.cmdType = some message.kind
  encodes : P.Encodes message
  lt_max : 19 + (P.serialize message).length < Protocol.MAX_PACKET_BYTES.toNat

namespace Outgoing

variable {P : Protobuf} (p : Outgoing P)

/-- The packet before its first `toByteBuf`. -/
def packet : KitePacket := { p.header with message := some p.message, buff := .empty }

/-- The length its prefix declares. -/
def declared : ℕ := 19 + (P.serialize p.message).length

theorem declared_lt : p.declared < Protocol.MAX_PACKET_BYTES.toNat := p.lt_max

/-- The packet in an object whose buffer is `buff`. -/
def received (buff : ByteBuf) : KitePacket := { p.header with message := some p.message, buff }

end Outgoing

/-- Each body read asks for the declared length of its frame, and the handler is called once for
each packet, in order, without an error and with that packet. -/
structure RoundTrips {P : Protobuf} (buff : ByteBuf) (ps : List (Outgoing P)) (es : List Event) :
    Prop where
  prepares : (prepares es).map (fun p ↦ p.1.toInt) = ps.map fun p ↦ (p.declared : ℤ)
  handled : handled es = ps.map fun p ↦ some (p.received buff)

section

variable {E : Platform} {P : Protobuf} {s : Session} {bs rest : List CChar}

/-- The bytes of a packet are a prefix and as many bytes as it declares. -/
theorem Outgoing.bytes_eq (p : Outgoing P) (hy : KitePacket.Yields E P p.packet bs) :
    bs = bytes 4 (BitVec.ofNat 32 p.declared) ++ p.header.payload (P.serialize p.message) := by
  have hframe := KitePacket.eq_frame_of_yields (m := p.message) rfl rfl
    p.encodes.toInt_byteSize hy
  rw [hframe, KitePacketHeader.frame]
  rfl

theorem Outgoing.yields_frame (p : Outgoing P) :
    KitePacket.Yields E P p.packet (p.packet.frame (P.serialize p.message)) := by
  have hlt : p.declared < 32768 := p.declared_lt
  refine KitePacket.yields_frame rfl rfl p.encodes.toInt_byteSize ?_
  simp only [declared] at hlt
  omega

/-- A packet whose length is read as written, as a frame. -/
def Outgoing.rawFrame (p : Outgoing P) (h : p.declared % 256 < 128) : RawFrame where
  head := bytes 4 (BitVec.ofNat 32 p.declared)
  body := p.header.payload (P.serialize p.message)
  length_head := by simp
  lengthOf_head := by
    have hlt : p.declared < 32768 := p.declared_lt
    rw [lengthOf_bytes_of_lt p.declared_lt h, toInt_ofNat_of_lt (by omega)]
    simp [declared]

/-- `parseFrom` makes of the frame of a packet that packet. -/
theorem Outgoing.parsed_rawFrame (p : Outgoing P) (h : p.declared % 256 < 128)
    (pkg : KitePacket) :
    KitePacket.parsed E P pkg (E.memory (p.rawFrame h).body) (lengthOf (p.rawFrame h).head) =
      (true, p.received pkg.buff) := by
  have hlen := (p.rawFrame h).lengthOf_head
  have hp : (E.memory (p.rawFrame h).body).Holds (p.header.payload (P.serialize p.message)) :=
    E.holds_memory _
  have hacc : KitePacket.accepted (E.memory (p.rawFrame h).body) (lengthOf (p.rawFrame h).head) =
      some p.message.kind :=
    (KitePacket.accepted_payload hp (by simpa [rawFrame] using hlen)).trans p.messageKind_eq
  have hext := (KitePacket.longValue_payload_iff (E := E) hp).mpr (by
    rw [p.extension_eq]; decide)
  rw [KitePacket.parsed_of_accepted hacc, KitePacket.headerOf_payload hp, hext,
    KitePacket.messageOf_payload p.encodes hp]
  rfl

/-- A packet whose length is read as written is handled, and the rest of the stream is read from
the same position. -/
theorem run_outgoing (p : Outgoing P) (h : p.declared % 256 < 128)
    (hp : s.pending = some .pkglen) (hbuf : s.readBuffer = []) (rest : List CChar) :
    ∃ s' : Session, s'.pending = some .pkglen ∧ s'.readBuffer = [] ∧
      s'.readPkg.buff = s.readPkg.buff ∧
      prepares ((readLoop E P).run ⟨s, (p.rawFrame h).bytes ++ rest, false⟩).2 =
        (BitVec.ofNat 32 p.declared, 0) :: prepares ((readLoop E P).run ⟨s', rest, false⟩).2 ∧
      handled ((readLoop E P).run ⟨s, (p.rawFrame h).bytes ++ rest, false⟩).2 =
        some (p.received s.readPkg.buff) ::
          handled ((readLoop E P).run ⟨s', rest, false⟩).2 := by
  have hlt : ((p.rawFrame h).body.length : ℤ) < KitePacket.getMaxFrameLength.toInt := by
    simp only [Outgoing.rawFrame, KitePacketHeader.length_payload]
    exact Int.ofNat_lt.mpr p.declared_lt
  have hread := Session.readFrame_of_empty (E := E) (P := P) hbuf hlt
    (p.parsed_rawFrame h s.readPkg).symm
  have hhead : lengthOf (p.rawFrame h).head = BitVec.ofNat 32 p.declared :=
    lengthOf_bytes_of_lt p.declared_lt h
  refine ⟨_, Session.pending_readFrame (E := E) (P := P) s (p.rawFrame h), ?_, ?_, ?_, ?_⟩
  · rw [hread]; exact hbuf
  · rw [hread]; rfl
  · rw [run_frame hp, hread, hhead]; rfl
  · rw [run_frame hp, hread]; rfl

/-- A packet whose length is read as negative ends the loop. -/
theorem prepares_run_of_neg (p : Outgoing P) (h : 128 ≤ p.declared % 256)
    (hp : s.pending = some .pkglen) (hy : KitePacket.Yields E P p.packet bs)
    (rest : List CChar) : ∃ len : CInt, len.toInt < 0 ∧
      prepares ((readLoop E P).run ⟨s, bs ++ rest, false⟩).2 = [(len, s.readBuffer.length)] := by
  have hlt : p.declared < 32768 := p.declared_lt
  have hneg := toInt_lengthOf_bytes_neg (n := p.declared) (by omega) h
  refine ⟨_, hneg, ?_⟩
  rw [p.bytes_eq hy, List.append_assoc, run_head hp (by simp),
    Session.asyncReadPkglen_of_neg hneg, Machine.run_of_halted rfl]
  rfl

/-- **Stream round trip.** The concatenated first encodings of a sequence of packets are read
back packet by packet exactly when no packet declares a length whose low byte is 128 or more. -/
theorem roundTrips_iff {ps : List (Outgoing P)} {outs : List (List CChar)}
    (hy : List.Forall₂ (fun p bs ↦ KitePacket.Yields E P p.packet bs) ps outs)
    (hp : s.pending = some .pkglen) (hbuf : s.readBuffer = []) :
    RoundTrips s.readPkg.buff ps ((readLoop E P).run ⟨s, outs.flatten, false⟩).2 ↔
      ∀ p ∈ ps, p.declared % 256 < 128 := by
  induction hy generalizing s with
  | nil =>
      rw [List.flatten_nil, run_nil hp]
      exact iff_of_true ⟨rfl, rfl⟩ (by simp)
  | @cons p bs ps outs hbs _ ih =>
      rw [List.flatten_cons, List.forall_mem_cons]
      by_cases h : p.declared % 256 < 128
      · have hbytes : bs = (p.rawFrame h).bytes := p.bytes_eq hbs
        obtain ⟨s', hp', hbuf', hbuff', hprep, hhand⟩ :=
          run_outgoing (E := E) p h hp hbuf outs.flatten
        have hlt : p.declared < 32768 := p.declared_lt
        rw [← hbytes] at hprep hhand
        have hiff := ih hp' hbuf'
        rw [hbuff'] at hiff
        rw [← hiff]
        constructor
        · rintro ⟨h1, h2⟩
          rw [hprep] at h1
          rw [hhand] at h2
          exact ⟨h, (List.cons.inj h1).2, (List.cons.inj h2).2⟩
        · rintro ⟨-, h1, h2⟩
          refine ⟨?_, ?_⟩
          · rw [hprep, List.map_cons, List.map_cons, h1, toInt_ofNat_of_lt (by omega)]
          · rw [hhand, List.map_cons, h2]
      · obtain ⟨len, hneg, hprep⟩ :=
          prepares_run_of_neg p (not_lt.mp h) hp hbs outs.flatten
        refine iff_of_false ?_ fun hall ↦ h hall.1
        rintro ⟨h1, -⟩
        rw [hprep, List.map_cons, List.map_cons] at h1
        have hlen : len.toInt = (p.declared : ℤ) := (List.cons.inj h1).1
        omega

/-- An acknowledgement with a feedback of the given length. -/
def connAuthAckOf (n : ℕ) (hinit : (proto2.serialize (.connAuthAck
      ⟨some true, some (List.replicate n 0)⟩)).length < 2 ^ 14) : Outgoing proto2 where
  header := ⟨7, Protocol.CMD_CONN_AUTH, 0, Protocol.HEAD_EXTENSION⟩
  message := .connAuthAck ⟨some true, some (List.replicate n 0)⟩
  extension_eq := rfl
  messageKind_eq := rfl
  encodes := encodes_proto2 rfl (Nat.lt_trans hinit (by decide))
  lt_max := Nat.lt_of_lt_of_le (Nat.add_lt_add_left hinit 19) (by decide)

/-- Two short acknowledgements make the round trip. -/
theorem roundTrips_iff_connAuthAck :
    RoundTrips .empty [connAuthAckOf 0 (by decide), connAuthAckOf 3 (by decide)]
      ((readLoop .gcc proto2).run ⟨Session.start blankPacket,
        [(connAuthAckOf 0 (by decide)).packet.frame
            (proto2.serialize (connAuthAckOf 0 (by decide)).message),
          (connAuthAckOf 3 (by decide)).packet.frame
            (proto2.serialize (connAuthAckOf 3 (by decide)).message)].flatten, false⟩).2 :=
  (roundTrips_iff (s := Session.start blankPacket)
    (.cons ((connAuthAckOf 0 _).yields_frame)
      (.cons ((connAuthAckOf 3 _).yields_frame) .nil)) rfl rfl).mpr (by decide)

/-- An acknowledgement of 109 bytes declares 128, and its body is never asked for. -/
theorem not_roundTrips_connAuthAck :
    ∃ bs, KitePacket.Yields .gcc proto2 (connAuthAckOf 105 (by decide)).packet bs ∧
      ¬RoundTrips .empty [connAuthAckOf 105 (by decide)]
        ((readLoop .gcc proto2).run ⟨Session.start blankPacket, bs, false⟩).2 := by
  refine ⟨_, (connAuthAckOf 105 (by decide)).yields_frame, ?_⟩
  obtain ⟨len, hneg, hprep⟩ := prepares_run_of_neg (E := .gcc) (s := Session.start blankPacket)
    (connAuthAckOf 105 (by decide)) (by decide) rfl ((connAuthAckOf 105 (by decide)).yields_frame)
    []
  rw [List.append_nil] at hprep
  rintro ⟨h, -⟩
  rw [hprep] at h
  have hlen : len.toInt = 128 := (List.cons.inj h).1
  omega

end

end Kiteq

import Kiteq.Lib.System
import Kiteq.Protocol.WireFormat

/-!
# Encoding a packet again

`toByteBuf` appends to a buffer that nothing ever clears and returns the pointer to its first
cell, so that a caller who encodes a packet a second time is handed the bytes of the first
call.  The life of a packet is a run of `uses`: any setters and encodings in any order.

Two facts about such a run decide every later call.  The buffer begins with the frame of the
first call; and when the loop does not find room for the body at once, its `resize` asks for an
absolute size that the buffer already has, so that it never will.
-/

namespace Kiteq

open Lib Lib.BigEndian

/-- What is done with a packet between its construction and its destruction. -/
inductive PacketAction where
  | setOpaque (o : CInt)
  | setCmdType (cmd : CChar)
  | setVersion (ver : CShort)
  | setExtension (ext : CLong)
  | setMessage (m : Option MessageLite)
  /-- An encoding that returns within the given number of passes. -/
  | toByteBuf (passes : ℕ)
deriving DecidableEq

/-- A packet, and the header and the serialized message it had at its first encoding. -/
structure UsedPacket where
  pkg : KitePacket
  first : Option (KitePacketHeader × List CChar)
deriving DecidableEq

namespace UsedPacket

variable (E : Platform) (P : Protobuf)

def step : PacketAction → UsedPacket → Option UsedPacket
  | .setOpaque o, s => some { s with pkg.opaqueId := o }
  | .setCmdType cmd, s => some { s with pkg.cmdType := cmd }
  | .setVersion ver, s => some { s with pkg.version := ver }
  | .setExtension ext, s => some { s with pkg.extension := ext }
  | .setMessage m, s => some { s with pkg.message := m }
  | .toByteBuf passes, s =>
    match KitePacket.toByteBuf E P passes s.pkg, s.pkg.message with
    | .ok (_, pkg), some m =>
      some ⟨pkg, some (s.first.getD (s.pkg.toKitePacketHeader, P.serialize m))⟩
    | _, _ => none

/-- The life of a packet: every constructor leaves the buffer empty. -/
def uses : System PacketAction UsedPacket where
  init s := s.pkg.buff = .empty ∧ s.first = none
  step := step E P

/-- An encoding is of a message whose `ByteSize` is the number of bytes it serializes to. -/
def Measured : PacketAction → UsedPacket → Prop
  | .toByteBuf _, s => ∀ m, s.pkg.message = some m → (P.byteSize m).toInt = (P.serialize m).length
  | _, _ => True

end UsedPacket

/-- The bytes `toByteBuf` pushes before it enters its loop. -/
def KitePacketHeader.prologue (h : KitePacketHeader) (n : ℕ) : List CChar :=
  bytes 4 (BitVec.ofNat 32 (19 + n)) ++ h.front n

@[simp] theorem KitePacketHeader.length_prologue (h : KitePacketHeader) (n : ℕ) :
    (h.prologue n).length = 23 := by simp [prologue]

theorem KitePacketHeader.prologue_append (h : KitePacketHeader) (body : List CChar) :
    h.prologue body.length ++ body = h.frame body := by
  rw [prologue, frame, payload, List.append_assoc]

namespace KitePacket

variable (E : Platform) (P : Protobuf)

/-- `toByteBuf` terminates and yields what it would yield on a new packet. -/
def Reencodes (pkg : KitePacket) : Prop :=
  ∃ bs, Yields E P { pkg with buff := .empty } bs ∧ Yields E P pkg bs

/-- The cells left in the block once the 23 header bytes are pushed. -/
def freeCells (b : ByteBuf) : ℕ :=
  (if b.buff.size + 23 ≤ b.buff.capacity then b.buff.capacity else E.grow b.buff.capacity) -
    (b.buff.size + 23)

/-- The packet is as it was at its first encoding, and the block has room for the body. -/
structure Repeats (first : KitePacketHeader × List CChar) (pkg : KitePacket) : Prop where
  header : pkg.toKitePacketHeader = first.1
  message : ∃ m, pkg.message = some m ∧ P.serialize m = first.2
  bound : first.2.length + 24 < 2 ^ 31
  room : first.2.length ≤ (BitVec.ofNat 32 (freeCells E pkg.buff)).toInt

variable {E P} {pkg pkg' : KitePacket} {m : MessageLite} {first : KitePacketHeader × List CChar}

/-! ## One encoding -/

/-- However often the loop went round, it has appended the serialized message. -/
theorem writeBody_eq_ok {size total : CInt} {fuel : ℕ} {buff buff' : ByteBuf}
    (hsize : size.toInt = (P.serialize m).length)
    (hok : writeBody E P m size total fuel buff = .ok buff') :
    ∃ buff₁ : ByteBuf, buff₁.buff.data = buff.buff.data ∧ buff₁.writerIndex = buff.writerIndex ∧
      buff' = buff₁.append E (P.serialize m) := by
  induction fuel generalizing buff with
  | zero => cases hok
  | succ fuel ih =>
      cases hptr : buff.getWritePtr size with
      | none =>
          simp only [writeBody, hptr] at hok
          cases hres : buff.resize E total with
          | none => simp [hres] at hok
          | some b =>
              simp only [hres] at hok
              obtain ⟨hdata, hindex⟩ := ByteBuf.resize_eq_some E buff hres
              obtain ⟨buff₁, hdata₁, hindex₁, heq⟩ := ih hok
              exact ⟨buff₁, hdata₁.trans hdata, hindex₁.trans hindex, heq⟩
      | some cell =>
          by_cases hbound : (P.serialize m).length + 1 < 2 ^ 31
          · rw [writeBody_of_room hsize hbound hptr] at hok
            cases hok
            exact ⟨buff, rfl, rfl, rfl⟩
          · -- the second buffer cannot be constructed
            have hmax : size.toInt = 2 ^ 31 - 1 := by
              have := BitVec.toInt_lt (x := size)
              omega
            simp [writeBody, hptr, ByteBuf.ofSize, ByteBuf.resize_intMax E _ hmax] at hok

/-- An encoding that returns has appended the frame of the packet. -/
theorem toByteBuf_eq_ok {fuel : ℕ} {num : CInt} (hm : pkg.message = some m)
    (hsize : (P.byteSize m).toInt = (P.serialize m).length)
    (hok : toByteBuf E P fuel pkg = .ok (num, pkg')) :
    ∃ buff, pkg' = { pkg with buff } ∧
      buff.buff.data = pkg.buff.buff.data ++ pkg.frame (P.serialize m) ∧
      buff.writerIndex =
        pkg.buff.writerIndex + BitVec.ofNat 32 (pkg.frame (P.serialize m)).length := by
  set n := (P.serialize m).length with hn
  rw [toByteBuf_eq hm hsize] at hok
  have hres : ∀ b : ByteBuf, (if pkg.buff.size < (BitVec.ofNat 32 (23 + n)).toInt
      then pkg.buff.resize E (BitVec.ofNat 32 (23 + n)) else some pkg.buff) = some b →
      b.buff.data = pkg.buff.buff.data ∧ b.writerIndex = pkg.buff.writerIndex := by
    intro b hb
    split at hb
    · exact ByteBuf.resize_eq_some E _ hb
    · cases hb
      exact ⟨rfl, rfl⟩
  revert hok hres
  cases (if pkg.buff.size < (BitVec.ofNat 32 (23 + n)).toInt
      then pkg.buff.resize E (BitVec.ofNat 32 (23 + n)) else some pkg.buff) with
  | none =>
      intro hok _
      cases hok
  | some b =>
      intro hok hres
      obtain ⟨hdata, hindex⟩ := hres b rfl
      rw [← KitePacketHeader.prologue] at hok
      have hframe := pkg.prologue_append (P.serialize m)
      cases hbody : writeBody E P m (BitVec.ofNat 32 n) (BitVec.ofNat 32 (23 + n)) fuel
          (b.append E (pkg.prologue n)) with
      | error e => simp [hbody, Except.map] at hok
      | ok buff' =>
          simp only [Option.elim_some, hbody, Except.map, Except.ok.injEq, Prod.mk.injEq] at hok
          have hbound : n < 2 ^ 31 := by
            have := BitVec.toInt_lt (x := P.byteSize m)
            omega
          obtain ⟨buff₁, hdata₁, hindex₁, rfl⟩ :=
            writeBody_eq_ok (toInt_ofNat_of_lt hbound) hbody
          refine ⟨_, hok.2.symm, ?_, ?_⟩
          · rw [ByteBuf.data_append, hdata₁, ByteBuf.data_append, hdata, List.append_assoc, hframe]
          · rw [ByteBuf.writerIndex_append, hindex₁, ByteBuf.writerIndex_append, hindex,
              BitVec.add_assoc, ← BitVec.ofNat_add, ← List.length_append, hframe]

/-! ## An encoding after the first -/

/-- What encodings leave in a buffer: the frame of the first one is in front. -/
structure Grown (first : KitePacketHeader × List CChar) (b : ByteBuf) : Prop where
  begins : first.1.frame first.2 <+: b.buff.data
  bound : first.2.length < 2 ^ 31
  index : b.writerIndex = BitVec.ofNat 32 b.buff.size

theorem Grown.le_size {b : ByteBuf} (hb : Grown first b) : 23 + first.2.length ≤ b.buff.size := by
  have := hb.begins.length_le
  simpa using this

/-- The cells that are free behind the header, computed without pushing it. -/
theorem capacity_append_prologue {b : ByteBuf} (hb : Grown first b) (h : KitePacketHeader)
    (n : ℕ) :
    (b.append E (h.prologue n)).buff.capacity - (b.buff.size + 23) = freeCells E b := by
  have hlen := h.length_prologue n
  have hsize := hb.le_size
  have hcap := b.buff.size_le_capacity
  have hdouble := E.two_mul_le_grow b.buff.capacity
  rw [freeCells]
  split
  · rw [ByteBuf.capacity_append E b (by omega)]
  · rw [ByteBuf.append, Vec.capacity_pushes_of_full E _ (by omega) (by omega)]

/-- The capacity test behind the header compares the body with the free cells. -/
theorem getWritePtr_append_prologue {b : ByteBuf} {n : ℕ} (hb : Grown first b)
    (h : KitePacketHeader) (hn : n < 2 ^ 31) :
    ((b.append E (h.prologue n)).getWritePtr (BitVec.ofNat 32 n)).isSome ↔
      n ≤ (BitVec.ofNat 32 (freeCells E b)).toInt := by
  have hindex : (b.append E (h.prologue n)).writerIndex = BitVec.ofNat 32 (b.buff.size + 23) := by
    rw [ByteBuf.writerIndex_append, hb.index, h.length_prologue, BitVec.ofNat_add]
  have hle : b.buff.size + 23 ≤ (b.append E (h.prologue n)).buff.capacity := by
    have := (b.append E (h.prologue n)).buff.size_le_capacity
    rwa [ByteBuf.size_append, h.length_prologue] at this
  rw [ByteBuf.getWritePtr, hindex, ofInt_sub_toInt_ofNat hle, capacity_append_prologue hb,
    toInt_ofNat_of_lt hn]
  split
  · simp only [Option.isSome_none, Bool.false_eq_true, false_iff]
    omega
  · simp only [Option.isSome_some, true_iff]
    omega

/-- A loop that finds no room and cannot make any goes round for ever. -/
theorem writeBody_stuck {size total : CInt} {buff : ByteBuf} (hptr : buff.getWritePtr size = none)
    (hres : buff.resize E total = some buff) (fuel : ℕ) :
    writeBody E P m size total fuel buff = .error .outOfFuel := by
  induction fuel with
  | zero => rfl
  | succ fuel ih => simpa only [writeBody, hptr, hres] using ih

/-- `resize` does nothing to a block that is large enough. -/
theorem resize_of_le {b : ByteBuf} {k : ℕ} (hk : k + 1 < 2 ^ 31) (hcap : k + 1 ≤ b.buff.capacity) :
    b.resize E (BitVec.ofNat 32 k) = some b := by
  rw [ByteBuf.resize_of_nonneg E b (toInt_ofNat_of_lt (by omega)) hk, Vec.reserve,
    if_neg (by omega)]

/-- A packet encoded before is encoded without reserving: header, loop, done. -/
theorem toByteBuf_grown (hb : Grown first pkg.buff) (hm : pkg.message = some m)
    (hsize : (P.byteSize m).toInt = first.2.length) (hbound : first.2.length + 24 < 2 ^ 31)
    (fuel : ℕ) :
    toByteBuf E P fuel pkg =
      (writeBody E P m (BitVec.ofNat 32 first.2.length) (BitVec.ofNat 32 (23 + first.2.length))
        fuel (pkg.buff.append E (pkg.prologue first.2.length))).map fun buff ↦
          (BitVec.ofNat 32 (23 + first.2.length), { pkg with buff }) := by
  have hfit := hb.le_size
  rw [toByteBuf_eq hm hsize, if_neg, Option.elim_some, KitePacketHeader.prologue]
  rw [ByteBuf.size, toInt_ofNat_of_lt (by omega)]
  omega

/-- Without room for the body of the first call the loop does not end. -/
theorem toByteBuf_stuck (hb : Grown first pkg.buff) (hm : pkg.message = some m)
    (hsize : (P.byteSize m).toInt = first.2.length) (hbound : first.2.length + 24 < 2 ^ 31)
    (hroom : (BitVec.ofNat 32 (freeCells E pkg.buff)).toInt < first.2.length) (fuel : ℕ) :
    toByteBuf E P fuel pkg = .error .outOfFuel := by
  have hfit := hb.le_size
  have hptr : (pkg.buff.append E (pkg.prologue first.2.length)).getWritePtr
      (BitVec.ofNat 32 first.2.length) = none := by
    rw [← Option.isNone_iff_eq_none, ← Option.not_isSome, Bool.not_eq_true',
      ← Bool.not_eq_true, getWritePtr_append_prologue hb _ hb.bound]
    omega
  have hcap : 23 + first.2.length + 1 ≤
      (pkg.buff.append E (pkg.prologue first.2.length)).buff.capacity := by
    have := (pkg.buff.append E (pkg.prologue first.2.length)).buff.size_le_capacity
    rw [ByteBuf.size_append, KitePacketHeader.length_prologue] at this
    omega
  rw [toByteBuf_grown hb hm hsize hbound,
    writeBody_stuck hptr (resize_of_le (by omega) hcap)]
  rfl

theorem exists_message_of_yields {bs : List CChar} (hy : Yields E P pkg bs) :
    ∃ m, pkg.message = some m := by
  obtain ⟨fuel, num, pkg', hok, -⟩ := hy
  cases hm : pkg.message with
  | none => simp [toByteBuf, hm] at hok
  | some m => exact ⟨m, rfl⟩

/-- **Later encodings.** A call on a packet that was encoded before terminates with the
encoding of the packet just when it repeats the first call and there is room at once. -/
theorem reencodes_iff (hb : Grown first pkg.buff)
    (hsize : ∀ m, pkg.message = some m → (P.byteSize m).toInt = (P.serialize m).length) :
    Reencodes E P pkg ↔ Repeats E P first pkg := by
  constructor
  · rintro ⟨bs, hnew, hold⟩
    obtain ⟨m, hm⟩ := exists_message_of_yields hold
    have hm' : { pkg with buff := ByteBuf.empty }.message = some m := hm
    have hsz := hsize m hm
    have hbound := bound_of_yields rfl hm' hsz hnew
    have hbs := eq_frame_of_yields rfl hm' hsz hnew
    obtain ⟨fuel, num, pkg', hok, -, hholds⟩ := hold
    obtain ⟨buff, rfl, hdata, -⟩ := toByteBuf_eq_ok hm hsz hok
    -- both frames begin the buffer, and no frame begins another
    have hlen : bs.length ≤ buff.buff.data.length := by
      rw [hdata, hbs]
      simp
    have hnow : pkg.frame (P.serialize m) <+: buff.buff.data :=
      hbs ▸ hholds.prefix_of_le (ByteBuf.holds_getBuffPtr_data E buff) hlen
    have hthen : first.1.frame first.2 <+: buff.buff.data := by
      rw [hdata]
      exact hb.begins.trans (List.prefix_append _ _)
    have hcode : PrefixFree (KitePacketHeader.frames (2 ^ 31)) :=
      KitePacketHeader.prefixFree_frames (by decide)
    obtain ⟨hheader, hbody⟩ := KitePacketHeader.frame_injective
      (hcode.eq_of_prefix ⟨_, _, hb.bound, rfl⟩ ⟨_, _, by omega, rfl⟩ hthen hnow)
    rw [← hbody] at hsz hbound
    refine ⟨hheader.symm, ⟨m, hm, hbody.symm⟩, hbound, ?_⟩
    by_contra hroom
    rw [toByteBuf_stuck hb hm hsz hbound (by omega)] at hok
    cases hok
  · rintro ⟨hheader, ⟨m, hm, hbody⟩, hbound, hroom⟩
    have hm' : { pkg with buff := ByteBuf.empty }.message = some m := hm
    have hsz := hsize m hm
    have hframe : pkg.frame (P.serialize m) = first.1.frame first.2 := by rw [hheader, hbody]
    refine ⟨pkg.frame (P.serialize m), yields_frame rfl hm' hsz (hbody ▸ hbound), ?_⟩
    rw [← getWritePtr_append_prologue hb pkg.toKitePacketHeader hb.bound] at hroom
    obtain ⟨cell, hptr⟩ := Option.isSome_iff_exists.mp hroom
    have hint : (BitVec.ofNat 32 first.2.length).toInt = (P.serialize m).length := by
      rw [hbody, toInt_ofNat_of_lt hb.bound]
    have hok := toByteBuf_grown (E := E) hb hm (hbody ▸ hsz) hbound 1
    rw [writeBody_of_room hint (by rw [hbody]; omega) hptr, Except.map] at hok
    obtain ⟨buff, hpkg, hdata, -⟩ := toByteBuf_eq_ok hm hsz hok
    refine ⟨1, _, _, hok, ?_, ?_⟩
    · rw [toInt_ofNat_of_lt (by omega), hframe, KitePacketHeader.length_frame]
    · have hholds := ByteBuf.holds_getBuffPtr_data E buff
      obtain ⟨rest, hrest⟩ := hb.begins
      rw [hdata, ← hrest, ← hframe, List.append_assoc] at hholds
      exact hpkg ▸ hholds.of_append

end KitePacket

/-! ## The life of a packet -/

namespace UsedPacket

variable {E : Platform} {P : Protobuf} {s s' : UsedPacket}

/-- The buffer is empty until the first encoding, and begins with its frame from then on. -/
def Inv (s : UsedPacket) : Prop :=
  match s.first with
  | none => s.pkg.buff = .empty
  | some first => KitePacket.Grown first s.pkg.buff

/-- An encoding keeps the writer index at the end of the data and the first frame in front. -/
theorem Inv.toByteBuf {passes : ℕ} {num : CInt} {pkg : KitePacket} {m : MessageLite}
    (hs : Inv s) (hm : s.pkg.message = some m)
    (hsize : (P.byteSize m).toInt = (P.serialize m).length)
    (hok : KitePacket.toByteBuf E P passes s.pkg = .ok (num, pkg)) :
    Inv ⟨pkg, some (s.first.getD (s.pkg.toKitePacketHeader, P.serialize m))⟩ := by
  obtain ⟨buff, rfl, hdata, hindex⟩ := KitePacket.toByteBuf_eq_ok hm hsize hok
  have hsum : buff.buff.size =
      s.pkg.buff.buff.size + (s.pkg.frame (P.serialize m)).length := by
    rw [← Vec.length_data, hdata, List.length_append, Vec.length_data]
  rw [Inv] at hs
  cases hfirst : s.first with
  | none =>
      rw [hfirst] at hs
      have hlt := BitVec.toInt_lt (x := P.byteSize m)
      refine ⟨?_, ?_, ?_⟩
      · rw [hdata, hs]
        exact List.prefix_rfl
      · simp only [Option.getD_none]
        omega
      · rw [hindex, hsum, hs, BitVec.ofNat_add]
        rfl
  | some first =>
      rw [hfirst] at hs
      refine ⟨?_, hs.bound, ?_⟩
      · rw [hdata]
        exact hs.begins.trans (List.prefix_append _ _)
      · rw [hindex, hsum, hs.index, BitVec.ofNat_add]

theorem inv_step {a : PacketAction} (hs : Inv s) (hsized : Measured P a s)
    (hstep : (uses E P).step a s = some s') : Inv s' := by
  cases a with
  | toByteBuf passes =>
      simp only [uses, step] at hstep
      split at hstep
      · rename_i num pkg m hok hm
        cases hstep
        exact hs.toByteBuf hm (hsized m hm) hok
      · cases hstep
  | setOpaque _ | setCmdType _ | setVersion _ | setExtension _ | setMessage _ =>
      cases hstep
      exact hs

theorem inv_of_reachesUnder (hs : (uses E P).ReachesUnder (Measured P) s) : Inv s := by
  refine hs.invariant ?_ fun _ _ _ ↦ inv_step
  rintro s ⟨hbuff, hfirst⟩
  rw [Inv, hfirst]
  exact hbuff

theorem Inv.reencodes_iff (hs : Inv s) {first : KitePacketHeader × List CChar}
    (hfirst : s.first = some first)
    (hsized : ∀ m, s.pkg.message = some m → (P.byteSize m).toInt = (P.serialize m).length) :
    s.pkg.Reencodes E P ↔ s.pkg.Repeats E P first := by
  rw [Inv, hfirst] at hs
  exact KitePacket.reencodes_iff hs hsized

/-- **Re-encoding.** Whatever was done with a packet before, a call of `toByteBuf` after the
first one terminates with the encoding of the packet just when header and message are those of
the first call and the block has room for the body at once. -/
theorem reencodes_iff_of_reachesUnder (hs : (uses E P).ReachesUnder (Measured P) s)
    {first : KitePacketHeader × List CChar} (hfirst : s.first = some first)
    (hsized : ∀ m, s.pkg.message = some m → (P.byteSize m).toInt = (P.serialize m).length) :
    s.pkg.Reencodes E P ↔ s.pkg.Repeats E P first :=
  (inv_of_reachesUnder hs).reencodes_iff hfirst hsized

/-- A heartbeat on which nothing was called. -/
def heartBeat : UsedPacket := ⟨KitePacket.heartBeatOf 5, none⟩

/-- A heartbeat that was encoded once. -/
def encodedOnce : UsedPacket :=
  ((uses .gcc proto2).step (.toByteBuf 1) heartBeat).getD heartBeat

theorem step_heartBeat : (uses .gcc proto2).step (.toByteBuf 1) heartBeat = some encodedOnce := by
  decide +kernel

theorem measured_heartBeat (m : MessageLite) (hm : heartBeat.pkg.message = some m) :
    (proto2.byteSize m).toInt = (proto2.serialize m).length := by
  cases hm
  decide

theorem reaches_encodedOnce :
    (uses .gcc proto2).ReachesUnder (Measured proto2) encodedOnce ∧
      encodedOnce.first =
        some (heartBeat.pkg.toKitePacketHeader, proto2.serialize (.heartBeat ⟨some 1⟩)) ∧
      encodedOnce.pkg.message = heartBeat.pkg.message := by
  have hmeasured : Measured proto2 (.toByteBuf 1) heartBeat := measured_heartBeat
  exact ⟨.step (.init ⟨rfl, rfl⟩) hmeasured step_heartBeat, by decide +kernel, by decide +kernel⟩

/-- The same heartbeat can be encoded a second time. -/
theorem reencodes_encodedOnce : encodedOnce.pkg.Reencodes .gcc proto2 := by
  obtain ⟨hreach, hfirst, hm⟩ := reaches_encodedOnce
  refine (reencodes_iff_of_reachesUnder hreach hfirst ?_).mpr ?_
  · rw [hm]
    exact measured_heartBeat
  · exact ⟨by decide +kernel, ⟨_, hm, rfl⟩, by decide +kernel, by decide +kernel⟩

/-- With another opaque the second call returns the bytes of the first. -/
theorem not_reencodes_setOpaque : ∃ s, (uses .gcc proto2).ReachesUnder (Measured proto2) s ∧
    s.first.isSome ∧ ¬ s.pkg.Reencodes .gcc proto2 := by
  obtain ⟨s, hreach, hfirst, hm⟩ : ∃ s, (uses .gcc proto2).ReachesUnder (Measured proto2) s ∧
      s.first =
        some (heartBeat.pkg.toKitePacketHeader, proto2.serialize (.heartBeat ⟨some 1⟩)) ∧
      s.pkg.message = heartBeat.pkg.message := ⟨encodedOnce, reaches_encodedOnce⟩
  have hset : (uses .gcc proto2).ReachesUnder (Measured proto2) { s with pkg.opaqueId := 8 } :=
    .step hreach (show Measured proto2 (.setOpaque 8) s from trivial) rfl
  refine ⟨_, hset, by simp only [hfirst, Option.isSome_some], fun hre ↦ ?_⟩
  have hrepeats := ((inv_of_reachesUnder hset).reencodes_iff hfirst
    fun m h ↦ measured_heartBeat m (hm ▸ h)).mp hre
  exact absurd (congrArg KitePacketHeader.opaqueId hrepeats.header) (show (8 : CInt) ≠ 7 by decide)

end UsedPacket

end Kiteq

import Kiteq.Protocol.Proto2
import Kiteq.Remoting.ReadLoop

/-!
# Frames and their neighbours

Between frames of admissible length the buffer of a session is empty: an accepted frame is
consumed after its packet was dispatched, a rejected one before the next read, and both leave
nothing.  So each frame is parsed from its own bytes, whatever became of the frames around it.
-/

namespace Kiteq

namespace KitePacket

variable {E : Platform} {P : Protobuf} {pkg pkg' : KitePacket} {buf : Mem} {pkglen : CInt}

/-- `parseFrom` leaves the buffer of the packet alone. -/
theorem buff_parsed : (parsed E P pkg buf pkglen).2.buff = pkg.buff := by
  cases h : accepted buf pkglen with
  | none => simp only [parsed_of_rejected h]
  | some k => simp only [parsed_of_accepted h]

/-- The result of `parseFrom`, and the packet where there is one, do not depend on what the
packet held before. -/
theorem parsed_congr (h : pkg.buff = pkg'.buff) (buf : Mem) (pkglen : CInt) :
    (parsed E P pkg buf pkglen).1 = (parsed E P pkg' buf pkglen).1 ∧
      ((parsed E P pkg buf pkglen).1 = true →
        (parsed E P pkg buf pkglen).2 = (parsed E P pkg' buf pkglen).2) := by
  cases ha : accepted buf pkglen with
  | none => simp [parsed_of_rejected ha]
  | some k =>
      rw [parsed_of_accepted ha, parsed_of_accepted ha]
      simp [h]

end KitePacket

/-- What `parseFrom` makes of the bytes of a frame, `none` where it rejects them. -/
def RawFrame.packet (E : Platform) (P : Protobuf) (pkg : KitePacket) (f : RawFrame) :
    Option KitePacket :=
  let r := KitePacket.parsed E P pkg (E.memory f.body) (lengthOf f.head)
  if r.1 then some r.2 else none

section

variable {E : Platform} {P : Protobuf}

theorem RawFrame.packet_congr {pkg pkg' : KitePacket} (h : pkg.buff = pkg'.buff) (f : RawFrame) :
    f.packet E P pkg = f.packet E P pkg' := by
  obtain ⟨hok, hpkg⟩ :=
    KitePacket.parsed_congr (E := E) (P := P) h (E.memory f.body) (lengthOf f.head)
  simp only [packet, ← hok]
  split
  · rw [hpkg ‹_›]
  · rfl

/-- The result of a run over frames: what was asked for, parsed and handled, and where the
session is left. -/
structure ReadsFrames (E : Platform) (P : Protobuf) (pkg : KitePacket) (fs : List RawFrame)
    (r : Reader × List Event) : Prop where
  /-- Each body read asks for the length of its frame, with nothing in the buffer. -/
  prepares : prepares r.2 = fs.map fun f ↦ (lengthOf f.head, 0)
  /-- Each run of `parseFrom` is given the bytes of its frame. -/
  parses : parses r.2 = fs.map fun f ↦ (f.body, lengthOf f.head)
  /-- The handler is called for the accepted frames, in order, with their own packets. -/
  handled : handled r.2 = (fs.filterMap (RawFrame.packet E P pkg)).map some
  pending : r.1.session.pending = some .pkglen
  readBuffer : r.1.session.readBuffer = []
  input : r.1.input = []

/-- **Neighbours.** A run over frames of admissible length, whatever they contain, parses each
from its own bytes and dispatches exactly the packets of those that `parseFrom` accepts. -/
theorem readsFrames_run {s : Session} (hp : s.pending = some .pkglen) (hbuf : s.readBuffer = [])
    {fs : List RawFrame}
    (hfs : ∀ f ∈ fs, 19 ≤ f.body.length ∧ f.body.length < Protocol.MAX_PACKET_BYTES.toNat) :
    ReadsFrames E P s.readPkg fs
      ((readLoop E P).run ⟨s, fs.flatMap RawFrame.bytes, false⟩) := by
  induction fs generalizing s with
  | nil =>
      rw [List.flatMap_nil, run_nil hp]
      exact ⟨rfl, rfl, rfl, hp, hbuf, rfl⟩
  | cons f fs ih =>
      have hlt : (f.body.length : ℤ) < KitePacket.getMaxFrameLength.toInt :=
        Int.ofNat_lt.mpr (hfs f List.mem_cons_self).2
      have hread := Session.readFrame_of_empty (E := E) (P := P) hbuf hlt rfl
      set r := KitePacket.parsed E P s.readPkg (E.memory f.body) (lengthOf f.head) with hr
      have hbuff : r.2.buff = s.readPkg.buff := KitePacket.buff_parsed
      have hrest := ih (s := (s.readFrame E P f).1) (Session.pending_readFrame s f)
        (by rw [hread]; exact hbuf) fun g hg ↦ hfs g (List.mem_cons_of_mem f hg)
      have hpkg : RawFrame.packet E P (s.readFrame E P f).1.readPkg =
          RawFrame.packet E P s.readPkg := by
        funext g
        exact g.packet_congr (by rw [hread]; exact hbuff)
      rw [List.flatMap_cons, run_frame hp]
      have hpacket : f.packet E P s.readPkg = if r.1 then some r.2 else none := rfl
      refine ⟨?_, ?_, ?_, hrest.pending, hrest.readBuffer, hrest.input⟩
      · have h := hrest.prepares
        simp only [Kiteq.prepares, List.filterMap_append, List.map_cons] at h ⊢
        rw [h, hread]
        cases r.1 <;> rfl
      · have h := hrest.parses
        simp only [Kiteq.parses, List.filterMap_append, List.map_cons] at h ⊢
        rw [h, hread]
        cases r.1 <;> rfl
      · have h := hrest.handled
        rw [hpkg] at h
        simp only [Kiteq.handled, List.filterMap_append, List.filterMap_cons] at h ⊢
        rw [h, hread, hpacket]
        cases r.1 <;> rfl

/-- A frame of nineteen zeros: its command is unknown. -/
def unknownFrame : RawFrame := .short (List.replicate 19 0) rfl

/-- The frame of a heartbeat of version 1. -/
def heartBeatFrame : RawFrame where
  head := [0, 0, 0, 21]
  body := [0, 0, 0, 7, 1, 0, 0, 0, 0, 0, 0, 0, 0, 0, 0, 0, 0, 0, 2, 8, 1]
  length_head := rfl
  lengthOf_head := by decide

/-- A heartbeat between two frames that are rejected. -/
theorem readsFrames_run_heartBeat :
    ReadsFrames .gcc proto2 blankPacket [unknownFrame, heartBeatFrame, unknownFrame]
      ((readLoop .gcc proto2).run ⟨Session.start blankPacket,
        [unknownFrame, heartBeatFrame, unknownFrame].flatMap RawFrame.bytes, false⟩) :=
  readsFrames_run (Session.pending_start _) (Session.readBuffer_start _) (by decide)

end

end Kiteq

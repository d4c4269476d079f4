import Kiteq.Protocol.Proto2
import Kiteq.Remoting.ReadLoop

/-!
# Accesses and frame bounds

A peer chooses two lengths: the prefix, which decides what is read into the buffer, and the
inner body length, which decides what `ParseFromArray` is given.  The session checks the prefix
against its upper bound only after the body was read, and never against the header length;
`parseFrom` checks the body length against its upper bound only.

`WellFramed` says of a stream that no frame takes advantage of this, and `inFrame_iff` that the
session keeps within its frames on exactly those streams.
-/

namespace Kiteq

open Lib

/-- The access stays within the first `len` bytes; a slice is the body of the frame. -/
def Access.Within (len : CInt) : Access → Prop
  | .byte offset => (offset : ℤ) < len.toInt
  | .slice offset size => offset = 19 ∧ 0 ≤ size.toInt ∧ 19 + size.toInt ≤ len.toInt

/-- A length a frame may have: that of the header at least, and below the limit. -/
def Admissible (len : CInt) : Prop :=
  19 ≤ len.toInt ∧ len.toInt < KitePacket.getMaxFrameLength.toInt

instance (len : CInt) : Decidable (Admissible len) := inferInstanceAs (Decidable (_ ∧ _))

/-- Reads are started for admissible lengths only, and `parseFrom` keeps within the length it
is given. -/
def Event.InFrame : Event → Prop
  | .prepare len _ => Admissible len
  | .parse _ len trace _ => ∀ a ∈ trace, a.Within len
  | _ => True

section

variable (E : Platform)

/-- A body whose command is decoded declares a length that is not negative. -/
def BodyBounded (body : List CChar) : Prop :=
  (KitePacket.messageKind (E.memory body 4)).isSome →
    0 ≤ (KitePacket.bodyLength (E.memory body)).toInt

/-- Every prefix of the stream is admissible, and every complete frame bounds its body. -/
def WellFramed (bs : List CChar) : Prop :=
  if bs.length < 4 then True
  else
    let len := lengthOf (bs.take 4)
    let rest := bs.drop 4
    Admissible len ∧
      (len.toNat ≤ rest.length →
        BodyBounded E (rest.take len.toNat) ∧ WellFramed (rest.drop len.toNat))
termination_by bs.length
decreasing_by simp only [List.length_drop]; omega

end

section

variable {E : Platform} {P : Protobuf} {pkg : KitePacket} {buf : Mem} {len : CInt}
  {s : Session} {bs : List CChar} {eof : Bool}

theorem wellFramed_of_lt (h : bs.length < 4) : WellFramed E bs := by
  rw [WellFramed, if_pos h]
  trivial

/-- The first prefix of a stream, and what follows it. -/
theorem wellFramed_append_iff {head rest : List CChar} (h : head.length = 4) :
    WellFramed E (head ++ rest) ↔ Admissible (lengthOf head) ∧
      ((lengthOf head).toNat ≤ rest.length →
        BodyBounded E (rest.take (lengthOf head).toNat) ∧
          WellFramed E (rest.drop (lengthOf head).toNat)) := by
  rw [WellFramed, if_neg (by simp [h])]
  simp only [List.take_left' h, List.drop_left' h]

/-- On a frame of the header's length at least, `parseFrom` keeps within it exactly when the
body is bounded. -/
theorem forall_within_accesses_iff (pkg : KitePacket) (buf : Mem) (hlen : 19 ≤ len.toInt) :
    (∀ a ∈ KitePacket.accesses E P pkg buf len, a.Within len) ↔
      ((KitePacket.messageKind (buf 4)).isSome → 0 ≤ (KitePacket.bodyLength buf).toInt) := by
  have hsub := KitePacket.toInt_sub_getHeaderLen (Int.le_trans (by decide) hlen)
  have hheader : ∀ a ∈ ByteBuf.touched 0 19, a.Within len := by
    intro a ha
    obtain ⟨i, hi, rfl⟩ := List.mem_map.mp ha
    have hi19 : i < 19 := List.mem_range.mp hi
    change ((0 + i : ℕ) : ℤ) < len.toInt
    omega
  cases hacc : KitePacket.accepted buf len with
  | none =>
      rw [KitePacket.accesses_of_rejected hacc]
      refine iff_of_true hheader fun hkind ↦ ?_
      rw [KitePacket.accepted] at hacc
      split at hacc
      · omega
      · rw [hacc] at hkind
        simp at hkind
  | some k =>
      rw [KitePacket.accesses_of_accepted hacc]
      rw [KitePacket.accepted] at hacc
      split at hacc
      · cases hacc
      · constructor
        · intro h _
          exact (h (.slice 19 (KitePacket.bodyLength buf)) (by simp)).2.1
        · intro h a ha
          rcases List.mem_append.mp ha with ha | ha
          · exact hheader a ha
          · rw [List.mem_singleton.mp ha]
            exact ⟨rfl, h (by simp [hacc]), by omega⟩

/-- The events of one frame. -/
theorem forall_inFrame_readFrame_iff (hbuf : s.readBuffer = []) {f : RawFrame}
    (hadm : Admissible (lengthOf f.head)) :
    (∀ e ∈ (s.readFrame E P f).2, e.InFrame) ↔ BodyBounded E f.body := by
  have hlt : (f.body.length : ℤ) < KitePacket.getMaxFrameLength.toInt :=
    f.lengthOf_head ▸ hadm.2
  have hwithin := forall_within_accesses_iff (E := E) (P := P) s.readPkg (E.memory f.body) hadm.1
  rw [Session.readFrame_of_empty hbuf hlt rfl, BodyBounded, ← hwithin]
  constructor
  · intro h
    exact h _ (List.mem_cons_of_mem _ List.mem_cons_self)
  · intro h e he
    rcases List.mem_cons.mp he with rfl | he
    · exact hadm
    rcases List.mem_cons.mp he with rfl | he
    · exact h
    · split at he
      · rw [List.mem_singleton.mp he]
        trivial
      · cases he

/-- Whatever the prefix, `prepare` is called with the length the session makes of it. -/
theorem prepare_mem_run {head rest : List CChar} (hp : s.pending = some .pkglen)
    (hhead : head.length = 4) :
    .prepare (lengthOf head) s.readBuffer.length ∈
      ((readLoop E P).run ⟨s, head ++ rest, eof⟩).2 := by
  rw [run_head hp hhead]
  by_cases hneg : (lengthOf head).toInt < 0
  · rw [Session.asyncReadPkglen_of_neg hneg]
    exact List.mem_cons_self
  · rw [Session.asyncReadPkglen_of_nonneg (Int.not_lt.mp hneg)]
    exact List.mem_cons_self

/-- A stream that ends before the pending read is complete violates nothing. -/
theorem inFrame_run_of_lt {w : Wait} {input : List CChar} (hp : s.pending = some w)
    (h : input.length < w.size) :
    ∀ e ∈ ((readLoop E P).run ⟨s, input, eof⟩).2, e.InFrame := by
  rw [run_of_lt hp h]
  cases eof <;> simp [Event.InFrame]

/-- **Frame bounds.** A session starts reads for admissible lengths and parses within its frames
exactly on the well-framed streams. -/
theorem inFrame_iff (hp : s.pending = some .pkglen) (hbuf : s.readBuffer = [])
    (bs : List CChar) (eof : Bool) :
    (∀ e ∈ ((readLoop E P).run ⟨s, bs, eof⟩).2, e.InFrame) ↔ WellFramed E bs := by
  induction hn : bs.length using Nat.strong_induction_on generalizing s bs with
  | _ n ih =>
      by_cases hshort : bs.length < 4
      · exact iff_of_true (inFrame_run_of_lt hp hshort) (wellFramed_of_lt hshort)
      obtain ⟨head, rest, rfl, hhead⟩ : ∃ head rest, bs = head ++ rest ∧ head.length = 4 :=
        ⟨bs.take 4, bs.drop 4, (List.take_append_drop 4 bs).symm, by simp; omega⟩
      rw [wellFramed_append_iff hhead]
      by_cases hadm : Admissible (lengthOf head)
      swap
      · exact iff_of_false (fun h ↦ hadm (h _ (prepare_mem_run hp hhead))) fun h ↦ hadm h.1
      have hnonneg : 0 ≤ (lengthOf head).toInt := by have := hadm.1; omega
      have hlen := toInt_eq_toNat_of_nonneg hnonneg
      by_cases hrest : rest.length < (lengthOf head).toNat
      · refine iff_of_true ?_ ⟨hadm, fun h ↦ by omega⟩
        rw [run_head hp hhead, Session.asyncReadPkglen_of_nonneg hnonneg, List.forall_mem_append]
        refine ⟨by simpa [Event.InFrame] using hadm, ?_⟩
        exact inFrame_run_of_lt (w := .pkgdata (lengthOf head).toNat) rfl hrest
      · -- the frame is complete, and the session is at the next one with an empty buffer
        let f : RawFrame :=
          ⟨head, rest.take (lengthOf head).toNat, hhead, by rw [hlen, List.length_take]; omega⟩
        have hbytes : head ++ rest = f.bytes ++ rest.drop (lengthOf head).toNat := by
          rw [RawFrame.bytes, List.append_assoc, List.take_append_drop]
        have hlt : (f.body.length : ℤ) < KitePacket.getMaxFrameLength.toInt :=
          f.lengthOf_head ▸ hadm.2
        have hnext := ih (rest.drop (lengthOf head).toNat).length
          (by simp only [← hn, List.length_append, List.length_drop]; omega)
          (s := (s.readFrame E P f).1) (Session.pending_readFrame s f)
          (by rw [Session.readFrame_of_empty hbuf hlt rfl]; exact hbuf) _ rfl
        rw [hbytes, run_frame hp, List.forall_mem_append, hnext,
          forall_inFrame_readFrame_iff (f := f) hbuf hadm]
        exact ⟨fun h ↦ ⟨hadm, fun _ ↦ h⟩, fun h ↦ h.2 (by omega)⟩

/-- A heartbeat and the start of another frame. -/
def heartBeatStream : List CChar :=
  [0, 0, 0, 21] ++ [0, 0, 0, 7, 1, 0, 0, 0, 0, 0, 0, 0, 0, 0, 0, 0, 0, 0, 0, 2, 8, 1, 0, 0]

/-- The stream is well framed, and a session keeps within it. -/
theorem inFrame_iff_heartBeat : WellFramed .gcc heartBeatStream ∧
    ∀ e ∈ ((readLoop .gcc proto2).run ⟨Session.start blankPacket, heartBeatStream, true⟩).2,
      e.InFrame := by
  have hframed : WellFramed .gcc heartBeatStream := by
    refine (wellFramed_append_iff rfl).mpr ⟨by decide, fun _ ↦ ⟨?_, ?_⟩⟩
    · exact fun _ ↦ by decide
    · exact wellFramed_of_lt (by decide)
  exact ⟨hframed, (inFrame_iff (E := .gcc) (P := proto2) (Session.pending_start blankPacket)
    (Session.readBuffer_start blankPacket) _ true).mpr hframed⟩

/-- A prefix of two bytes' length has a body read that is shorter than the header, and
`parseFrom` reads behind it. -/
theorem not_inFrame_short :
    ∃ e ∈ ((readLoop .gcc proto2).run ⟨Session.start blankPacket,
      [0, 0, 0, 2, 0, 0], false⟩).2, ¬e.InFrame := by
  have hmem : .prepare (lengthOf [0, 0, 0, 2]) 0 ∈ ((readLoop .gcc proto2).run
      ⟨Session.start blankPacket, [0, 0, 0, 2] ++ [0, 0], false⟩).2 := prepare_mem_run rfl rfl
  refine ⟨_, hmem, ?_⟩
  simp only [Event.InFrame]
  decide

end

end Kiteq

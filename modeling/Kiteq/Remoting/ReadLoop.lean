import Kiteq.Remoting.Session

/-!
# The read loop

The callbacks of a session, driven by a byte stream.  A pending read completes as soon as the
stream holds enough bytes, with exactly as many bytes as it asked for; where the peer has closed
the connection and the bytes do not suffice, it completes with an error.

`run_frame` is the step lemma everything about streams is proved from: a whole frame at a frame
boundary is read by two completions, and what they do is `Session.readFrame`.  `run_arrive` says
that it makes no difference when the bytes arrive.
-/

namespace Kiteq

open Lib

/-- A session and the part of the stream it has not read. -/
structure Reader where
  session : Session
  input : List CChar
  /-- The peer has closed the connection behind the input. -/
  eof : Bool

/-- A bound on the completions left that consume nothing. -/
def Wait.rank : Option Wait → ℕ
  | none => 0
  | some .pkglen => 1
  | some (.pkgdata _) => 2

namespace Reader

variable (E : Platform) (P : Protobuf)

/-- The completion of the pending read. -/
def next (r : Reader) : Option (Reader × List Event) :=
  match r.session.pending with
  | none => none
  | some w =>
    if w.size ≤ r.input.length then
      let c := r.session.complete E P false (r.input.take w.size)
      some ({ r with session := c.1, input := r.input.drop w.size }, c.2)
    else if r.eof then
      let c := r.session.complete E P true r.input
      some ({ r with session := c.1 }, c.2)
    else none

def rank (r : Reader) : ℕ := 2 * r.input.length + Wait.rank r.session.pending

end Reader

namespace Session

variable {E : Platform} {P : Protobuf} {s : Session} {bytes : List CChar}

theorem rank_handleReadPkg_le (err : Bool) : Wait.rank (s.handleReadPkg err).1.pending ≤ 1 := by
  cases err <;> simp [handleReadPkg, asyncRead, asyncSetupReadVarint, Wait.rank]

theorem rank_asyncReadPkgdata_le (s : Session) (bytes : List CChar) :
    Wait.rank (s.asyncReadPkgdata E P false bytes).1.pending ≤ 1 := by
  unfold asyncReadPkgdata
  split
  · exact rank_handleReadPkg_le _
  · dsimp only
    split
    · exact rank_handleReadPkg_le _
    · split <;> simp [handleReadPkg, asyncRead, asyncSetupReadVarint, Wait.rank]

end Session

namespace Reader

variable {E : Platform} {P : Protobuf} {s : Session}

theorem rank_lt {r r' : Reader} {es : List Event} (h : next E P r = some (r', es)) :
    r'.rank < r.rank := by
  obtain ⟨s, input, eof⟩ := r
  cases hp : s.pending with
  | none => simp [next, hp] at h
  | some w =>
      have hpos : 0 < Wait.rank (some w) := by cases w <;> simp [Wait.rank]
      simp only [next, hp] at h
      split at h
      · cases h
        cases w with
        | pkglen =>
            have hle : Wait.rank (s.asyncReadPkglen false (input.take 4)).1.pending ≤ 2 := by
              unfold Session.asyncReadPkglen
              split
              · exact (Session.rank_handleReadPkg_le _).trans (by omega)
              · dsimp only; split <;> simp [Wait.rank]
            simp only [rank, Session.complete, hp, Wait.size, List.length_drop] at *
            omega
        | pkgdata n =>
            have hle := s.rank_asyncReadPkgdata_le (E := E) (P := P) (input.take n)
            have h2 : Wait.rank (some (.pkgdata n)) = 2 := rfl
            simp only [rank, Session.complete, hp, Wait.size, List.length_drop] at *
            omega
      · split at h
        · cases h
          simp only [rank, Session.complete_true hp, hp]
          have : Wait.rank none = 0 := rfl
          omega
        · cases h

end Reader

/-- The read loop of a session. -/
def readLoop (E : Platform) (P : Protobuf) : Machine Reader Event where
  next := Reader.next E P
  rank := Reader.rank
  rank_lt := Reader.rank_lt

/-! ## Frames as the session delimits them -/

/-- A prefix and as many bytes as the session makes of it. -/
structure RawFrame where
  head : List CChar
  body : List CChar
  length_head : head.length = 4
  lengthOf_head : (lengthOf head).toInt = body.length

namespace RawFrame

/-- A frame that is as long as the header of a packet. -/
def short (header : List CChar) (h : header.length = 19) : RawFrame where
  head := [0, 0, 0, 19]
  body := header
  length_head := rfl
  lengthOf_head := by rw [h]; decide

variable (f : RawFrame)

/-- The frame on the wire. -/
def bytes : List CChar := f.head ++ f.body

theorem toNat_lengthOf_head : (lengthOf f.head).toNat = f.body.length :=
  toNat_eq_of_toInt_eq f.lengthOf_head

end RawFrame

namespace Session

variable (E : Platform) (P : Protobuf)

/-- What a session does with a frame: the two completions it takes to read one. -/
def readFrame (s : Session) (f : RawFrame) : Session × List Event :=
  let c := ({ s with
    pkglen := f.head, pending := some (.pkgdata f.body.length) } : Session).asyncReadPkgdata
      E P false f.body
  (c.1, .prepare (lengthOf f.head) s.readBuffer.length :: c.2)

variable {E P} {s : Session} {f : RawFrame}

/-- A frame that is too long stays in the buffer and has the packet of an earlier frame
delivered. -/
theorem readFrame_of_oversized
    (h : KitePacket.getMaxFrameLength.toInt ≤ f.body.length) :
    s.readFrame E P f =
      ({ s with
          readBuffer := s.readBuffer ++ f.body
          pkglen := f.head
          pending := some .pkglen },
        [.prepare (lengthOf f.head) s.readBuffer.length, .deliver s.readPkg]) := by
  rw [readFrame, asyncReadPkgdata_of_oversized (by simpa [f.lengthOf_head] using h)]

/-- Any other frame has the front of the buffer parsed and as many bytes consumed. -/
theorem readFrame_of_lt {data : Mem} {r : Bool × KitePacket}
    (h : (f.body.length : ℤ) < KitePacket.getMaxFrameLength.toInt)
    (hdata : data = E.memory (s.readBuffer ++ f.body))
    (hr : r = KitePacket.parsed E P s.readPkg data (lengthOf f.head)) :
    s.readFrame E P f =
      ({ s with
          readBuffer := (s.readBuffer ++ f.body).drop f.body.length
          pkglen := f.head
          readPkg := r.2
          pending := some .pkglen },
        .prepare (lengthOf f.head) s.readBuffer.length ::
          .parse (s.readBuffer ++ f.body) (lengthOf f.head)
            (KitePacket.accesses E P s.readPkg data (lengthOf f.head)) r.1 ::
              if r.1 then [.deliver r.2] else []) := by
  rw [readFrame, asyncReadPkgdata_of_lt
    (s := { s with pkglen := f.head, pending := some (.pkgdata f.body.length) })
    (by simpa [f.lengthOf_head] using h) (by simp [f.toNat_lengthOf_head]) hdata hr]

/-- On an empty buffer `parseFrom` sees the frame and nothing else, and leaves the buffer
empty. -/
theorem readFrame_of_empty {r : Bool × KitePacket} (hbuf : s.readBuffer = [])
    (h : (f.body.length : ℤ) < KitePacket.getMaxFrameLength.toInt)
    (hr : r = KitePacket.parsed E P s.readPkg (E.memory f.body) (lengthOf f.head)) :
    s.readFrame E P f =
      ({ s with pkglen := f.head, readPkg := r.2, pending := some .pkglen },
        .prepare (lengthOf f.head) 0 ::
          .parse f.body (lengthOf f.head)
            (KitePacket.accesses E P s.readPkg (E.memory f.body) (lengthOf f.head)) r.1 ::
              if r.1 then [.deliver r.2] else []) := by
  rw [readFrame_of_lt h rfl (by simpa [hbuf] using hr)]
  simp [hbuf]

theorem pending_readFrame (s : Session) (f : RawFrame) :
    (s.readFrame E P f).1.pending = some .pkglen := by
  by_cases h : KitePacket.getMaxFrameLength.toInt ≤ f.body.length
  · rw [readFrame_of_oversized h]
  · rw [readFrame_of_lt (not_le.mp h) rfl rfl]

end Session

/-! ## Runs -/

section Runs

variable {E : Platform} {P : Protobuf} {s : Session} {input rest : List CChar} {eof : Bool}

theorem next_of_le {w : Wait} (hp : s.pending = some w) (h : w.size ≤ input.length)
    (eof : Bool) :
    (readLoop E P).next ⟨s, input, eof⟩ =
      some (⟨(s.complete E P false (input.take w.size)).1, input.drop w.size, eof⟩,
        (s.complete E P false (input.take w.size)).2) := by
  simp [readLoop, Reader.next, hp, h]

/-- With too few bytes in the stream the loop waits, or fails once the peer has closed. -/
theorem run_of_lt {w : Wait} (hp : s.pending = some w) (h : input.length < w.size) :
    (readLoop E P).run ⟨s, input, eof⟩ =
      if eof then (⟨{ s with pending := none }, input, eof⟩, [.failed])
      else (⟨s, input, eof⟩, []) := by
  cases eof with
  | false =>
      apply Machine.run_of_halted
      simp [readLoop, Reader.next, hp, Nat.not_le.mpr h]
  | true =>
      have hnext : (readLoop E P).next ⟨s, input, true⟩ =
          some (⟨{ s with pending := none }, input, true⟩, [.failed]) := by
        simp [readLoop, Reader.next, hp, Nat.not_le.mpr h, Session.complete_true hp]
      have hhalt : (readLoop E P).next ⟨{ s with pending := none }, input, true⟩ = none := rfl
      simp [Machine.run_of_next hnext, Machine.run_of_halted hhalt]

/-- The first half of a frame: the prefix is read. -/
theorem run_head {head : List CChar} (hp : s.pending = some .pkglen) (hlen : head.length = 4) :
    (readLoop E P).run ⟨s, head ++ rest, eof⟩ =
      (((readLoop E P).run ⟨(s.asyncReadPkglen false head).1, rest, eof⟩).1,
        (s.asyncReadPkglen false head).2 ++
          ((readLoop E P).run ⟨(s.asyncReadPkglen false head).1, rest, eof⟩).2) := by
  have hsize : Wait.size .pkglen ≤ (head ++ rest).length := by simp [Wait.size, hlen]
  have hnext := next_of_le (E := E) (P := P) hp hsize eof
  simp only [Wait.size, ← hlen, List.take_left, List.drop_left] at hnext
  rw [Machine.run_of_next hnext]
  simp [Session.complete, hp]

/-- **Step lemma.** A frame in front of the stream is read as a whole. -/
theorem run_frame (hp : s.pending = some .pkglen) (f : RawFrame) :
    (readLoop E P).run ⟨s, f.bytes ++ rest, eof⟩ =
      (((readLoop E P).run ⟨(s.readFrame E P f).1, rest, eof⟩).1,
        (s.readFrame E P f).2 ++ ((readLoop E P).run ⟨(s.readFrame E P f).1, rest, eof⟩).2) := by
  have hlen : 0 ≤ (lengthOf f.head).toInt := by rw [f.lengthOf_head]; omega
  rw [RawFrame.bytes, List.append_assoc, run_head hp f.length_head,
    Session.asyncReadPkglen_of_nonneg hlen, f.toNat_lengthOf_head]
  have hsize : Wait.size (.pkgdata f.body.length) ≤ (f.body ++ rest).length := by
    simp [Wait.size]
  have hnext := next_of_le (E := E) (P := P)
    (s := { s with pkglen := f.head, pending := some (.pkgdata f.body.length) }) rfl hsize eof
  simp only [Wait.size, List.take_left, List.drop_left] at hnext
  rw [Machine.run_of_next hnext]
  simp [Session.readFrame, Session.complete]

/-- A session at the boundary of a finished stream waits there. -/
theorem run_nil (hp : s.pending = some .pkglen) :
    (readLoop E P).run ⟨s, [], false⟩ = (⟨s, [], false⟩, []) := by
  rw [run_of_lt hp (by simp [Wait.size])]
  rfl

/-- More input arrives, unless the peer has closed. -/
def Reader.arrive (more : List CChar) (r : Reader) : Reader :=
  if r.eof then r else { r with input := r.input ++ more }

/-- The loop does the same with a stream that arrives in two parts. -/
theorem run_arrive (s : Session) (input more : List CChar) :
    (readLoop E P).run ⟨s, input ++ more, false⟩ =
      (((readLoop E P).run (((readLoop E P).run ⟨s, input, false⟩).1.arrive more)).1,
        ((readLoop E P).run ⟨s, input, false⟩).2 ++
          ((readLoop E P).run (((readLoop E P).run ⟨s, input, false⟩).1.arrive more)).2) := by
  refine Machine.run_map (Reader.arrive more) ?_ ⟨s, input, false⟩
  rintro ⟨s, input, eof⟩ r' es h
  cases eof with
  | true =>
      have heof : r'.eof = true := by
        simp only [readLoop, Reader.next] at h
        split at h <;> grind
      simpa [Reader.arrive, heof] using h
  | false =>
      cases hp : s.pending with
      | none => simp [readLoop, Reader.next, hp] at h
      | some w =>
          by_cases hle : w.size ≤ input.length
          · rw [next_of_le hp hle] at h
            cases h
            have hle' : w.size ≤ (input ++ more).length := by simp; omega
            simp only [Reader.arrive, Bool.false_eq_true, if_false, next_of_le hp hle',
              List.take_append_of_le_length hle, List.drop_append_of_le_length hle]
          · simp [readLoop, Reader.next, hp, hle] at h

end Runs

end Kiteq

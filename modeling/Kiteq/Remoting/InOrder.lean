import Kiteq.Remoting.Acknowledged
import Kiteq.Remoting.ReadLoop

/-!
# The IO thread reads in order

The callbacks of a session run between the steps of all other threads, and the bytes of the stream
arrive in portions of their own.  `sequential_of_run` says that none of this can be told from what
the IO thread does: since the last successful connect, it has handled the packets that the
sequential read loop delivers on the bytes received so far, in their order and once each, and has
looked up every response among them once.
-/

namespace Kiteq

open Lib System

/-- The packet whose handler has not begun. -/
def IoPc.inHand : IoPc → Option KitePacket
  | .handling pkg _ => some pkg
  | _ => none

/-- The response that was not looked up yet. -/
def IoPc.unanswered : IoPc → Option KitePacket
  | .handling pkg _ => if isResponse pkg.cmdType then some pkg else none
  | .responding pkg _ => some pkg
  | _ => none

/-- What has happened on a connection. -/
structure Connection where
  /-- The session as `handle_connect` has left it. -/
  start : Session
  /-- The bytes that reads have completed with. -/
  bytes : List CChar
  /-- The packets whose handlers have begun. -/
  begun : List KitePacket
  /-- The packets `receiveResponse` was called with. -/
  answered : List KitePacket

/-- A step of the IO thread in the handler of a packet. -/
def Connection.handle (c : Connection) : IoPc → Connection
  | .handling pkg _ => { c with begun := c.begun ++ [pkg] }
  | .responding pkg _ => { c with answered := c.answered ++ [pkg] }
  | _ => c

/-- What has happened in a run since the last successful connect. -/
def sinceConnect : List (Transition ClientAction Client) → Option Connection
  | [] => none
  | x :: t => match x.action with
    | .connect _ false => some ⟨x.post.session, [], [], []⟩
    | .recv false bytes => (sinceConnect t).map fun c ↦ { c with bytes := c.bytes ++ bytes }
    | .io => (sinceConnect t).map (·.handle x.pre.io)
    | _ => sinceConnect t

/-- The session and the IO thread are at a point of the read loop. -/
structure Connection.InOrder (E : Platform) (P : Protobuf) (c : Connection) (session : Session)
    (io : IoPc) : Prop where
  /-- The loop has come to the session, unless a read has failed meanwhile, and has delivered what
  was handled and what is in hand. -/
  loop : ∃ s es, (session = s ∨ session = { s with pending := none }) ∧
    (readLoop E P).Passes ⟨c.start, c.bytes, false⟩ es ⟨s, [], false⟩ ∧
    handled es = (c.begun ++ io.inHand.toList).map some
  answered : c.answered ++ io.unanswered.toList =
    (c.begun ++ io.inHand.toList).filter fun pkg ↦ isResponse pkg.cmdType

section

variable {E : Platform} {P : Protobuf}

/-- More bytes that complete the pending read take the loop one callback further. -/
theorem passes_recv {start s : Session} {input bytes : List CChar} {es : List Event} {w : Wait}
    (h : (readLoop E P).Passes ⟨start, input, false⟩ es ⟨s, [], false⟩) (hw : s.pending = some w)
    (hbytes : bytes.length = w.size) :
    (readLoop E P).Passes ⟨start, input ++ bytes, false⟩ (es ++ (s.complete E P false bytes).2)
      ⟨(s.complete E P false bytes).1, [], false⟩ := by
  have harrive : (readLoop E P).Passes ⟨start, input ++ bytes, false⟩ es ⟨s, bytes, false⟩ := by
    have hall := run_arrive (E := E) (P := P) start input bytes
    have hrest := run_arrive (E := E) (P := P) s [] bytes
    rw [List.nil_append] at hrest
    unfold Machine.Passes at h ⊢
    rw [hall, hrest, h, List.append_assoc]
  have hnext := next_of_le (E := E) (P := P) hw (Nat.le_of_eq hbytes.symm) false
  rw [← hbytes, List.take_length, List.drop_length] at hnext
  exact harrive.trans (.of_next hnext)

/-- A callback without an error hands at most one packet to the IO thread. -/
theorem handled_complete {s : Session} {w : Wait} (hw : s.pending = some w)
    (bytes frame : List CChar) :
    handled (s.complete E P false bytes).2 =
      (Client.ioOf (s.complete E P false bytes).2 frame).inHand.toList.map some := by
  have hcompletion := Session.completion_complete (E := E) (P := P) hw false bytes
  generalize s.complete E P false bytes = c at hcompletion
  cases hcompletion with
  | failed he => cases he
  | negative | length | oversized => rfl
  | @parsed n r => cases hr : r.1 <;> simp [handled, Client.ioOf, IoPc.inHand]

/-- What the IO thread has in hand is unanswered if it is a response. -/
theorem unanswered_ioOf (es : List Event) (frame : List CChar) :
    (Client.ioOf es frame).unanswered.toList =
      (Client.ioOf es frame).inHand.toList.filter fun pkg ↦ isResponse pkg.cmdType := by
  unfold Client.ioOf
  split
  · next pkg _ => cases h : isResponse pkg.cmdType <;> simp [IoPc.unanswered, IoPc.inHand, h]
  · rfl

end

namespace Client

variable {M : Miscast} {E : Platform} {P : Protobuf} {s s' : Client}
  {t : List (Transition ClientAction Client)}

theorem io_of_ready (h : s.ready = true) : s.io = .idle := by
  simp only [ready, Bool.and_eq_true, decide_eq_true_eq] at h
  exact h.1

/-- A read completes. -/
theorem inOrder_recv {c : Connection} {bytes frame : List CChar} {w : Wait}
    (hc : c.InOrder E P s.session .idle) (hw : s.session.pending = some w)
    (hbytes : bytes.length = w.size) :
    Connection.InOrder E P { c with bytes := c.bytes ++ bytes }
      (s.session.complete E P false bytes).1
      (ioOf (s.session.complete E P false bytes).2 frame) := by
  obtain ⟨⟨σ, es, hsession, hloop, hhandled⟩, hanswered⟩ := hc
  obtain rfl : s.session = σ := by
    rcases hsession with h | h
    · exact h
    · rw [h] at hw
      cases hw
  refine ⟨⟨_, _, .inl rfl, passes_recv hloop hw hbytes, ?_⟩, ?_⟩
  · have happend : handled (es ++ (s.session.complete E P false bytes).2) =
        handled es ++ handled (s.session.complete E P false bytes).2 := List.filterMap_append
    rw [happend, hhandled, handled_complete hw bytes frame]
    simp [IoPc.inHand]
  · have hprev : c.answered = c.begun.filter fun pkg ↦ isResponse pkg.cmdType := by
      simpa [IoPc.inHand, IoPc.unanswered] using hanswered
    rw [List.filter_append, ← hprev, unanswered_ioOf]

/-- A read fails. -/
theorem inOrder_failed {c : Connection} (hc : c.InOrder E P s.session .idle) :
    c.InOrder E P { s.session with pending := none } .idle := by
  obtain ⟨⟨σ, es, hsession, hloop, hhandled⟩, hanswered⟩ := hc
  refine ⟨⟨σ, es, .inr ?_, hloop, hhandled⟩, hanswered⟩
  rcases hsession with h | h <;> rw [h]

/-- **Step lemma.** -/
theorem inOrder_step {x : Transition ClientAction Client}
    (ih : ∀ c, sinceConnect t = some c → c.InOrder E P x.pre.session x.pre.io)
    (h : (client M E P).step x.action x.pre = some x.post) :
    ∀ c, sinceConnect (x :: t) = some c → c.InOrder E P x.post.session x.post.io := by
  obtain ⟨s, a, s'⟩ := x
  simp only at ih h ⊢
  cases Step.of_step h with
  | connect hready hk =>
      intro c hc
      cases hc
      rw [io_of_ready hready]
      exact ⟨⟨_, [], .inl rfl, .refl _, rfl⟩, rfl⟩
  | @recv e bytes _ w hready hw hbytes =>
      rw [io_of_ready hready] at ih
      cases e with
      | true =>
          intro c hc
          rw [Session.complete_true hw]
          exact inOrder_failed (ih c hc)
      | false =>
          intro c hc
          obtain ⟨c, hbefore, rfl⟩ := Option.map_eq_some_iff.mp hc
          exact inOrder_recv (ih c hbefore) hw (by simpa using hbytes)
  | @ignore _ pkg frame hio hcmd =>
      intro c hc
      obtain ⟨c, hbefore, rfl⟩ := Option.map_eq_some_iff.mp hc
      have hprev := ih c hbefore
      rw [hio] at hprev ⊢
      refine ⟨?_, ?_⟩
      · simpa [Connection.handle, IoPc.inHand] using hprev.loop
      · simpa [Connection.handle, IoPc.inHand, IoPc.unanswered, hcmd] using hprev.answered
  | @respond _ pkg frame hio hcmd =>
      intro c hc
      obtain ⟨c, hbefore, rfl⟩ := Option.map_eq_some_iff.mp hc
      have hprev := ih c hbefore
      rw [hio] at hprev ⊢
      refine ⟨?_, ?_⟩
      · simpa [Connection.handle, IoPc.inHand] using hprev.loop
      · simpa [Connection.handle, IoPc.inHand, IoPc.unanswered, hcmd] using hprev.answered
  | @dispatch _ pkg frame registry hio hreg =>
      intro c hc
      obtain ⟨c, hbefore, rfl⟩ := Option.map_eq_some_iff.mp hc
      have hprev := ih c hbefore
      rw [hio] at hprev ⊢
      refine ⟨?_, ?_⟩
      · dsimp only
        split <;> simpa [Connection.handle, IoPc.inHand] using hprev.loop
      · dsimp only
        split <;>
          simpa [Connection.handle, IoPc.inHand, IoPc.unanswered] using hprev.answered
  | fulfil hio hreg =>
      intro c hc
      obtain ⟨c, hbefore, rfl⟩ := Option.map_eq_some_iff.mp hc
      have hprev := ih c hbefore
      rw [hio] at hprev ⊢
      exact ⟨hprev.loop, hprev.answered⟩
  | request ha => cases a <;> first | exact ih | cases ha
  | _ => exact ih

/-- **Run lemma.** -/
theorem inOrder_of_run (hrun : (client M E P).Run t s) {c : Connection}
    (hc : sinceConnect t = some c) : c.InOrder E P s.session s.io := by
  induction hrun generalizing c with
  | init => cases hc
  | step hrun hstep ih => exact inOrder_step (fun c hc ↦ ih hc) hstep c hc

end Client

namespace Connection.InOrder

variable {E : Platform} {P : Protobuf} {c : Connection} {session : Session} {io : IoPc}

/-- The sequential loop delivers what was handled and what is in hand, and maybe more. -/
theorem handled_first (h : c.InOrder E P session io) : (c.begun ++ io.inHand.toList).map some <+:
    handled ((readLoop E P).run ⟨c.start, c.bytes, false⟩).2 := by
  obtain ⟨σ, es, -, hloop, hhandled⟩ := h.loop
  rw [Machine.Passes] at hloop
  rw [hloop, ← hhandled]
  exact ⟨_, List.filterMap_append.symm⟩

/-- Nothing more while a read is outstanding. -/
theorem handled_eq (h : c.InOrder E P session io) {w : Wait} (hw : session.pending = some w)
    (hsize : 0 < w.size) : (c.begun ++ io.inHand.toList).map some =
      handled ((readLoop E P).run ⟨c.start, c.bytes, false⟩).2 := by
  obtain ⟨σ, es, hsession, hloop, hhandled⟩ := h.loop
  obtain rfl : session = σ := by
    rcases hsession with h | h
    · exact h
    · rw [h] at hw
      cases hw
  rw [Machine.Passes, run_of_lt hw (by simpa using hsize)] at hloop
  rw [hloop, ← hhandled]
  simp

end Connection.InOrder

namespace Client

variable {M : Miscast} {E : Platform} {P : Protobuf} {s : Client}
  {t : List (Transition ClientAction Client)}

/-- What the IO thread has done on a connection, in terms of the sequential read loop. -/
structure Sequential (E : Platform) (P : Protobuf) (c : Connection) (s : Client) : Prop where
  /-- The packets handled, with the one in hand, are the first that the loop delivers. -/
  first : (c.begun ++ s.io.inHand.toList).map some <+:
    handled ((readLoop E P).run ⟨c.start, c.bytes, false⟩).2
  /-- While a read is outstanding, they are all of them. -/
  all : ∀ w, s.session.pending = some w → 0 < w.size → (c.begun ++ s.io.inHand.toList).map some =
    handled ((readLoop E P).run ⟨c.start, c.bytes, false⟩).2
  /-- The responses among them were looked up, but for the one in hand. -/
  answered : c.answered ++ s.io.unanswered.toList =
    (c.begun ++ s.io.inHand.toList).filter fun pkg ↦ isResponse pkg.cmdType

/-- **The IO thread reads in order.** -/
theorem sequential_of_run (hrun : (client M E P).Run t s) {c : Connection}
    (hc : sinceConnect t = some c) : Sequential E P c s :=
  have hc := inOrder_of_run hrun hc
  ⟨hc.handled_first, fun _ ↦ hc.handled_eq, hc.answered⟩

/-- A handshake, of which the answer is read. -/
theorem sequential_handshake : ∃ t s c, (client zeroed .gcc proto2).Run t s ∧
    sinceConnect t = some c ∧ c.answered.map (·.cmdType) = [Protocol.CMD_CONN_AUTH] ∧
      Sequential .gcc proto2 c s := by
  have htrace : ((client zeroed .gcc proto2).trace (handshakeRun trueAck) []
      (.new ⟨0, 0, 0, 0⟩)).map (fun r ↦ (sinceConnect r.1).map (·.answered.map (·.cmdType))) =
      some (some [Protocol.CMD_CONN_AUTH]) := by decide +kernel
  obtain ⟨⟨t, s⟩, ht, heq⟩ := Option.map_eq_some_iff.mp htrace
  obtain ⟨c, hc, hcmd⟩ := Option.map_eq_some_iff.mp heq
  have hrun : (client zeroed .gcc proto2).Run t s := .of_trace (.init ⟨_, rfl⟩) ht
  exact ⟨t, s, c, hrun, hc, hcmd, sequential_of_run hrun hc⟩

end Client

end Kiteq

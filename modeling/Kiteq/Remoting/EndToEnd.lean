import Kiteq.Remoting.InOrder
import Kiteq.Remoting.StreamRoundTrip

/-!
# From one end to the other

What a peer has encoded with `toByteBuf` arrives at a client in portions, while the client's other
threads move and the handlers of its IO thread are interrupted.  `delivered_of_run` puts the pieces
together: as long as the bytes received on a connection begin the encodings of a sequence of
packets that `parseFrom` decodes (`Outgoing`), each of a length that the session reads as written,
the IO thread handles these very packets, their messages included, from the first one on, in their
order and once each.
-/

namespace Kiteq

open Lib System

section

variable {E : Platform} {P : Protobuf} {s : Session}

/-- The read loop delivers the packets of a stream. -/
theorem handled_outgoing {ps : List (Outgoing P)} {outs : List (List CChar)}
    (hy : List.Forall₂ (fun p bs ↦ KitePacket.Yields E P p.packet bs) ps outs)
    (hps : ∀ p ∈ ps, p.declared % 256 < 128)
    (hp : s.pending = some .pkglen) (hbuf : s.readBuffer = []) :
    handled ((readLoop E P).run ⟨s, outs.flatten, false⟩).2 =
      (ps.map (·.received s.readPkg.buff)).map some := by
  induction hy generalizing s with
  | nil =>
      rw [List.flatten_nil, run_nil hp]
      rfl
  | @cons p bs ps outs hbs _ ih =>
      obtain ⟨h, hps⟩ := List.forall_mem_cons.mp hps
      obtain ⟨s', hp', hbuf', hbuff', -, hhand⟩ :=
        run_outgoing (E := E) p h hp hbuf outs.flatten
      have hbytes : bs = (p.rawFrame h).bytes := p.bytes_eq hbs
      rw [List.flatten_cons, hbytes, hhand, ih hps hp' hbuf', hbuff', List.map_cons,
        List.map_cons]

/-- What the loop delivers on the beginning of a stream, it delivers on all of it first. -/
theorem handled_mono {input all : List CChar} (h : input <+: all) :
    handled ((readLoop E P).run ⟨s, input, false⟩).2 <+:
      handled ((readLoop E P).run ⟨s, all, false⟩).2 := by
  obtain ⟨more, rfl⟩ := h
  rw [run_arrive s input more]
  exact ⟨_, List.filterMap_append.symm⟩

end

namespace Client

variable {M : Miscast} {E : Platform} {P : Protobuf} {s : Client}
  {t : List (Transition ClientAction Client)}

/-- A connection starts with the length of a packet. -/
theorem pending_start (hrun : (client M E P).Run t s) {c : Connection}
    (hc : sinceConnect t = some c) : c.start.pending = some .pkglen := by
  induction hrun generalizing c with
  | init => cases hc
  | @step t a s s' hrun hstep ih =>
      have hio {io : IoPc} (hc : (sinceConnect t).map (·.handle io) = some c) :
          c.start.pending = some .pkglen := by
        obtain ⟨c', hbefore, rfl⟩ := Option.map_eq_some_iff.mp hc
        have hpending : c'.start.pending = some .pkglen := ih hbefore
        cases io <;> exact hpending
      cases Step.of_step hstep with
      | connect => cases hc; rfl
      | @recv e =>
          cases e with
          | true => exact ih hc
          | false =>
              obtain ⟨c', hbefore, rfl⟩ := Option.map_eq_some_iff.mp hc
              have hpending : c'.start.pending = some .pkglen := ih hbefore
              exact hpending
      | ignore | respond | dispatch | fulfil => exact hio hc
      | request ha => cases a <;> first | exact ih hc | cases ha
      | _ => exact ih hc

/-- **From one end to the other.** -/
theorem delivered_of_run (hrun : (client M E P).Run t s) {c : Connection}
    (hc : sinceConnect t = some c) (hstart : c.start.readBuffer = []) {ps : List (Outgoing P)}
    {outs : List (List CChar)}
    (hy : List.Forall₂ (fun p bs ↦ KitePacket.Yields E P p.packet bs) ps outs)
    (hps : ∀ p ∈ ps, p.declared % 256 < 128) (hbytes : c.bytes <+: outs.flatten) :
    c.begun ++ s.io.inHand.toList <+: ps.map (·.received c.start.readPkg.buff) ∧
      (c.bytes = outs.flatten → s.session.pending = some .pkglen →
        c.begun ++ s.io.inHand.toList = ps.map (·.received c.start.readPkg.buff)) := by
  have horder := inOrder_of_run hrun hc
  have hall := handled_outgoing hy hps (pending_start hrun hc) hstart
  constructor
  · have hprefix := horder.handled_first.trans (handled_mono hbytes)
    rw [hall] at hprefix
    exact (List.prefix_map_iff_of_injective (Option.some_injective _)).mp hprefix
  · intro heq hpending
    have hhandled := horder.handled_eq hpending (by decide)
    rw [heq, hall] at hhandled
    exact List.map_injective_iff.mpr (Option.some_injective _) hhandled

/-- The answer of a handshake. -/
theorem delivered_handshake : ∃ t s c, (client zeroed .gcc proto2).Run t s ∧
    sinceConnect t = some c ∧ c.begun ++ s.io.inHand.toList =
      [(connAuthAckOf 0 (by decide)).received c.start.readPkg.buff] := by
  have htrace : ((client zeroed .gcc proto2).trace (handshakeRun trueAck) []
      (.new ⟨0, 0, 0, 0⟩)).map (fun r ↦ (r.2.session.pending,
        (sinceConnect r.1).map fun c ↦ (c.bytes, c.start.readBuffer))) =
      some (some .pkglen, some ((connAuthAckOf 0 (by decide)).packet.frame
        (proto2.serialize (connAuthAckOf 0 (by decide)).message), [])) := by decide +kernel
  obtain ⟨⟨t, s⟩, ht, heq⟩ := Option.map_eq_some_iff.mp htrace
  obtain ⟨hpending, heq⟩ := Prod.mk.inj heq
  obtain ⟨c, hc, heq⟩ := Option.map_eq_some_iff.mp heq
  obtain ⟨hbytes, hstart⟩ := Prod.mk.inj heq
  have hrun : (client zeroed .gcc proto2).Run t s := .of_trace (.init ⟨_, rfl⟩) ht
  have hflatten := hbytes.trans (List.append_nil _).symm
  exact ⟨t, s, c, hrun, hc, (delivered_of_run hrun hc hstart
    (.cons (connAuthAckOf 0 (by decide)).yields_frame .nil) (by decide)
    ⟨[], (List.append_nil _).trans hflatten⟩).2 hflatten hpending⟩

end Client

end Kiteq

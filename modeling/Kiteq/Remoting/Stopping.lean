import Kiteq.Remoting.StatusMachine

/-!
# After `close`

The retry loops of `start` and `reconnect` give up when the status is `STOP`, and the
compare-and-sets let nobody in from it; but `close` closes the socket, stops the IO service and
the heartbeat thread, and leaves the status as it is.
-/

namespace Kiteq

open Lib

namespace Client

variable {M : Miscast} {E : Platform} {P : Protobuf} {a : ClientAction} {s s' : Client}

/-- `op` passes its guard when it is called next. -/
def LetsIn (s : Client) (op : Operation) : Prop :=
  (s.invoke op).calls = s.calls ++ [⟨op, .retry 0, none⟩]

theorem letsIn_start : s.LetsIn .start ↔ s.status = .NONE := by
  by_cases h : s.status = .NONE <;> simp [LetsIn, invoke, h]

theorem letsIn_reconnect : s.LetsIn .reconnect ↔ s.status = .RUNNING := by
  by_cases h : s.status = .RUNNING <;> simp [LetsIn, invoke, h]

/-- Once `close` has returned, the status is `STOP` and neither `start` nor `reconnect` is let
in. -/
def StopFinal (s : Client) : Prop :=
  s.interrupted = true → s.status = .STOP ∧ ¬s.LetsIn .start ∧ ¬s.LetsIn .reconnect

/-- Only `close` interrupts the heartbeat thread. -/
theorem interrupted_step (h : (client M E P).step a s = some s') (ha : a ≠ .close) :
    s'.interrupted = s.interrupted := by
  cases Step.of_step h with
  | close => exact absurd rfl ha
  | _ => rfl

/-- **Stopping is final** in every state of a run just when `close` is not called in it: in no
state after a `close` is the status `STOP`. -/
theorem stopFinal_iff_of_run {t : List (System.Transition ClientAction Client)}
    (hrun : (client M E P).Run t s) :
    (∀ u ∈ System.visited t s, u.StopFinal) ↔ ∀ x ∈ t, x.action ≠ .close := by
  refine hrun.invariant_iff (I := StopFinal) (fun a _ ↦ a ≠ .close) ?_ ?_
  · rintro s ⟨header, rfl⟩ hint
    cases hint
  · intro a s s' hreach hs h
    have hopen : s.interrupted = false := by
      rw [← Bool.not_eq_true]
      exact fun hint ↦ status_ne_stop hreach (hs hint).1
    constructor
    · rintro hs' rfl
      cases h
      exact status_ne_stop hreach (hs' rfl).1
    · intro ha hint
      rw [interrupted_step h ha, hopen] at hint
      cases hint

/-- A run in which `close` is not called. -/
theorem stopFinal_trueAck : ∃ t s, (client zeroed .gcc proto2).Run t s ∧ s.status = .RUNNING ∧
    ∀ u ∈ System.visited t s, u.StopFinal := by
  have htrace : ((client zeroed .gcc proto2).trace (handshakeRun trueAck) []
      (.new ⟨0, 0, 0, 0⟩)).map
      (fun r ↦ (r.2.status, r.1.all fun x ↦ match x.action with | .close => false | _ => true)) =
      some (.RUNNING, true) := by decide +kernel
  obtain ⟨t, s, hrun, hstatus, hok⟩ :=
    System.Run.exists_of_trace (S := client zeroed .gcc proto2) status
      (fun a _ ↦ match a with | .close => false | _ => true) htrace ⟨_, rfl⟩
  refine ⟨t, s, hrun, hstatus, (stopFinal_iff_of_run hrun).mpr fun x hx hclose ↦ ?_⟩
  have hopen := hok x hx
  rw [hclose] at hopen
  cases hopen

/-- A client that was closed at once is started all the same, and posts an attempt. -/
theorem not_stopFinal_start : ∃ s, (client zeroed .gcc proto2).Reachable s ∧
    s.interrupted = true ∧ s.status = .PREPARE ∧ s.attempts = [.posted] ∧ ¬s.StopFinal := by
  have hrun : ((client zeroed .gcc proto2).exec [.close, .invoke .start, .call 0]
      (.new ⟨0, 0, 0, 0⟩)).map (fun s ↦ (s.interrupted, s.status, s.attempts)) =
      some (true, .PREPARE, [.posted]) := by decide +kernel
  obtain ⟨s, hreach, heq⟩ := System.exists_reachable hrun ⟨_, rfl⟩
  simp only [Prod.mk.injEq] at heq
  obtain ⟨hint, hstatus, hattempts⟩ := heq
  refine ⟨s, hreach, hint, hstatus, hattempts, fun h ↦ ?_⟩
  have hstop := (h hint).1
  rw [hstatus] at hstop
  cases hstop

end Client

end Kiteq

import Kiteq.Remoting.Stopping

/-!
# Failing and trying again

A `start` or `reconnect` that fails returns false with the status its guard stored, or with what
the attempts and handshakes of other threads have stored since.  It does not restore the status
it was let in from.

`letsIn_iff_of_fails` says what becomes of the next call of the same operation, in the state the
failed one leaves behind and in any later one.  After a failed `start` nobody is let in again.
After a failed `reconnect` somebody is just when a handshake of another thread has stored
`RUNNING` and nothing has replaced it.
-/

namespace Kiteq

open Lib

namespace Control

/-- A step in which `op`, having been let in, returns false: no attempt has connected within its
retries, or the handshake of a `reconnect` was refused or timed out. -/
inductive Fails (a : ClientAction) (s s' : Control) : Operation → Prop
  | unconnected {j n : ℕ} {c : Invocation} : a = .call j → s.calls[j]? = some c →
      c.pc = .tested n → c.op ≠ .handshake → s'.calls[j]?.map (·.pc) = some (.done false) →
      Fails a s s' c.op
  | refused {j : ℕ} {c : Invocation} : a = .call j → s.calls[j]? = some c →
      c.pc = .awaiting → c.op = .reconnect → s'.calls[j]?.map (·.pc) = some (.done false) →
      Fails a s s' .reconnect

/-- A handshake has succeeded and stores `RUNNING`. -/
def restores : ClientAction → Control → Bool
  | .call j, s => s.calls[j]?.any fun c ↦ c.Storing
  | _, _ => false

/-- `RUNNING` is replaced: an attempt connects, or a `reconnect` is let in. -/
def overwrites : ClientAction → Control → Bool
  | .connect _ false, _ => true
  | .invoke .reconnect, s => s.status = .RUNNING
  | _, _ => false

/-- Of the steps of a run, the last that has to do with `RUNNING` has stored it. -/
def restored : List (System.Transition ClientAction Client) → Bool
  | [] => false
  | x :: t => restores x.action x.pre.control ||
      !overwrites x.action x.pre.control && restored t

variable {a : ClientAction} {s s' : Control}

/-- **Step lemma.** A client is `RUNNING` after a step that stores it, or was and remained. -/
theorem Step.running_iff (h : Step a s s') : s'.status = .RUNNING ↔
    restores a s = true ∨ overwrites a s = false ∧ s.status = .RUNNING := by
  have hcall {j : ℕ} {c : Invocation} (hc : s.calls[j]? = some c) (hpc : ¬c.Storing) :
      restores (.call j) s = false := by simp [restores, hc, hpc]
  cases h with
  | plain ha =>
      cases a with
      | invoke | call | connect => exact absurd ha (by simp [ClientAction.Plain])
      | _ => simp [restores, overwrites]
  | @enter op _ hop =>
      cases op with
      | start =>
          have hnone : s.status = .NONE := (Option.some.inj hop).symm
          simp [Operation.entered, restores, hnone]
      | reconnect =>
          have hrun : s.status = .RUNNING := (Option.some.inj hop).symm
          simp [Operation.entered, restores, overwrites, hrun]
      | handshake => cases hop
  | @refuse op _ hop hne =>
      cases op with
      | start => simp [restores, overwrites]
      | reconnect =>
          have hrun : s.status ≠ .RUNNING := fun h ↦ hne (congrArg some h.symm)
          simp [restores, hrun]
      | handshake => exact absurd rfl hop
  | handshake | request => simp [restores, overwrites]
  | post hc hpc => simp [hcall hc (by simp [Invocation.Storing, hpc]), overwrites]
  | move hc hpc => simp [hcall hc hpc.not_storing, overwrites]
  | store hc hpc => simp [restores, hc, hpc]
  | attempt ha => rcases ha with ⟨err, rfl⟩ | rfl <;> simp [restores, overwrites]
  | connect => simp [restores, overwrites]

end Control

namespace Client

variable {M : Miscast} {E : Platform} {P : Protobuf} {s : Client}
  {t : List (System.Transition ClientAction Client)}

theorem running_iff_restored (hrun : (client M E P).Run t s) :
    s.status = .RUNNING ↔ Control.restored t = true := by
  induction hrun with
  | init h0 =>
      obtain ⟨header, rfl⟩ := h0
      simp [new, Control.restored]
  | @step t a s s' hrun hstep ih =>
      have hstatus : s'.status = .RUNNING ↔ Control.restores a s.control = true ∨
          Control.overwrites a s.control = false ∧ s.status = .RUNNING :=
        (control_step hstep).running_iff
      rw [hstatus, ih, Control.restored]
      simp only [Bool.or_eq_true, Bool.and_eq_true, Bool.not_eq_true']

/-- Nothing leads back to `NONE`. -/
theorem none_of_run (hrun : (client M E P).Run t s) (hs : s.status = .NONE) :
    ∀ x ∈ t, x.pre.status = .NONE := by
  induction hrun with
  | init => simp
  | @step t a s s' hrun hstep ih =>
      have hpre : s.status = .NONE := (control_step hstep).of_none hs
      exact List.forall_mem_cons.mpr ⟨hpre, ih hpre⟩

/-- **A failed operation can be retried**, in the state it leaves behind and in any later one,
just when it is a `reconnect` and, since a handshake last stored `RUNNING`, no attempt has
connected and no `reconnect` was let in. -/
theorem letsIn_iff_of_fails (hrun : (client M E P).Run t s)
    {x : System.Transition ClientAction Client} (hx : x ∈ t) {op : Operation}
    (hfail : Control.Fails x.action x.pre.control x.post.control op) :
    s.LetsIn op ↔ op = .reconnect ∧ Control.restored t = true := by
  have hreconnect : s.LetsIn .reconnect ↔
      Operation.reconnect = .reconnect ∧ Control.restored t = true := by
    rw [letsIn_reconnect, running_iff_restored hrun]
    simp
  cases hfail with
  | @unconnected j n c _ hc hpc hop =>
      cases hcop : c.op with
      | start =>
          -- the call was in its retry loop, so that the status had left `NONE` for good
          rw [letsIn_start]
          refine iff_of_false (fun hnone ↦ ?_) (by simp)
          have hidle := idle_of_none (hrun.step_of_mem hx).1 (none_of_run hrun hnone x hx)
          exact hidle.calls c (List.mem_of_getElem? hc) (by simp [hpc, InvocationPc.Looping])
      | reconnect => exact hreconnect
      | handshake => exact absurd hcop hop
  | refused => exact hreconnect

/-- The client was not closed, every call has returned and every attempt has completed. -/
structure Settled (s : Client) : Prop where
  calls : ∀ c ∈ s.calls, ∃ b, c.pc = .done b
  attempts : ∀ x ∈ s.attempts, x = .finished
  isOpen : s.interrupted = false

/-- A `reconnect` whose handshake times out while the handshake of another thread is answered. -/
def helpedRun : List ClientAction :=
  handshakeRun trueAck ++ [.invoke .reconnect, .call 2, .resolve 1 false, .connect 1 false, .call 2,
    .call 2, .invoke .handshake, .sendConn 2 8, .used 1, .write 1, .sendConn 3 9, .used 2, .write 2,
    .recv false (BigEndian.bytes 4 (19 + trueAck.length : CInt)),
    .recv false (connAuthFrame 9 trueAck), .io, .io, .io, .test 2, .call 3, .call 3,
    .test 1, .erase 1]

/-- After that `reconnect` another one is let in. -/
theorem letsIn_helped : ∃ t s, (client zeroed .gcc proto2).Run t s ∧ s.LetsIn .reconnect ∧
    ∃ x ∈ t, Control.Fails x.action x.pre.control x.post.control .reconnect := by
  have hrun : ((client zeroed .gcc proto2).trace helpedRun [] (.new ⟨0, 0, 0, 0⟩)).bind
      (fun r ↦ ((client zeroed .gcc proto2).step (.call 2) r.2).map fun s ↦
        (r.2.calls[2]?, s.calls[2]?.map (·.pc),
          Control.restored (⟨r.2, .call 2, s⟩ :: r.1))) =
      some (some ⟨.reconnect, .awaiting, some 1⟩, some (.done false), true) := by decide +kernel
  obtain ⟨⟨t, s⟩, htrace, hlast⟩ := Option.bind_eq_some_iff.mp hrun
  obtain ⟨s', hs', heq⟩ := Option.map_eq_some_iff.mp hlast
  simp only [Prod.mk.injEq] at heq
  obtain ⟨hc, hpc, hrestored⟩ := heq
  have hrun : (client zeroed .gcc proto2).Run t s := .of_trace (.init ⟨_, rfl⟩) htrace
  have hrun' : (client zeroed .gcc proto2).Run (⟨s, .call 2, s'⟩ :: t) s' := .step hrun hs'
  have hfail : Control.Fails (.call 2) s.control s'.control .reconnect :=
    .refused rfl hc rfl rfl hpc
  exact ⟨_, s', hrun', (letsIn_iff_of_fails hrun' List.mem_cons_self hfail).mpr ⟨rfl, hrestored⟩,
    _, List.mem_cons_self, hfail⟩

/-- A `start` all of whose attempts fail, up to its last step. -/
def unreachableRun : List ClientAction :=
  .invoke .start :: (List.range 10).flatMap fun k ↦
    [.call 0, .resolve k true, .call 0] ++ if k < 9 then [.call 0] else []

/-- A client that has found no server cannot be started again. -/
theorem not_letsIn_unreachable : ∃ t s, (client zeroed .gcc proto2).Run t s ∧ s.Settled ∧
    (∃ x ∈ t, Control.Fails x.action x.pre.control x.post.control .start) ∧
      ¬s.LetsIn .start := by
  have hexec : ((client zeroed .gcc proto2).exec unreachableRun (.new ⟨0, 0, 0, 0⟩)).bind
      (fun s ↦ ((client zeroed .gcc proto2).step (.call 0) s).map fun s' ↦
        (s.calls[0]?, s'.status, s'.calls, s'.attempts, s'.interrupted)) =
      some (some ⟨.start, .tested 10, none⟩, .PREPARE, [⟨.start, .done false, none⟩],
        List.replicate 10 .finished, false) := by decide +kernel
  obtain ⟨t, s, s', hrun, hstep, heq⟩ := System.Run.exists_of_exec hexec ⟨_, rfl⟩
  simp only [Prod.mk.injEq] at heq
  obtain ⟨hc, hstatus, hcalls, hattempts, hopen⟩ := heq
  have hpost : s'.calls[0]?.map (·.pc) = some (.done false) := by rw [hcalls]; rfl
  refine ⟨_, s', .step hrun hstep, ⟨?_, ?_, hopen⟩, ⟨_, List.mem_cons_self, ?_⟩, ?_⟩
  · rw [hcalls]
    exact fun c hcall ↦ ⟨false, by rw [List.mem_singleton.mp hcall]⟩
  · rw [hattempts]
    exact fun x hx ↦ List.eq_of_mem_replicate hx
  · exact .unconnected (c := ⟨.start, .tested 10, none⟩) rfl hc rfl (by simp) hpost
  · rw [letsIn_start, hstatus]
    exact STATE.noConfusion

end Client

end Kiteq

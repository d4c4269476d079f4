import Kiteq.Lib.Table
import Kiteq.Remoting.Steps

/-!
# The control of a client

The status, the attempts to connect and the calls of `start`, `reconnect` and `handshake`, with
everything else forgotten.  `Control.Step` lists what a step of a client does to them; the rules
that store a status are `enter`, `connect` and `store`, and none of them but `enter` looks at the
status it replaces.

Two facts about every run follow from these rules: nothing ever stores `STOP`, and nothing stores
`NONE`, so that a client on which `start` was never let in has no attempt and no retry loop.
-/

namespace Kiteq

open Lib

/-- The steps that touch neither the status nor the attempts nor a call. -/
def ClientAction.Plain : ClientAction → Prop
  | .invoke _ | .call _ | .sendConn _ _ | .resolve _ _ | .connect _ _ => False
  | _ => True

/-- What decides about the status. -/
structure Control where
  status : STATE
  attempts : List Attempt
  calls : List Invocation

/-- The control of a client. -/
def Client.control (s : Client) : Control where
  status := s.status
  attempts := s.attempts
  calls := s.calls

namespace Control

/-- The steps of a call that leave the status alone. -/
inductive Moves (status : STATE) (c : Invocation) : InvocationPc → Prop
  | connected {n : ℕ} : c.pc = .slept n → status = .RECOVERING → Moves status c .recovered
  | unconnected {n : ℕ} : c.pc = .slept n → status ≠ .RECOVERING → Moves status c (.tested n)
  | exhausted {n : ℕ} : c.pc = .tested n → 10 ≤ n ∨ status = .STOP → Moves status c (.done false)
  | again {n : ℕ} : c.pc = .tested n → n < 10 → status ≠ .STOP → Moves status c (.retry n)
  | started : c.pc = .recovered → c.op = .start → Moves status c (.done true)
  | handshake : c.pc = .recovered → c.op ≠ .start → Moves status c .connecting
  | accepted : c.pc = .awaiting → Moves status c .authenticated
  | refused : c.pc = .awaiting → Moves status c (.done false)

/-- What a step of a client does to its control. -/
inductive Step : ClientAction → Control → Control → Prop
  | plain {a : ClientAction} {s : Control} (ha : a.Plain) : Step a s s
  /-- `start` or `reconnect` passes its guard. -/
  | enter {op : Operation} {s : Control} (hs : op.guard = some s.status) :
      Step (.invoke op) s
        { s with status := op.entered, calls := s.calls ++ [⟨op, .retry 0, none⟩] }
  /-- `start` or `reconnect` does not. -/
  | refuse {op : Operation} {s : Control} (hop : op ≠ .handshake) (hs : op.guard ≠ some s.status) :
      Step (.invoke op) s { s with calls := s.calls ++ [⟨op, .done false, none⟩] }
  | handshake {s : Control} :
      Step (.invoke .handshake) s { s with calls := s.calls ++ [⟨.handshake, .connecting, none⟩] }
  /-- `reconnect0` posts an attempt. -/
  | post {j n : ℕ} {s : Control} {c : Invocation} (hc : s.calls[j]? = some c)
      (hpc : c.pc = .retry n) :
      Step (.call j) s { s with
        attempts := s.attempts ++ [.posted]
        calls := s.calls.set j { c with pc := .slept (n + 1) } }
  | move {j : ℕ} {s : Control} {c : Invocation} {pc : InvocationPc} (hc : s.calls[j]? = some c)
      (hpc : Moves s.status c pc) :
      Step (.call j) s { s with calls := s.calls.set j { c with pc } }
  | request {j : ℕ} {id : CInt} {i : ℕ} {s : Control} {c : Invocation}
      (hc : s.calls[j]? = some c) (hpc : c.pc = .connecting) :
      Step (.sendConn j id) s { s with
        calls := s.calls.set j { c with pc := .awaiting, request := some i } }
  /-- A call stores `RUNNING`: `handshake` first, and `reconnect` once more. -/
  | store {j : ℕ} {s : Control} {c : Invocation} (hc : s.calls[j]? = some c)
      (hpc : c.Storing) :
      Step (.call j) s { s with
        status := .RUNNING
        calls := s.calls.set j { c with
          pc := if c.pc = .authenticated ∧ c.op = .reconnect then .restoring else .done true } }
  /-- An attempt is resolved, or fails. -/
  | attempt {a : ClientAction} {k : ℕ} {x : Attempt} {s : Control}
      (ha : (∃ err, a = .resolve k err) ∨ a = .connect k true) :
      Step a s { s with attempts := s.attempts.set k x }
  /-- An attempt connects. -/
  | connect {k : ℕ} {s : Control} (hk : s.attempts[k]? = some .resolved) :
      Step (.connect k false) s
        { s with status := .RECOVERING, attempts := s.attempts.set k .finished }

end Control

namespace Client

variable {M : Miscast} {E : Platform} {P : Protobuf} {s s' : Client}

theorem plain_of_request {a : ClientAction} {b : RegistryAction} (h : a.request = some b) :
    a.Plain := by
  cases a <;> cases h <;> trivial

/-- A step of a client does to its control what one of the rules says. -/
theorem control_step {a : ClientAction} (h : step M E P a s = some s') :
    Control.Step a s.control s'.control := by
  cases Step.of_step h with
  | enter hop => exact .enter hop
  | refuse hop hs => exact .refuse hop hs
  | handshake => exact .handshake
  | post hc hpc => exact .post hc hpc
  | connected hc hpc hstatus => exact .move hc (.connected hpc hstatus)
  | unconnected hc hpc hstatus => exact .move hc (.unconnected hpc hstatus)
  | exhausted hc hpc hend => exact .move hc (.exhausted hpc hend)
  | again hc hpc hn hstatus => exact .move hc (.again hpc hn hstatus)
  | started hc hpc hop => exact .move hc (.started hpc hop)
  | reset hc hpc hop => exact .move hc (.handshake hpc hop)
  | accept hc hpc => exact .move hc (.accepted hpc)
  | reject hc hpc => exact .move hc (.refused hpc)
  | sendConn hc hpc => exact .request hc hpc
  | store hc hpc => exact .store hc hpc
  | request ha => exact .plain (plain_of_request ha)
  | write | beat | sendHeartBeat | alive | missed | interrupt | recv | ignore | respond | dispatch
  | fulfil | close => exact .plain trivial
  | @resolve k err => exact .attempt (.inl ⟨err, rfl⟩)
  | fail => exact .attempt (.inr rfl)
  | connect _ hk => exact .connect hk

/-! ## What every run keeps -/

theorem init_control (hs : (client M E P).init s) : s.control = ⟨.NONE, [], []⟩ := by
  obtain ⟨header, rfl⟩ := hs
  rfl

end Client

/-- The call is in its retry loop, or about to leave it. -/
def InvocationPc.Looping : InvocationPc → Prop
  | .retry _ | .slept _ | .tested _ | .recovered => True
  | _ => False

namespace Control

variable {a : ClientAction} {s s' : Control}

theorem Step.status_ne_stop (h : Step a s s') (hs : s.status ≠ .STOP) : s'.status ≠ .STOP := by
  cases h with
  | @enter op => cases op <;> simp [Operation.entered]
  | store | connect => simp
  | _ => exact hs

/-- Nothing stores `NONE`. -/
theorem Step.of_none (h : Step a s s') (hs : s'.status = .NONE) : s.status = .NONE := by
  cases h with
  | @enter op => cases op <;> simp [Operation.entered] at hs
  | store | connect => simp at hs
  | _ => exact hs

/-- No attempt was posted and no call is in a retry loop. -/
structure Idle (s : Control) : Prop where
  attempts : s.attempts = []
  calls : ∀ c ∈ s.calls, ¬c.pc.Looping

theorem Idle.setCalls (hs : s.Idle) {calls : List Invocation} {c' : Invocation}
    (hcalls : Adds s.calls calls c') (hc' : ¬c'.pc.Looping) : Idle { s with calls } :=
  ⟨hs.attempts, hcalls.forall_mem hs.calls hc'⟩

theorem Idle.step (hs : s.Idle) (h : Step a s s') (hnone : s'.status = .NONE) : s'.Idle := by
  cases h with
  | plain => exact hs
  | @enter op => cases op <;> simp [Operation.entered] at hnone
  | refuse | handshake => exact hs.setCalls (adds_concat _ _) (by simp [InvocationPc.Looping])
  | post hc hpc =>
      exact absurd (by simp [hpc, InvocationPc.Looping]) (hs.calls _ (List.mem_of_getElem? hc))
  | move hc hpc =>
      refine hs.setCalls (adds_set _ _ _) ?_
      have hloop := hs.calls _ (List.mem_of_getElem? hc)
      cases hpc with
      | accepted | refused => simp [InvocationPc.Looping]
      | connected h | unconnected h | exhausted h | again h | started h | handshake h =>
          exact absurd (by simp [h, InvocationPc.Looping]) hloop
  | request hc hpc => exact hs.setCalls (adds_set _ _ _) (by simp [InvocationPc.Looping])
  | store => simp at hnone
  | attempt => exact ⟨by simp [hs.attempts], hs.calls⟩
  | connect => simp at hnone

end Control

namespace Client

variable {M : Miscast} {E : Platform} {P : Protobuf} {s : Client}

/-- Nothing stores `STOP`. -/
theorem status_ne_stop (hs : (client M E P).Reachable s) : s.status ≠ .STOP := by
  refine hs.invariant (I := fun s ↦ s.control.status ≠ .STOP) ?_ ?_
  · intro s h0
    simp [init_control h0]
  · exact fun a s s' hs _ h ↦ (control_step h).status_ne_stop hs

theorem idle_of_none (hs : (client M E P).Reachable s) (hnone : s.status = .NONE) :
    s.control.Idle := by
  refine hs.invariant (I := fun s ↦ s.status = .NONE → s.control.Idle) ?_ ?_ hnone
  · intro s h0 _
    rw [init_control h0]
    exact ⟨rfl, by simp⟩
  · intro a s s' hs _ h hnone
    have hstep := control_step h
    exact (hs (hstep.of_none hnone)).step hstep hnone

end Client

end Kiteq

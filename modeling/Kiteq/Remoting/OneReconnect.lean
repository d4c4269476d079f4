import Kiteq.Remoting.StatusMachine

/-!
# One reconnect at a time

`reconnect` lets one thread in by a compare-and-set and keeps the others out by the status it has
stored.  Whoever stores `RUNNING` opens the door again, and that happens too early in two places:
the handshake inside `reconnect` stores it before `reconnect` has returned, and a `handshake` of
another thread stores it whatever else is going on.

`exclusive_iff_of_run` says that these two are all: if nobody is let in between the two stores of
a `reconnect`, and no other handshake succeeds during one, then there is never more than one.
-/

namespace Kiteq

open Lib

/-- The call is of `reconnect`, was let in and has not returned. -/
def Invocation.Reconnecting (c : Invocation) : Prop :=
  c.op = .reconnect ∧ c.pc ≠ .done true ∧ c.pc ≠ .done false

instance (c : Invocation) : Decidable c.Reconnecting := inferInstanceAs (Decidable (_ ∧ _))

namespace Control

/-- At most one `reconnect` is under way, and as long as its handshake has not succeeded the
client is not `RUNNING`. -/
structure Exclusive (s : Control) : Prop where
  unique : ∀ (i j : ℕ) (c d : Invocation), s.calls[i]? = some c → s.calls[j]? = some d →
    c.Reconnecting → d.Reconnecting → i = j
  running : ∀ c ∈ s.calls, c.Reconnecting → c.pc ≠ .restoring → s.status ≠ .RUNNING

/-- No `reconnect` is let in while another one is about to store `RUNNING` again, and no other
handshake succeeds before the handshake of a `reconnect`. -/
def undivided : ClientAction → Control → Bool
  | .invoke .reconnect, s =>
    s.status = .RUNNING → ∀ c ∈ s.calls, c.op = .reconnect → c.pc ≠ .restoring
  | .call j, s => s.calls[j]?.all fun c ↦ c.Storing → c.op ≠ .reconnect →
      ∀ d ∈ s.calls, d.Reconnecting → d.pc = .restoring
  | _, _ => true

theorem undivided_reconnect {s : Control} : undivided (.invoke .reconnect) s = true ↔
    (s.status = .RUNNING → ∀ c ∈ s.calls, c.op = .reconnect → c.pc ≠ .restoring) :=
  decide_eq_true_iff

theorem undivided_call {s : Control} {j : ℕ} {c : Invocation} (hc : s.calls[j]? = some c) :
    undivided (.call j) s = true ↔
      (c.Storing → c.op ≠ .reconnect → ∀ d ∈ s.calls, d.Reconnecting → d.pc = .restoring) := by
  rw [undivided, hc, Option.all_some, decide_eq_true_iff]

variable {a : ClientAction} {s s' : Control}

namespace Exclusive

theorem append (hs : s.Exclusive) {c' : Invocation} (hc' : ¬c'.Reconnecting) :
    Exclusive { s with calls := s.calls ++ [c'] } := by
  have hold {i : ℕ} {c : Invocation} (hc : (s.calls ++ [c'])[i]? = some c) (hcr : c.Reconnecting) :
      s.calls[i]? = some c := by
    rcases getElem?_concat_iff.mp hc with hc | ⟨-, rfl⟩
    · exact hc
    · exact absurd hcr hc'
  constructor
  · exact fun i j c d hc hd hcr hdr ↦ hs.unique i j c d (hold hc hcr) (hold hd hdr) hcr hdr
  · intro c hc hcr
    obtain ⟨i, hi⟩ := List.mem_iff_getElem?.mp hc
    exact hs.running c (List.mem_of_getElem? (hold hi hcr)) hcr

/-- A call moves without being let in or getting past its handshake. -/
theorem set (hs : s.Exclusive) {j : ℕ} {c c' : Invocation} (hc : s.calls[j]? = some c)
    (hactive : c'.Reconnecting → c.Reconnecting ∧ c.pc ≠ .restoring) :
    Exclusive { s with calls := s.calls.set j c' } := by
  have hold {i : ℕ} {d : Invocation} (hd : (s.calls.set j c')[i]? = some d)
      (hdr : d.Reconnecting) : ∃ d₀, s.calls[i]? = some d₀ ∧ d₀.Reconnecting ∧
        (d.pc ≠ .restoring → d₀.pc ≠ .restoring) := by
    rcases (getElem?_set_iff hc).mp hd with ⟨rfl, rfl⟩ | ⟨-, hd⟩
    · exact ⟨c, hc, (hactive hdr).1, fun _ ↦ (hactive hdr).2⟩
    · exact ⟨d, hd, hdr, id⟩
  constructor
  · intro i k d e hd he hdr her
    obtain ⟨d₀, hd₀, hdr₀, -⟩ := hold hd hdr
    obtain ⟨e₀, he₀, her₀, -⟩ := hold he her
    exact hs.unique i k d₀ e₀ hd₀ he₀ hdr₀ her₀
  · intro d hd hdr hne
    obtain ⟨i, hi⟩ := List.mem_iff_getElem?.mp hd
    obtain ⟨d₀, hd₀, hdr₀, hne₀⟩ := hold hi hdr
    exact hs.running d₀ (List.mem_of_getElem? hd₀) hdr₀ (hne₀ hne)

theorem setStatus (hs : s.Exclusive) {status : STATE} {attempts : List Attempt}
    (h : status = .RUNNING → s.status = .RUNNING) : Exclusive { s with status, attempts } :=
  ⟨hs.unique, fun c hc hcr hne hrun ↦ hs.running c hc hcr hne (h hrun)⟩

/-- A `reconnect` is let in. -/
theorem enter_iff (hs : s.Exclusive) (hrun : s.status = .RUNNING) :
    Exclusive { s with
      status := .RECONNECTING, calls := s.calls ++ [⟨.reconnect, .retry 0, none⟩] } ↔
      undivided (.invoke .reconnect) s = true := by
  rw [undivided_reconnect]
  have hnew : (s.calls ++ [⟨.reconnect, .retry 0, none⟩])[s.calls.length]? =
      some ⟨.reconnect, .retry 0, none⟩ := getElem?_concat_iff.mpr (.inr ⟨rfl, rfl⟩)
  constructor
  · intro hs' _ c hc hop hpc
    obtain ⟨i, hi⟩ := List.mem_iff_getElem?.mp hc
    have hlt := (List.getElem?_eq_some_iff.mp hi).1
    have heq := hs'.unique i s.calls.length c _ (getElem?_concat_iff.mpr (.inl hi)) hnew
      ⟨hop, by simp [hpc]⟩ ⟨rfl, by simp⟩
    exact absurd heq (Nat.ne_of_lt hlt)
  · intro hok
    -- whoever is under way while the client is `RUNNING` is about to store it again
    have hnone {i : ℕ} {c : Invocation} (hc : s.calls[i]? = some c) : ¬c.Reconnecting := by
      intro hcr
      have hmem := List.mem_of_getElem? hc
      exact hs.running c hmem hcr (hok hrun c hmem hcr.1) hrun
    have hlast {i : ℕ} {c : Invocation}
        (hc : (s.calls ++ [⟨.reconnect, .retry 0, none⟩])[i]? = some c) (hcr : c.Reconnecting) :
        i = s.calls.length := by
      rcases getElem?_concat_iff.mp hc with hc | ⟨hi, -⟩
      · exact absurd hcr (hnone hc)
      · exact hi
    exact ⟨fun i j c d hc hd hcr hdr ↦ (hlast hc hcr).trans (hlast hd hdr).symm, by simp⟩

/-- A handshake succeeds. -/
theorem store_iff (hs : s.Exclusive) {j : ℕ} {c : Invocation} (hc : s.calls[j]? = some c)
    (hpc : c.Storing) {pc : InvocationPc} (hpc' : pc = .restoring ∨ pc = .done true) :
    Exclusive { s with status := .RUNNING, calls := s.calls.set j { c with pc } } ↔
      undivided (.call j) s = true := by
  rw [undivided_call hc]
  have hcases {i : ℕ} {d : Invocation} (hd : (s.calls.set j { c with pc })[i]? = some d) :
      i = j ∧ d = { c with pc } ∨ i ≠ j ∧ s.calls[i]? = some d := (getElem?_set_iff hc).mp hd
  constructor
  · intro hs' _ hop d hd hdr
    obtain ⟨i, hi⟩ := List.mem_iff_getElem?.mp hd
    have hij : i ≠ j := by
      rintro rfl
      obtain rfl := Option.some.inj (hc.symm.trans hi)
      exact hop hdr.1
    have hmem : d ∈ s.calls.set j { c with pc } :=
      List.mem_of_getElem? ((getElem?_set_iff hc).mpr (.inr ⟨hij, hi⟩))
    by_contra hne
    exact hs'.running d hmem hdr hne rfl
  · intro hok
    by_cases hop : c.op = .reconnect
    · -- the one reconnect has come this far, so that there is no other
      have hcr : c.Reconnecting := ⟨hop, by rcases hpc with h | h <;> simp [h]⟩
      have honly {i : ℕ} {d : Invocation}
          (hd : (s.calls.set j { c with pc })[i]? = some d) (hdr : d.Reconnecting) :
          i = j ∧ d = { c with pc } := by
        rcases hcases hd with h | ⟨hij, hd⟩
        · exact h
        · exact absurd (hs.unique i j d c hd hc hdr hcr) hij
      constructor
      · exact fun i k d e hd he hdr her ↦ (honly hd hdr).1.trans (honly he her).1.symm
      · intro d hd hdr hne
        obtain ⟨i, hi⟩ := List.mem_iff_getElem?.mp hd
        obtain ⟨-, rfl⟩ := honly hi hdr
        rcases hpc' with rfl | rfl
        · exact absurd rfl hne
        · exact absurd rfl hdr.2.1
    · have hold {i : ℕ} {d : Invocation}
          (hd : (s.calls.set j { c with pc })[i]? = some d) (hdr : d.Reconnecting) :
          s.calls[i]? = some d := by
        rcases hcases hd with ⟨-, rfl⟩ | ⟨-, hd⟩
        · exact absurd hdr.1 hop
        · exact hd
      constructor
      · exact fun i k d e hd he hdr her ↦ hs.unique i k d e (hold hd hdr) (hold he her) hdr her
      · intro d hd hdr hne
        obtain ⟨i, hi⟩ := List.mem_iff_getElem?.mp hd
        exact absurd (hok hpc hop d (List.mem_of_getElem? (hold hi hdr)) hdr) hne

end Exclusive

theorem Moves.not_done {status : STATE} {c : Invocation} {pc : InvocationPc}
    (h : Moves status c pc) : (c.pc ≠ .done true ∧ c.pc ≠ .done false) ∧ c.pc ≠ .restoring := by
  cases h with
  | connected h | unconnected h | exhausted h | again h | started h | handshake h | accepted h
  | refused h => simp [h]

/-- **Step lemma.** A step keeps reconnects exclusive just when it does not divide one. -/
theorem Exclusive.step_iff (hs : s.Exclusive) (h : Step a s s') :
    s'.Exclusive ↔ undivided a s = true := by
  have hcall {j : ℕ} {c : Invocation} (hc : s.calls[j]? = some c) (hpc : ¬c.Storing) :
      undivided (.call j) s = true := (undivided_call hc).mpr fun h ↦ absurd h hpc
  cases h with
  | plain ha =>
      refine iff_of_true hs ?_
      cases a with
      | invoke | call => exact absurd ha (by simp [ClientAction.Plain])
      | _ => rfl
  | @enter op _ hop =>
      cases op with
      | start =>
          refine iff_of_true ?_ rfl
          have hnew : ¬(⟨.start, .retry 0, none⟩ : Invocation).Reconnecting := by decide
          exact (hs.append hnew).setStatus (by simp [Operation.entered])
      | reconnect => exact hs.enter_iff (Option.some.inj hop).symm
      | handshake => cases hop
  | @refuse op _ hop hne =>
      refine iff_of_true (hs.append (by simp [Invocation.Reconnecting])) ?_
      cases op with
      | reconnect => exact undivided_reconnect.mpr fun h ↦ absurd (congrArg some h.symm) hne
      | start | handshake => rfl
  | handshake => exact iff_of_true (hs.append (by simp [Invocation.Reconnecting])) rfl
  | post hc hpc =>
      have hs' : Exclusive { s with attempts := s.attempts ++ [.posted] } := hs.setStatus id
      refine iff_of_true ?_ (hcall hc (by simp [Invocation.Storing, hpc]))
      exact hs'.set hc fun hcr ↦ ⟨⟨hcr.1, by simp [hpc]⟩, by simp [hpc]⟩
  | move hc hpc =>
      refine iff_of_true ?_ (hcall hc hpc.not_storing)
      exact hs.set hc fun hcr ↦ ⟨⟨hcr.1, hpc.not_done.1⟩, hpc.not_done.2⟩
  | request hc hpc =>
      refine iff_of_true ?_ rfl
      exact hs.set hc fun hcr ↦ ⟨⟨hcr.1, by simp [hpc]⟩, by simp [hpc]⟩
  | store hc hpc => exact hs.store_iff hc hpc (by split <;> simp)
  | attempt ha =>
      refine iff_of_true (hs.setStatus id) ?_
      rcases ha with ⟨err, rfl⟩ | rfl <;> rfl
  | connect => exact iff_of_true (hs.setStatus (by simp)) rfl

end Control

namespace Client

variable {M : Miscast} {E : Platform} {P : Protobuf} {s : Client}

/-- **At most one reconnect at a time** in every state of a run, just when no step of the run
divides one. -/
theorem exclusive_iff_of_run {t : List (System.Transition ClientAction Client)}
    (hrun : (client M E P).Run t s) :
    (∀ u ∈ System.visited t s, u.control.Exclusive) ↔
      ∀ x ∈ t, Control.undivided x.action x.pre.control = true := by
  refine hrun.invariant_iff (I := fun u ↦ u.control.Exclusive)
    (fun a s ↦ Control.undivided a s.control = true) ?_ ?_
  · intro s h0
    rw [init_control h0]
    constructor <;> simp
  · exact fun a s s' _ hs h ↦ hs.step_iff (control_step h)

/-- A client that is `RUNNING` reconnects, up to the point where the handshake of the reconnect
has stored `RUNNING`. -/
def reconnectRun : List ClientAction :=
  handshakeRun trueAck ++ [.invoke .reconnect, .call 2, .resolve 1 false, .connect 1 false, .call 2,
    .call 2, .sendConn 2 8, .used 1, .write 1,
    .recv false (BigEndian.bytes 4 (19 + trueAck.length : CInt)),
    .recv false (connAuthFrame 8 trueAck), .io, .io, .io, .test 1, .call 2, .call 2]

/-- One reconnect, from beginning to end. -/
theorem exclusive_reconnect : ∃ t s, (client zeroed .gcc proto2).Run t s ∧
    s.calls.map (·.pc) = [.done true, .done true, .done true] ∧
    ∀ u ∈ System.visited t s, u.control.Exclusive := by
  have htrace : ((client zeroed .gcc proto2).trace (reconnectRun ++ [.call 2]) []
      (.new ⟨0, 0, 0, 0⟩)).map
      (fun r ↦ (r.2.calls.map (·.pc), r.1.all fun x ↦ Control.undivided x.action x.pre.control)) =
      some ([.done true, .done true, .done true], true) := by decide +kernel
  obtain ⟨t, s, hrun, hpc, hok⟩ :=
    System.Run.exists_of_trace (S := client zeroed .gcc proto2) (fun s ↦ s.calls.map (·.pc))
      (fun a s ↦ Control.undivided a s.control) htrace ⟨_, rfl⟩
  exact ⟨t, s, hrun, hpc, (exclusive_iff_of_run hrun).mpr hok⟩

/-- A second thread is let in before the first has returned. -/
theorem not_exclusive_reconnect : ∃ s, (client zeroed .gcc proto2).Reachable s ∧
    ¬s.control.Exclusive := by
  have hrun : ((client zeroed .gcc proto2).exec (reconnectRun ++ [.invoke .reconnect])
      (.new ⟨0, 0, 0, 0⟩)).map (·.calls) =
      some [⟨.start, .done true, none⟩, ⟨.handshake, .done true, some 0⟩,
        ⟨.reconnect, .restoring, some 1⟩, ⟨.reconnect, .retry 0, none⟩] := by decide +kernel
  obtain ⟨s, hreach, hcalls⟩ := System.exists_reachable hrun ⟨_, rfl⟩
  refine ⟨s, hreach, fun h ↦ ?_⟩
  have htwo := h.unique 2 3 ⟨.reconnect, .restoring, some 1⟩ ⟨.reconnect, .retry 0, none⟩
    (by rw [control, hcalls]; rfl) (by rw [control, hcalls]; rfl) (by decide) (by decide)
  cases htwo

end Client

end Kiteq

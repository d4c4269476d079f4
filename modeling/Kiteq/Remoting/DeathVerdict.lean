import Kiteq.Lib.History
import Kiteq.Remoting.Acknowledged
import Kiteq.Remoting.Control

/-!
# The death verdict

`Heartbeat::isDead` compares one counter with five.  The heartbeat thread raises it, and three
threads set it to zero: the heartbeat thread when a heartbeat is answered, the IO thread when it
dispatches a response, and a thread in `reconnect` when its attempt has connected.  Between the
return of `sendHeartBeatAndGet` and the judgement of what it returned the others move on.

`isDead_iff_of_run` reads the verdict off the history of a run, whatever its interleaving.
-/

namespace Kiteq

open Lib System

/-! ## Heartbeats and resets -/

/-- `Heartbeat::isDead`.  The counter is a `long`, which never overflows: see `isDead_eq`. -/
def Client.isDead (s : Client) : Bool := 5 ≤ s.stopCount

/-- What `sendHeartBeatAndGet` has returned to the heartbeat thread, and the version it sent. -/
def Client.judged (s : Client) : Option (Option KiteResponse × CLong) :=
  match s.heartbeat with
  | .awaiting i now => (s.registry.futures[i]?).bind fun f ↦
    match f.pc with
    | .returned resp => some (resp, now)
    | _ => none
  | _ => none

namespace Heartbeat

variable (M : Miscast) (x : Transition ClientAction Client)

/-- A heartbeat completes. -/
def completed : Bool :=
  match x.action with
  | .judge => true
  | _ => false

/-- A heartbeat completes without a response, or with one whose version is not the one sent. -/
def failed : Bool := completed x && x.pre.judged.any fun (resp, now) ↦
  resp.bind (heartBeatVersion M) ≠ some now

/-- A heartbeat completes with a response that has the version sent. -/
def answered : Bool := completed x && x.pre.judged.any fun (resp, now) ↦
  resp.bind (heartBeatVersion M) = some now

/-- `handle_read_pkg` dispatches a `CONN_AUTH`, `MESSAGE_STORE_ACK` or `HEARTBEAT` packet. -/
def responded : Bool :=
  match x.action, x.pre.io with
  | .io, .handling pkg _ => isResponse pkg.cmdType
  | _, _ => false

/-- A `reconnect` has reached `RECOVERING`. -/
def recovered : Bool :=
  match x.action with
  | .call j => x.pre.calls[j]?.any fun c ↦ c.pc = .recovered ∧ c.op = .reconnect
  | _ => false

/-- The steps that set the counter to zero. -/
def resets : Bool := answered M x || responded x || recovered x

end Heartbeat

namespace Control

variable {a : ClientAction} {s s' : Control}

/-- A call of `handshake` is never in a retry loop. -/
def Straight (s : Control) : Prop := ∀ c ∈ s.calls, c.pc.Looping → c.op ≠ .handshake

theorem Straight.step (hs : s.Straight) (h : Step a s s') : s'.Straight := by
  cases h with
  | plain | attempt | connect => exact hs
  | @enter op _ hop =>
      refine (adds_concat _ _).forall_mem hs fun _ ↦ ?_
      rintro rfl
      cases hop
  | refuse | handshake =>
      exact (adds_concat _ _).forall_mem hs (by simp [InvocationPc.Looping])
  | @post j n _ c hc hpc =>
      refine (adds_set _ _ _).forall_mem hs fun _ ↦ ?_
      exact hs c (List.mem_of_getElem? hc) (by simp [hpc, InvocationPc.Looping])
  | @move j _ c pc hc hpc =>
      refine (adds_set _ _ _).forall_mem hs fun hloop ↦ hs c (List.mem_of_getElem? hc) ?_
      cases hpc with
      | connected h | unconnected h | again h => simp [h, InvocationPc.Looping]
      | exhausted | started | handshake | accepted | refused =>
          simp [InvocationPc.Looping] at hloop
  | request => exact (adds_set _ _ _).forall_mem hs (by simp [InvocationPc.Looping])
  | store =>
      refine (adds_set _ _ _).forall_mem hs fun hloop ↦ absurd hloop ?_
      split <;> simp [InvocationPc.Looping]

end Control

namespace Client

variable {M : Miscast} {E : Platform} {P : Protobuf} {a : ClientAction} {s s' : Client}

theorem straight_of_reachable (hs : (client M E P).Reachable s) : s.control.Straight := by
  refine hs.invariant (I := fun s ↦ s.control.Straight) ?_ ?_
  · intro s h0
    rw [init_control h0]
    simp [Control.Straight]
  · exact fun a s s' hs _ h ↦ hs.step (control_step h)

open Heartbeat

theorem judged_eq {i : ℕ} {now : CLong} {f : ResponseFuture} {resp : Option KiteResponse}
    (hawait : s.heartbeat = .awaiting i now) (hf : s.registry.futures[i]? = some f)
    (hfpc : f.pc = .returned resp) : s.judged = some (resp, now) := by
  simp [judged, hawait, hf, hfpc]

/-- A step that concerns neither a heartbeat nor a reset. -/
theorem count_of_other {x : Transition ClientAction Client} (hcompleted : completed x = false)
    (hresponded : responded x = false) (hrecovered : recovered x = false) (n : ℕ) :
    n = if resets M x then 0 else n + (failed M x).toNat := by
  simp [resets, answered, failed, hcompleted, hresponded, hrecovered]

/-- **Step lemma.** A step resets the counter, or raises it by the heartbeat it has failed. -/
theorem stopCount_step (hs : (client M E P).Reachable s)
    (h : (client M E P).step a s = some s') : s'.stopCount =
      if resets M ⟨s, a, s'⟩ then 0 else s.stopCount + (failed M ⟨s, a, s'⟩).toNat := by
  have hstraight := straight_of_reachable hs
  cases Step.of_step h with
  | alive hawait hf hfpc hversion =>
      simp [resets, answered, completed, judged_eq hawait hf hfpc, hversion]
  | missed hawait hf hfpc hversion =>
      simp [resets, answered, responded, recovered, failed, completed, judged_eq hawait hf hfpc,
        hversion]
  | respond hio hcmd => simp [resets, responded, hio, hcmd]
  | @reset j _ c hc hpc hop =>
      have hne := hstraight c (List.mem_of_getElem? hc) (by simp [hpc, InvocationPc.Looping])
      have hreconnect : c.op = .reconnect := by
        cases hcop : c.op with
        | start => exact absurd hcop hop
        | reconnect => rfl
        | handshake => exact absurd hcop hne
      simp [resets, recovered, hc, hpc, hreconnect]
  -- what is left touches the counter in no branch
  | ignore hio hcmd => exact count_of_other rfl (by simp [responded, hio, hcmd]) rfl _
  | dispatch hio | fulfil hio => exact count_of_other rfl (by simp [responded, hio]) rfl _
  | started hc hpc hop => exact count_of_other rfl rfl (by simp [recovered, hc, hop]) _
  | post hc hpc | connected hc hpc | unconnected hc hpc | exhausted hc hpc | again hc hpc
  | accept hc hpc | reject hc hpc =>
      exact count_of_other rfl rfl (by simp [recovered, hc, hpc]) _
  | store hc hpc =>
      refine count_of_other rfl rfl ?_ _
      rcases hpc with hpc | hpc <;> simp [recovered, hc, hpc]
  | @request a b s registry ha => cases a <;> cases ha <;> exact count_of_other rfl rfl rfl _
  | _ => exact count_of_other rfl rfl rfl _

/-- A heartbeat that completes and resets nothing has failed. -/
theorem failed_of_completed (h : (client M E P).step a s = some s')
    (hx : completed ⟨s, a, s'⟩ = true) (hresets : resets M ⟨s, a, s'⟩ = false) :
    failed M ⟨s, a, s'⟩ = true := by
  cases a with
  | judge =>
    have hjudge : s.judge M = some s' := h
    cases Step.of_judge (E := E) (P := P) hjudge with
    | alive hawait hf hfpc hversion =>
        simp [resets, answered, completed, judged_eq hawait hf hfpc, hversion] at hresets
    | missed hawait hf hfpc hversion =>
        simp [failed, completed, judged_eq hawait hf hfpc, hversion]
    | request ha => cases ha
  | _ => cases hx

theorem stopCount_eq_of_run {t : List (Transition ClientAction Client)}
    (hrun : (client M E P).Run t s) : s.stopCount = countSince (resets M) (failed M) t := by
  refine hrun.countSince_eq (f := stopCount) ?_ fun ⟨s, a, s'⟩ hs h ↦ stopCount_step hs h
  rintro s ⟨header, rfl⟩
  rfl

/-! ## The counter as a `long` -/

/-- Every heartbeat that was counted is a request, and so is the one that is awaited. -/
def Counted (s : Client) : Prop := match s.heartbeat with
  | .awaiting _ _ => s.stopCount < s.registry.futures.length
  | _ => s.stopCount ≤ s.registry.futures.length

theorem Counted.le (hs : s.Counted) : s.stopCount ≤ s.registry.futures.length := by
  unfold Counted at hs
  split at hs
  · exact hs.le
  · exact hs

/-- The table has grown, or is the same. -/
theorem Counted.mono (hs : s.Counted) (hheartbeat : s'.heartbeat = s.heartbeat)
    (hcount : s'.stopCount ≤ s.stopCount)
    (hlen : s.registry.futures.length ≤ s'.registry.futures.length) : s'.Counted := by
  unfold Counted at hs ⊢
  rw [hheartbeat]
  split at hs <;> omega

/-- The heartbeat thread awaits nothing afterwards. -/
theorem counted_of_le (hheartbeat : ∀ i now, s.heartbeat ≠ .awaiting i now)
    (hcount : s.stopCount ≤ s.registry.futures.length) : s.Counted := by
  unfold Counted
  split
  · rename_i h
    exact absurd h (hheartbeat _ _)
  · exact hcount

theorem Counted.step (hs : s.Counted) (h : Step M E P a s s') : s'.Counted := by
  cases h with
  | sendConn _ _ hreg => exact hs.mono rfl le_rfl (Registry.length_le_of_step hreg)
  | request _ hreg => exact hs.mono rfl le_rfl (Registry.length_le_of_step hreg)
  | write hreg => exact hs.mono rfl le_rfl (Registry.length_le_of_step hreg)
  | dispatch _ hreg => exact hs.mono rfl le_rfl (Registry.length_le_of_step hreg)
  | fulfil _ hreg => exact hs.mono rfl le_rfl (Registry.length_le_of_step hreg)
  | reset | respond => exact hs.mono rfl (Nat.zero_le _) le_rfl
  | started | beat => exact counted_of_le (by simp) hs.le
  | alive => exact counted_of_le (by simp) (Nat.zero_le _)
  | missed hawait =>
      have hlt : s.stopCount < s.registry.futures.length := by simpa [Counted, hawait] using hs
      exact counted_of_le (by simp) hlt
  | interrupt _ _ hreg =>
      exact counted_of_le (by simp) (hs.le.trans (Registry.length_le_of_step hreg))
  | sendHeartBeat _ hreg =>
      obtain ⟨-, rfl⟩ := Registry.construct_cases hreg
      have hle := hs.le
      simp only [Counted, List.length_append, List.length_singleton]
      omega
  | _ => exact hs.mono rfl le_rfl le_rfl

/-- There are no more requests than ids, so the `long` agrees with the count. -/
theorem toInt_stopCount (hs : (client M E P).Reachable s) :
    (BitVec.ofNat 64 s.stopCount : CLong).toInt = s.stopCount := by
  have hcounted : s.Counted := by
    refine hs.invariant ?_ fun a s s' hs _ h ↦ hs.step (Step.of_step h)
    rintro s ⟨header, rfl⟩
    exact Nat.zero_le _
  have hle := (registry_inv_of_reachable hs).length_le
  have hcount := hcounted.le
  rw [BitVec.toInt_ofNat']
  exact Int.bmod_eq_of_le (by omega) (by omega)

theorem isDead_eq (hs : (client M E P).Reachable s) :
    s.isDead = decide (5 ≤ (BitVec.ofNat 64 s.stopCount : CLong).toInt) := by
  rw [toInt_stopCount hs, isDead]
  simp

/-! ## The verdict -/

/-- **The death verdict is exact.**  A client is dead just when five heartbeats have failed since
the counter was last reset.  Then the last five heartbeats to complete have failed, and nothing
has reset the counter since the first of the five was counted. -/
theorem isDead_iff_of_run {t : List (Transition ClientAction Client)}
    (hrun : (client M E P).Run t s) :
    (s.isDead = true ↔ 5 ≤ countSince (resets M) (failed M) t) ∧
    (s.isDead = true → ∃ later x earlier, t = later ++ x :: earlier ∧
      failed M x = true ∧ later.countP completed = 4 ∧
      ∀ y ∈ later, (completed y = true → failed M y = true) ∧ resets M y = false) := by
  have hcount : s.isDead = true ↔ 5 ≤ countSince (resets M) (failed M) t := by
    rw [← stopCount_eq_of_run hrun, isDead, decide_eq_true_iff]
  refine ⟨hcount, fun hdead ↦ ?_⟩
  obtain ⟨later, x, earlier, rfl, hx, hlater, hresets⟩ :=
    exists_of_lt_countSince (n := 4) (hcount.mp hdead)
  have hfailed : ∀ y ∈ later, completed y = true → failed M y = true := fun y hy hcompleted ↦
    failed_of_completed (hrun.step_of_mem (List.mem_append_left _ hy)).2 hcompleted
      (hresets y (List.mem_cons_of_mem _ hy))
  have hsame : later.countP completed = later.countP (failed M) :=
    List.countP_congr fun y hy ↦ ⟨hfailed y hy, fun h ↦ (Bool.and_eq_true_iff.mp h).1⟩
  refine ⟨later, x, earlier, rfl, hx, hsame.trans hlater, fun y hy ↦ ⟨hfailed y hy, ?_⟩⟩
  exact hresets y (List.mem_cons_of_mem _ hy)

/-- A heartbeat that is sent and not answered. -/
def missedRun (i : ℕ) : List ClientAction :=
  [.beat, .sendHeartBeat (100 + i : CInt) 1000, .used i, .write i, .test i, .erase i, .judge]

/-- Five heartbeats in a row time out. -/
theorem isDead_missed : ∃ t s, (client zeroed .gcc proto2).Run t s ∧ s.isDead = true ∧
    5 ≤ countSince (resets zeroed) (failed zeroed) t := by
  have htrace : ((client zeroed .gcc proto2).trace
      (handshakeRun trueAck ++ [1, 2, 3, 4, 5].flatMap missedRun) [] (.new ⟨0, 0, 0, 0⟩)).map
      (·.2.isDead) = some true := by decide +kernel
  obtain ⟨⟨t, s⟩, ht, hdead⟩ := Option.map_eq_some_iff.mp htrace
  have hrun : (client zeroed .gcc proto2).Run t s := .of_trace (.init ⟨_, rfl⟩) ht
  exact ⟨t, s, hrun, hdead, (isDead_iff_of_run hrun).1.mp hdead⟩

end Client

end Kiteq

import Kiteq.Commons.Counter
import Mathlib.Order.Bounds.Defs

/-!
# The next heartbeat time

Whoever gets a response moves the next heartbeat to three seconds later, and never back:
`setNextHeartbeatTime` reads the time that is set, and if its own is later exchanges it; when
another thread has set a time in between, it calls itself again.  The callers are the heartbeat
thread, the threads in a handshake and all that send messages.

So the time set is a maximum that is computed concurrently.  No update is lost, and a call tries
again only on account of another that has succeeded.
-/

namespace Kiteq

open Lib System Optimistic

namespace Heartbeat

/-- `setNextHeartbeatTime(time)`, having read `next`. -/
def setNextHeartbeatTime (time next : CLong) : Plan CLong Unit :=
  if next.toInt < time.toInt then .exchange time () else .done ()

/-- The counter `nextHeartbeatTime`, and the calls of `setNextHeartbeatTime`, which are known by
their times. -/
def nextHeartbeatTime (initial : CLong) : System (Action CLong) (Cell CLong CLong Unit) :=
  cell setNextHeartbeatTime initial

variable {initial : CLong} {a : Action CLong} {s s' : Cell CLong CLong Unit}
  {t : List (Transition (Action CLong) (Cell CLong CLong Unit))}

theorem eq_of_plan_exchange {time next v : CLong} {r : Unit}
    (h : setNextHeartbeatTime time next = .exchange v r) :
    v = time ∧ next.toInt < time.toInt := by
  unfold setNextHeartbeatTime at h
  split at h
  · cases h
    exact ⟨rfl, ‹_›⟩
  · cases h

theorem le_of_plan_done {time next : CLong} {r : Unit}
    (h : setNextHeartbeatTime time next = .done r) : time.toInt ≤ next.toInt := by
  unfold setNextHeartbeatTime at h
  split at h
  · cases h
  · exact Int.not_lt.mp ‹_›

theorem plan_ne_store {time next v : CLong} {r : Unit} :
    setNextHeartbeatTime time next ≠ .store v r := by
  unfold setNextHeartbeatTime
  split <;> simp

/-- The time is never set back. -/
theorem toInt_le_step (h : (nextHeartbeatTime initial).step a s = some s') :
    s.value.toInt ≤ s'.value.toInt := by
  cases Step.of_step h with
  | store hc hplan => exact absurd hplan plan_ne_store
  | exchange hc hplan =>
      obtain ⟨rfl, hlt⟩ := eq_of_plan_exchange hplan
      exact Int.le_of_lt hlt
  | _ => exact Int.le_refl _

/-! ## The maximum -/

/-- The initial time, and those of the calls. -/
def times (initial : CLong) (s : Cell CLong CLong Unit) : List CLong :=
  initial :: s.calls.map (·.op)

/-- The time set is one of these, not before the initial one, and not before that of a call that
has returned. -/
structure Maximal (initial : CLong) (s : Cell CLong CLong Unit) : Prop where
  mem : s.value ∈ times initial s
  initial_le : initial.toInt ≤ s.value.toInt
  le : ∀ c ∈ s.calls, c.pc.isReturned = true → c.op.toInt ≤ s.value.toInt

theorem times_set {i : ℕ} {time v : CLong} {pc pc' : Pc CLong Unit}
    (hc : s.calls[i]? = some ⟨time, pc⟩) :
    times initial ⟨v, s.calls.set i ⟨time, pc'⟩⟩ = times initial s := by
  obtain ⟨hlt, hget⟩ := List.getElem?_eq_some_iff.mp hc
  have hlt' : i < (s.calls.map (·.op)).length := by simpa using hlt
  have hop : (s.calls.map (·.op))[i] = time := by simp [hget]
  simp only [times, List.map_set]
  rw [← hop, List.set_getElem_self]

theorem Maximal.step (hs : Maximal initial s)
    (h : (nextHeartbeatTime initial).step a s = some s') : Maximal initial s' := by
  have hle := toInt_le_step h
  cases Step.of_step h with
  | @call time =>
      refine ⟨?_, hs.initial_le, (adds_concat _ _).forall_mem hs.le fun h ↦ by cases h⟩
      have hmem := hs.mem
      simp only [times, List.map_append, List.mem_cons, List.mem_append] at hmem ⊢
      tauto
  | store hc hplan => exact absurd hplan plan_ne_store
  | done hc hplan =>
      refine ⟨(times_set hc).symm ▸ hs.mem, hs.initial_le, ?_⟩
      exact (adds_set _ _ _).forall_mem hs.le fun _ ↦ le_of_plan_done hplan
  | find hc hplan | retry hc hplan hne =>
      refine ⟨(times_set hc).symm ▸ hs.mem, hs.initial_le, ?_⟩
      exact (adds_set _ _ _).forall_mem hs.le fun h ↦ by cases h
  | @exchange i time v r _ hc hplan =>
      obtain ⟨rfl, -⟩ := eq_of_plan_exchange hplan
      refine ⟨?_, Int.le_trans hs.initial_le hle, ?_⟩
      · rw [times_set hc]
        have hop : v ∈ s.calls.map (·.op) := List.mem_map.mpr ⟨_, List.mem_of_getElem? hc, rfl⟩
        exact List.mem_cons_of_mem _ hop
      · exact (adds_set _ _ _).forall_mem
          (fun c hmem hret ↦ Int.le_trans (hs.le c hmem hret) hle) fun _ ↦ Int.le_refl _

theorem maximal_of_reachable (hs : (nextHeartbeatTime initial).Reachable s) :
    Maximal initial s := by
  refine hs.invariant (I := Maximal initial) ?_ fun a s s' hs _ h ↦ hs.step h
  rintro s rfl
  exact ⟨List.mem_cons_self, Int.le_refl _, by simp⟩

/-- When all calls have returned, the time set is the latest. -/
theorem Maximal.isGreatest (hs : Maximal initial s)
    (hall : ∀ c ∈ s.calls, c.pc.isReturned = true) :
    IsGreatest {v | ∃ time ∈ times initial s, v = time.toInt} s.value.toInt := by
  refine ⟨⟨s.value, hs.mem, rfl⟩, ?_⟩
  rintro v ⟨time, htime, rfl⟩
  rcases List.mem_cons.mp htime with rfl | hcall
  · exact hs.initial_le
  · obtain ⟨c, hc, rfl⟩ := List.mem_map.mp hcall
    exact hs.le c hc (hall c hc)

/-! ## Trying again -/

/-- Another call raises the time between the steps in which call `i` reads and exchanges it. -/
def raises (i : ℕ) (x : Transition (Action CLong) (Cell CLong CLong Unit)) : Bool :=
  !acts i x && x.pre.value.toInt < x.post.value.toInt && x.pre.waiting i

/-- Whoever changes the time raises it. -/
theorem intrudes_eq_raises (i : ℕ) (h : (nextHeartbeatTime initial).step a s = some s') :
    intrudes i ⟨s, a, s'⟩ = raises i ⟨s, a, s'⟩ := by
  have hle := toInt_le_step h
  have hiff : s'.value ≠ s.value ↔ s.value.toInt < s'.value.toInt := by
    rw [Ne, ← BitVec.toInt_inj]
    omega
  simp [intrudes, raises, changes, hiff]

/-- What holds of a run of calls of `setNextHeartbeatTime`, however they are interleaved. -/
structure ConcurrentMaximum (initial : CLong)
    (t : List (Transition (Action CLong) (Cell CLong CLong Unit)))
    (s : Cell CLong CLong Unit) : Prop where
  /-- The time never decreases. -/
  monotone : ∀ x ∈ t, x.pre.value.toInt ≤ x.post.value.toInt
  /-- No update is lost. -/
  greatest : (∀ c ∈ s.calls, c.pc.isReturned = true) →
    IsGreatest {v | ∃ time ∈ times initial s, v = time.toInt} s.value.toInt
  /-- A call recurses at most as often as others raise the time between its own steps. -/
  recursions : ∀ i, t.countP (retries i) ≤ t.countP (raises i)
  /-- Others do so at most once each. -/
  raised : ∀ i, t.countP (raises i) ≤ s.calls.length
  /-- A call takes two steps each time it is entered. -/
  steps : ∀ i, t.countP (acts i) ≤ 2 * (t.countP (retries i) + 1)
  /-- A call that has not returned can take its next step. -/
  progress : ∀ i c, s.calls[i]? = some c → c.pc.isReturned = false →
    ∃ a s', a.actor = some i ∧ (nextHeartbeatTime initial).step a s = some s'

/-- **The next heartbeat time is a concurrent maximum.** -/
theorem concurrentMaximum_of_run (hrun : (nextHeartbeatTime initial).Run t s) :
    ConcurrentMaximum initial t s := by
  have hraises (i : ℕ) : t.countP (intrudes i) = t.countP (raises i) := by
    refine List.countP_congr fun x hx ↦ ?_
    rw [intrudes_eq_raises i (hrun.step_of_mem hx).2]
  refine ⟨fun x hx ↦ toInt_le_step (hrun.step_of_mem hx).2,
    (maximal_of_reachable hrun.reachable).isGreatest, fun i ↦ ?_, fun i ↦ ?_,
    countP_acts_le hrun, fun i c ↦ exists_step hrun.reachable⟩
  · rw [← hraises i]
    exact countP_retries_le hrun i
  · rw [← hraises i]
    refine Nat.le_trans (List.countP_mono_left fun x _ h ↦ ?_) (countP_changes_le hrun)
    simp only [intrudes, Bool.and_eq_true] at h
    exact h.1.2

/-- Two calls read the same time; the later one exchanges first, and the other gives way. -/
theorem concurrentMaximum_two : ∃ t s, (nextHeartbeatTime 0).Run t s ∧
    t.countP (retries 0) = 1 ∧ s.value = 7 ∧ ConcurrentMaximum 0 t s := by
  have htrace : ((nextHeartbeatTime 0).trace [.call 5, .call 7, .find 0, .find 1, .exchange 1,
      .exchange 0, .find 0] [] ⟨0, []⟩).map (fun r ↦ (r.1.countP (retries 0), r.2.value)) =
      some (1, 7) := by decide +kernel
  obtain ⟨⟨t, s⟩, ht, heq⟩ := Option.map_eq_some_iff.mp htrace
  obtain ⟨hretries, hvalue⟩ := Prod.mk.inj heq
  have hrun : (nextHeartbeatTime 0).Run t s := .of_trace (.init rfl) ht
  exact ⟨t, s, hrun, hretries, hvalue, concurrentMaximum_of_run hrun⟩

end Heartbeat

end Kiteq

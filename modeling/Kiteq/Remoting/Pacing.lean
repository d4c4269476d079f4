import Kiteq.Remoting.HeartbeatTime

/-!
# Heartbeats keep their distance

The heartbeat thread reads the clock, then the time of the next heartbeat, and compares the two;
every thread that gets a response reads the clock as well and moves that time to three seconds
later, by `setNextHeartbeatTime`.  Between any two of these steps other threads may move.

`paced_of_run` says what comes of it, however they are interleaved.  A heartbeat is sent just when
no response is known from the three seconds before; what is known are the responses whose
`setNextHeartbeatTime` has returned.  Otherwise the thread sleeps for as long as was left when it
read the clock.  And two heartbeats are at least one second apart.

The clock counts microseconds in the 63 bits that a `time_duration` has for them, and is not set
back.
-/

namespace Kiteq

open Lib System Optimistic

namespace Heartbeat

/-- Where the heartbeat thread is in its loop. -/
inductive ThreadPc where
  /-- At the head of the loop. -/
  | top
  /-- It has read the clock. -/
  | read (now : CLong)
  /-- In `sendHeartBeatAndGet`, with a heartbeat that has this time as its version. -/
  | beating (now : CLong)
  /-- In `usleep`, until the clock shows so many microseconds. -/
  | waiting (wake : ℕ)
  /-- In `sleep(1)`. -/
  | resting (wake : ℕ)
deriving DecidableEq

/-- The clock, the time of the next heartbeat and the heartbeat thread. -/
structure Pacing where
  /-- Microseconds since the epoch. -/
  clock : ℕ
  /-- The counter `nextHeartbeatTime`, with the calls of `setNextHeartbeatTime`. -/
  next : Cell CLong CLong Unit
  /-- What the clock showed to the caller of each of these. -/
  responses : List ℕ
  thread : ThreadPc
  /-- The versions of the heartbeats that were sent, the latest first. -/
  sent : List CLong

inductive PacingAction where
  | tick (d : ℕ)
  /-- A thread has got a response, reads the clock and calls `setNextHeartbeatTime`. -/
  | respond
  /-- Such a call reads the time that is set. -/
  | find (i : ℕ)
  /-- It exchanges it. -/
  | exchange (i : ℕ)
  /-- The heartbeat thread finds the client in another status than `RUNNING`. -/
  | skip
  /-- It finds it `RUNNING`, and reads the clock. -/
  | readClock
  /-- It reads the time of the next heartbeat, and sends one or goes to sleep. -/
  | compare
  /-- `sendHeartBeatAndGet` returns. -/
  | answered
  /-- A sleep is over. -/
  | wake
deriving DecidableEq

/-- `total_microseconds()/1000`. -/
def millis (clock : ℕ) : CLong := BitVec.ofNat 64 (clock / 1000)

/-- The argument of `usleep`, an `unsigned int`. -/
def usleepArgument (next now : CLong) : ℕ := (((next - now) * 1000).setWidth 32).toNat

/-- A step of a call of `setNextHeartbeatTime`. -/
def Pacing.setNext (a : Action CLong) (s : Pacing) : Option Pacing :=
  (Optimistic.step setNextHeartbeatTime a s.next).map fun next ↦ { s with next }

def Pacing.step : PacingAction → Pacing → Option Pacing
  | .tick d, s => if s.clock + d < 2 ^ 63 then some { s with clock := s.clock + d } else none
  | .respond, s =>
    ({ s with responses := s.responses ++ [s.clock] }).setNext (.call (millis s.clock + 3000))
  | .find i, s => s.setNext (.find i)
  | .exchange i, s => s.setNext (.exchange i)
  | .skip, s =>
    if s.thread = .top then some { s with thread := .resting (s.clock + 1000000) } else none
  | .readClock, s =>
    if s.thread = .top then some { s with thread := .read (millis s.clock) } else none
  | .compare, s =>
    match s.thread with
    | .read now =>
      if s.next.value.toInt < now.toInt then
        some { s with thread := .beating now, sent := now :: s.sent }
      else some { s with thread := .waiting (s.clock + usleepArgument s.next.value now) }
    | _ => none
  | .answered, s =>
    match s.thread with
    | .beating _ => some { s with thread := .resting (s.clock + 1000000) }
    | _ => none
  | .wake, s =>
    match s.thread with
    | .waiting wake =>
      if wake ≤ s.clock then some { s with thread := .resting (s.clock + 1000000) } else none
    | .resting wake => if wake ≤ s.clock then some { s with thread := .top } else none
    | _ => none

/-- The heartbeat thread among the threads that get responses. -/
def pacing : System PacingAction Pacing where
  init s := ∃ clock < 2 ^ 63, s = ⟨clock, ⟨0, []⟩, [], .top, []⟩
  step := Pacing.step

/-! ## What a step does -/

/-- A step of the threads that get responses, or one of the heartbeat thread. -/
inductive Pacing.Step : PacingAction → Pacing → Pacing → Prop
  | tick {d : ℕ} {s : Pacing} (hclock : s.clock + d < 2 ^ 63) :
      Step (.tick d) s { s with clock := s.clock + d }
  | respond {s : Pacing} {next : Cell CLong CLong Unit}
      (hnext : (nextHeartbeatTime 0).step (.call (millis s.clock + 3000)) s.next = some next) :
      Step .respond s { s with next, responses := s.responses ++ [s.clock] }
  | set {a : PacingAction} {b : Action CLong} {s : Pacing} {next : Cell CLong CLong Unit}
      (hb : b.actor ≠ none) (hnext : (nextHeartbeatTime 0).step b s.next = some next) :
      Step a s { s with next }
  | readClock {s : Pacing} (htop : s.thread = .top) :
      Step .readClock s { s with thread := .read (millis s.clock) }
  | beat {s : Pacing} {now : CLong} (hread : s.thread = .read now)
      (hlt : s.next.value.toInt < now.toInt) :
      Step .compare s { s with thread := .beating now, sent := now :: s.sent }
  | wait {s : Pacing} {now : CLong} (hread : s.thread = .read now)
      (hle : now.toInt ≤ s.next.value.toInt) :
      Step .compare s
        { s with thread := .waiting (s.clock + usleepArgument s.next.value now) }
  /-- The heartbeat thread goes to `sleep(1)`. -/
  | rest {a : PacingAction} {s : Pacing} (hread : ∀ now, s.thread ≠ .read now)
      (hrest : ∀ wake, s.thread ≠ .resting wake) :
      Step a s { s with thread := .resting (s.clock + 1000000) }
  | wake {s : Pacing} {wake : ℕ} (hresting : s.thread = .resting wake) (hwake : wake ≤ s.clock) :
      Step .wake s { s with thread := .top }

variable {a : PacingAction} {s s' : Pacing} {t : List (Transition PacingAction Pacing)}

/-- **Inversion.** -/
theorem Pacing.Step.of_step (h : pacing.step a s = some s') : Pacing.Step a s s' := by
  cases a with
  | tick d =>
      simp only [pacing, Pacing.step] at h
      split at h
      · rename_i hclock
        cases h
        exact .tick hclock
      · cases h
  | respond =>
      simp only [pacing, Pacing.step, Pacing.setNext] at h
      obtain ⟨next, hnext, rfl⟩ := Option.map_eq_some_iff.mp h
      exact .respond hnext
  | find i =>
      obtain ⟨next, hnext, rfl⟩ := Option.map_eq_some_iff.mp h
      exact .set (b := .find i) (by simp [Action.actor]) hnext
  | exchange i =>
      obtain ⟨next, hnext, rfl⟩ := Option.map_eq_some_iff.mp h
      exact .set (b := .exchange i) (by simp [Action.actor]) hnext
  | skip =>
      simp only [pacing, Pacing.step] at h
      split at h
      · rename_i htop
        cases h
        exact .rest (by simp [htop]) (by simp [htop])
      · cases h
  | readClock =>
      simp only [pacing, Pacing.step] at h
      split at h
      · rename_i htop
        cases h
        exact .readClock htop
      · cases h
  | compare =>
      simp only [pacing, Pacing.step] at h
      split at h
      · rename_i now hread
        split at h
        · rename_i hlt
          cases h
          exact .beat hread hlt
        · rename_i hlt
          cases h
          exact .wait hread (Int.not_lt.mp hlt)
      · cases h
  | answered =>
      simp only [pacing, Pacing.step] at h
      split at h
      · rename_i now hbeating
        cases h
        exact .rest (by simp [hbeating]) (by simp [hbeating])
      · cases h
  | wake =>
      simp only [pacing, Pacing.step] at h
      split at h
      · rename_i wake hwaiting
        split at h
        · cases h
          exact .rest (by simp [hwaiting]) (by simp [hwaiting])
        · cases h
      · rename_i wake hresting
        split at h
        · rename_i hwake
          cases h
          exact .wake hresting hwake
        · cases h
      · cases h

/-! ## Responses -/

/-- The counter is the one that was studied by itself. -/
def nextRefinement : Refinement pacing (nextHeartbeatTime 0) where
  abs s := s.next
  init := by
    rintro s ⟨clock, -, rfl⟩
    rfl
  step _ _ _ _ h := by
    cases Pacing.Step.of_step h with
    | respond hnext | set _ hnext => exact .inr ⟨_, hnext⟩
    | _ => exact .inl rfl

theorem toInt_millis {clock : ℕ} (h : clock < 2 ^ 63) :
    (millis clock).toInt = (clock / 1000 : ℕ) := by
  rw [millis, BitVec.toInt_ofNat']
  exact Int.bmod_eq_of_le (by omega) (by omega)

theorem toInt_deadline {clock : ℕ} (h : clock < 2 ^ 63) :
    (millis clock + 3000).toInt = (clock / 1000 : ℕ) + 3000 := by
  rw [BitVec.toInt_add, toInt_millis h]
  exact Int.bmod_eq_of_le (by simp; omega) (by simp; omega)

/-- The calls of `setNextHeartbeatTime` are those of the responses, which are not from the
future. -/
structure Recorded (s : Pacing) : Prop where
  clock : s.clock < 2 ^ 63
  past : ∀ r ∈ s.responses, r ≤ s.clock
  calls : s.next.calls.map (·.op) = s.responses.map fun r ↦ millis r + 3000

/-- A step of a call leaves it to be what it was. -/
theorem map_op_of_step {b : Action CLong} {next next' : Cell CLong CLong Unit}
    (hb : b.actor ≠ none) (h : (nextHeartbeatTime 0).step b next = some next') :
    next'.calls.map (·.op) = next.calls.map (·.op) := by
  have hset {i : ℕ} {time v : CLong} {pc pc' : Pc CLong Unit}
      (hc : next.calls[i]? = some ⟨time, pc⟩) :
      (next.calls.set i ⟨time, pc'⟩).map (·.op) = next.calls.map (·.op) := by
    have htimes : times 0 ⟨v, next.calls.set i ⟨time, pc'⟩⟩ = times 0 next := times_set hc
    exact (List.cons.inj htimes).2
  cases Optimistic.Step.of_step h with
  | call => exact absurd rfl hb
  | done hc | store hc | find hc | exchange hc | retry hc => exact hset (v := 0) hc

theorem recorded_of_reachable (hs : pacing.Reachable s) : Recorded s := by
  refine hs.invariant (I := Recorded) ?_ fun a s s' hs _ h ↦ ?_
  · rintro s ⟨clock, hclock, rfl⟩
    exact ⟨hclock, by simp, rfl⟩
  · cases Pacing.Step.of_step h with
    | tick hclock =>
        exact ⟨hclock, fun r hr ↦ Nat.le_add_right_of_le (hs.past r hr), hs.calls⟩
    | respond hnext =>
        cases hnext
        refine ⟨hs.clock, ?_, by simp [hs.calls]⟩
        simp only [List.mem_append, List.mem_singleton]
        rintro r (hr | rfl)
        · exact hs.past r hr
        · exact Nat.le_refl _
    | set hb hnext => exact ⟨hs.clock, hs.past, (map_op_of_step hb hnext).trans hs.calls⟩
    | readClock | beat | wait | rest | wake => exact ⟨hs.clock, hs.past, hs.calls⟩

/-- The responses whose `setNextHeartbeatTime` has returned. -/
def Pacing.Known (s : Pacing) (r : ℕ) : Prop :=
  ∃ (i : ℕ) (c : Call CLong CLong Unit), s.responses[i]? = some r ∧ s.next.calls[i]? = some c ∧
    c.pc.isReturned = true

/-- The time that is set is not before three seconds after any known response. -/
theorem le_value_of_known (hs : pacing.Reachable s) {r : ℕ} (hr : s.Known r) :
    (r / 1000 : ℕ) + 3000 ≤ s.next.value.toInt := by
  obtain ⟨i, c, hi, hc, hret⟩ := hr
  have hrecorded := recorded_of_reachable hs
  have hmax := maximal_of_reachable (nextRefinement.reachable hs)
  have hop : c.op = millis r + 3000 := by
    have hcalls := congrArg (·[i]?) hrecorded.calls
    simpa [hi, hc] using hcalls
  have hmem := List.mem_of_getElem? hi
  calc ((r / 1000 : ℕ) : ℤ) + 3000
      = c.op.toInt := by
        rw [hop, toInt_deadline (Nat.lt_of_le_of_lt (hrecorded.past r hmem) hrecorded.clock)]
    _ ≤ s.next.value.toInt := hmax.le c (List.mem_of_getElem? hc) hret

/-- It is zero, or three seconds after some response. -/
theorem exists_response (hs : pacing.Reachable s) : s.next.value.toInt = 0 ∨
    ∃ r ∈ s.responses, s.next.value.toInt = (r / 1000 : ℕ) + 3000 := by
  have hrecorded := recorded_of_reachable hs
  have hmem : s.next.value ∈ (0 : CLong) :: s.next.calls.map (·.op) :=
    (maximal_of_reachable (nextRefinement.reachable hs)).mem
  rcases List.mem_cons.mp hmem with hzero | hcall
  · exact .inl (by rw [hzero]; rfl)
  · rw [hrecorded.calls] at hcall
    obtain ⟨r, hr, hvalue⟩ := List.mem_map.mp hcall
    refine .inr ⟨r, hr, ?_⟩
    rw [← hvalue, toInt_deadline (Nat.lt_of_le_of_lt (hrecorded.past r hr) hrecorded.clock)]

/-! ## Heartbeats -/

/-- How long ago a heartbeat was sent, by where the heartbeat thread is. -/
def ThreadPc.After (v : CLong) (clock : ℕ) : ThreadPc → Prop
  | .top => v.toInt * 1000 + 1000000 ≤ clock
  | .read now => v.toInt + 1000 ≤ now.toInt
  | .beating _ | .waiting _ => v.toInt * 1000 ≤ clock
  | .resting wake => v.toInt * 1000 + 1000000 ≤ wake

/-- The heartbeats that were sent are at least a second apart, and so is the next. -/
structure Spaced (s : Pacing) : Prop where
  sent : s.sent.Pairwise fun later earlier ↦ earlier.toInt + 1000 ≤ later.toInt
  next : ∀ v ∈ s.sent, s.thread.After v s.clock
  read : ∀ now, s.thread = .read now → 0 ≤ now.toInt ∧ now.toInt * 1000 ≤ s.clock

theorem Spaced.step (hs : Spaced s) (hclock : s.clock < 2 ^ 63) (h : pacing.step a s = some s') :
    Spaced s' := by
  cases Pacing.Step.of_step h with
  | @tick d =>
      refine ⟨hs.sent, fun v hv ↦ ?_, fun now hread ↦ ?_⟩
      · have hafter := hs.next v hv
        cases hthread : s.thread <;> simp only [hthread, ThreadPc.After] at hafter ⊢ <;>
          push_cast <;> omega
      · have hle := hs.read now hread
        push_cast
        exact ⟨hle.1, by omega⟩
  | respond hnext | set hb hnext => exact ⟨hs.sent, hs.next, hs.read⟩
  | readClock htop =>
      refine ⟨hs.sent, fun v hv ↦ ?_, fun now hread ↦ ?_⟩
      · have hafter := hs.next v hv
        simp only [htop, ThreadPc.After, toInt_millis hclock] at hafter ⊢
        omega
      · cases hread
        rw [toInt_millis hclock]
        dsimp only
        constructor <;> omega
  | @beat _ now hread hlt =>
      have hnow := (hs.read now hread).2
      have hafter (v : CLong) (hv : v ∈ s.sent) : v.toInt + 1000 ≤ now.toInt := by
        have := hs.next v hv
        rwa [hread] at this
      refine ⟨List.pairwise_cons.mpr ⟨hafter, hs.sent⟩, ?_, by simp⟩
      refine List.forall_mem_cons.mpr ⟨hnow, fun v hv ↦ ?_⟩
      have := hafter v hv
      simp only [ThreadPc.After]
      omega
  | @wait _ now hread hle =>
      refine ⟨hs.sent, fun v hv ↦ ?_, by simp⟩
      have hafter := hs.next v hv
      have hnow := (hs.read now hread).2
      simp only [hread, ThreadPc.After] at hafter ⊢
      omega
  | rest hread hrest =>
      refine ⟨hs.sent, fun v hv ↦ ?_, by simp⟩
      have hafter := hs.next v hv
      cases hthread : s.thread with
      | read now => exact absurd hthread (hread now)
      | resting wake => exact absurd hthread (hrest wake)
      | top | beating | waiting =>
          simp only [hthread, ThreadPc.After] at hafter ⊢
          push_cast
          omega
  | wake hresting hwake =>
      refine ⟨hs.sent, fun v hv ↦ ?_, by simp⟩
      have hafter := hs.next v hv
      simp only [hresting, ThreadPc.After] at hafter ⊢
      omega

theorem spaced_of_reachable (hs : pacing.Reachable s) : Spaced s := by
  refine hs.invariant_of (J := fun s ↦ s.clock < 2 ^ 63) (I := Spaced)
    (fun s hs ↦ (recorded_of_reachable hs).clock) ?_ fun a s s' hclock hs _ h ↦ hs.step hclock h
  rintro s ⟨clock, -, rfl⟩
  exact ⟨.nil, by simp, by simp⟩

/-- `usleep` is asked for as many microseconds as there are until the time that is set, if these
fit in an `unsigned int`. -/
theorem usleepArgument_eq {next now : CLong} (hle : now.toInt ≤ next.toInt)
    (hfits : (next.toInt - now.toInt) * 1000 < 2 ^ 32) :
    (usleepArgument next now : ℤ) = (next.toInt - now.toInt) * 1000 := by
  have hsub : (next - now).toInt = next.toInt - now.toInt := by
    rw [BitVec.toInt_sub]
    exact Int.bmod_eq_of_le (by omega) (by omega)
  have hmul : ((next - now) * 1000).toInt = (next.toInt - now.toInt) * 1000 := by
    rw [BitVec.toInt_mul, hsub]
    exact Int.bmod_eq_of_le (by simp; omega) (by simp; omega)
  rw [usleepArgument, BitVec.toNat_setWidth]
  rw [BitVec.toInt_eq_toNat_cond] at hmul
  split at hmul <;> omega

/-- What holds of a run of the heartbeat thread, whatever responses there are. -/
structure Paced (t : List (Transition PacingAction Pacing)) (s : Pacing) : Prop where
  /-- A heartbeat is sent more than three seconds after any response that is known. -/
  quiet : ∀ x ∈ t, ∀ now, x.pre.thread = .read now → x.post.thread = .beating now →
    ∀ r, x.pre.Known r → ((r / 1000 : ℕ) : ℤ) + 3000 < now.toInt
  /-- None is held back but for a response from the last three seconds, or in the first
  millisecond of the epoch. -/
  heard : ∀ x ∈ t, ∀ now wake, x.pre.thread = .read now → x.post.thread = .waiting wake →
    now.toInt ≤ 0 ∨ ∃ r ∈ x.pre.responses, now.toInt ≤ ((r / 1000 : ℕ) : ℤ) + 3000
  /-- The thread then asks `usleep` for what was left until the time that is set when it read the
  clock, unless more than an hour has passed since. -/
  slept : ∀ x ∈ t, ∀ now wake, x.pre.thread = .read now → x.post.thread = .waiting wake →
    x.pre.clock ≤ now.toInt * 1000 + 3600000000 →
      (wake : ℤ) = x.pre.clock + (x.pre.next.value.toInt - now.toInt) * 1000
  /-- Heartbeats are at least one second apart. -/
  spaced : s.sent.Pairwise fun later earlier ↦ earlier.toInt + 1000 ≤ later.toInt

/-- A step by which the heartbeat thread goes to `usleep`. -/
theorem next_of_waiting {now : CLong} {wake : ℕ} (h : pacing.step a s = some s')
    (hread : s.thread = .read now) (hwaiting : s'.thread = .waiting wake) :
    now.toInt ≤ s.next.value.toInt ∧ wake = s.clock + usleepArgument s.next.value now := by
  cases Pacing.Step.of_step h with
  | wait hread' hle =>
      cases hread.symm.trans hread'
      cases hwaiting
      exact ⟨hle, rfl⟩
  | tick | respond | set => exact absurd (hread.symm.trans hwaiting) (by simp)
  | readClock | beat | rest | wake => cases hwaiting

/-- A step by which it sends a heartbeat. -/
theorem next_of_beating {now : CLong} (h : pacing.step a s = some s')
    (hread : s.thread = .read now) (hbeating : s'.thread = .beating now) :
    s.next.value.toInt < now.toInt := by
  cases Pacing.Step.of_step h with
  | beat hread' hlt =>
      cases hread.symm.trans hread'
      exact hlt
  | tick | respond | set => exact absurd (hread.symm.trans hbeating) (by simp)
  | readClock | wait | rest | wake => cases hbeating

/-- **Heartbeats keep their distance** from responses and from each other. -/
theorem paced_of_run (hrun : pacing.Run t s) : Paced t s := by
  refine ⟨?_, ?_, ?_, (spaced_of_reachable hrun.reachable).sent⟩
  · intro x hx now hread hbeating r hr
    obtain ⟨hreach, hstep⟩ := hrun.step_of_mem hx
    exact Int.lt_of_le_of_lt (le_value_of_known hreach hr) (next_of_beating hstep hread hbeating)
  · intro x hx now wake hread hwaiting
    obtain ⟨hreach, hstep⟩ := hrun.step_of_mem hx
    obtain ⟨hle, -⟩ := next_of_waiting hstep hread hwaiting
    rcases exists_response hreach with hzero | ⟨r, hr, hvalue⟩
    · exact .inl (hzero ▸ hle)
    · exact .inr ⟨r, hr, hvalue ▸ hle⟩
  · intro x hx now wake hread hwaiting hour
    obtain ⟨hreach, hstep⟩ := hrun.step_of_mem hx
    obtain ⟨hle, rfl⟩ := next_of_waiting hstep hread hwaiting
    have hnow := ((spaced_of_reachable hreach).read now hread).1
    have hfits : (x.pre.next.value.toInt - now.toInt) * 1000 < 2 ^ 32 := by
      rcases exists_response hreach with hzero | ⟨r, hr, hvalue⟩
      · omega
      · have hpast := (recorded_of_reachable hreach).past r hr
        omega
    rw [Nat.cast_add, usleepArgument_eq hle hfits]

/-- A heartbeat is answered, and the next but one turn of the loop sends another. -/
def pacedRun : List PacingAction :=
  [.readClock, .compare, .tick 40000, .respond, .find 0, .exchange 0, .answered, .tick 1000000,
    .wake, .readClock, .compare, .tick 2000000, .wake, .tick 1000000, .wake, .readClock, .compare]

theorem paced_pacedRun : ∃ t s, pacing.Run t s ∧ s.sent = [5040, 1000] ∧
    s.responses = [1040000] ∧ Paced t s := by
  have htrace : (pacing.trace pacedRun [] ⟨1000000, ⟨0, []⟩, [], .top, []⟩).map
      (fun r ↦ (r.2.sent, r.2.responses)) = some ([5040, 1000], [1040000]) := by decide +kernel
  obtain ⟨⟨t, s⟩, ht, heq⟩ := Option.map_eq_some_iff.mp htrace
  obtain ⟨hsent, hresponses⟩ := Prod.mk.inj heq
  have hrun : pacing.Run t s := .of_trace (.init ⟨_, by decide, rfl⟩) ht
  exact ⟨t, s, hrun, hsent, hresponses, paced_of_run hrun⟩

end Heartbeat

end Kiteq

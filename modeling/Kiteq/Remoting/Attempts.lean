import Kiteq.Lib.History
import Kiteq.Remoting.Retrying

/-!
# Every call ends

A call of `start` or `reconnect` posts an attempt to connect, sleeps and looks at the status, at
most ten times.  `ends_of_run` says that whatever the other threads and the network do meanwhile,
a call takes a bounded number of steps, and a `start` is never held up by anybody.  A call that
gives up before it has issued a request has posted all of its ten attempts: nothing ever stores
the `STOP` that would make it give up earlier.
-/

namespace Kiteq

open Lib System

/-! ## Accounts -/

/-- The most steps that a call still takes. -/
def InvocationPc.stepsLeft : InvocationPc → ℕ
  | .retry n => 34 - 3 * n
  | .slept n => 36 - 3 * n
  | .tested n => 35 - 3 * n
  | .recovered => 5
  | .connecting => 4
  | .awaiting => 3
  | .authenticated => 2
  | .restoring => 1
  | .done _ => 0

/-- Where a call can be that has taken so many steps and posted so many attempts. -/
def Invocation.Posted (c : Invocation) (steps posts : ℕ) : Prop :=
  match c.pc with
  | .retry n => posts = n ∧ n < 10
  | .slept n | .tested n => posts = n ∧ 0 < n ∧ n ≤ 10
  | .recovered | .done true => posts ≤ 10
  | .connecting => posts ≤ 10 ∧ c.op ≠ .start
  | .awaiting | .authenticated | .restoring => posts ≤ 10 ∧ c.request ≠ none
  | .done false => posts ≤ 10 ∧ (c.request = none → steps = 0 ∨ posts = 10)

/-- A call has taken so many steps and posted so many attempts. -/
structure Invocation.Accounts (c : Invocation) (steps posts : ℕ) : Prop where
  fuel : steps + c.pc.stepsLeft ≤ 34
  posted : c.Posted steps posts
  start : c.op = .start → c.request = none

namespace Invocation.Accounts

variable {c : Invocation} {pc : InvocationPc} {status : STATE} {steps posts n : ℕ}

theorem posts_le (h : c.Accounts steps posts) : posts ≤ 10 := by
  have hposted := h.posted
  unfold Posted at hposted
  split at hposted <;> omega

/-- `reconnect0` posts an attempt. -/
theorem post (h : c.Accounts steps posts) (hpc : c.pc = .retry n) :
    ({ c with pc := .slept (n + 1) } : Invocation).Accounts (steps + 1) (posts + 1) := by
  obtain ⟨hfuel, hposted, hstart⟩ := h
  simp only [hpc, Posted, InvocationPc.stepsLeft] at hfuel hposted
  exact ⟨by simp only [InvocationPc.stepsLeft]; omega, by simp only [Posted]; omega, hstart⟩

/-- Every other step of the retry loop, and those after it. -/
theorem move (h : c.Accounts steps posts) (hpc : Control.Moves status c pc)
    (hstop : status ≠ .STOP) :
    ({ c with pc } : Invocation).Accounts (steps + 1) posts := by
  obtain ⟨hfuel, hposted, hstart⟩ := h
  cases hpc with
  | connected hc | unconnected hc =>
      simp only [hc, Posted, InvocationPc.stepsLeft] at hfuel hposted
      exact ⟨by simp only [InvocationPc.stepsLeft]; omega, by simp only [Posted]; omega, hstart⟩
  | exhausted hc hend =>
      have hten := hend.resolve_right hstop
      simp only [hc, Posted, InvocationPc.stepsLeft] at hfuel hposted
      exact ⟨by simp only [InvocationPc.stepsLeft]; omega,
        ⟨by omega, fun _ ↦ .inr (by omega)⟩, hstart⟩
  | again hc hlt =>
      simp only [hc, Posted, InvocationPc.stepsLeft] at hfuel hposted
      exact ⟨by simp only [InvocationPc.stepsLeft]; omega, by simp only [Posted]; omega, hstart⟩
  | started hc =>
      simp only [hc, Posted, InvocationPc.stepsLeft] at hfuel hposted
      exact ⟨by simp only [InvocationPc.stepsLeft]; omega, hposted, hstart⟩
  | handshake hc hop =>
      simp only [hc, Posted, InvocationPc.stepsLeft] at hfuel hposted
      exact ⟨by simp only [InvocationPc.stepsLeft]; omega, ⟨hposted, hop⟩, hstart⟩
  | accepted hc =>
      simp only [hc, Posted, InvocationPc.stepsLeft] at hfuel hposted
      exact ⟨by simp only [InvocationPc.stepsLeft]; omega, hposted, hstart⟩
  | refused hc =>
      simp only [hc, Posted, InvocationPc.stepsLeft] at hfuel hposted
      exact ⟨by simp only [InvocationPc.stepsLeft]; omega,
        ⟨hposted.1, fun hnone ↦ absurd hnone hposted.2⟩, hstart⟩

/-- `sendConnAndGet` builds its request. -/
theorem request (h : c.Accounts steps posts) (hpc : c.pc = .connecting) (i : ℕ) :
    ({ c with pc := .awaiting, request := some i } : Invocation).Accounts (steps + 1) posts := by
  obtain ⟨hfuel, hposted, -⟩ := h
  simp only [hpc, Posted, InvocationPc.stepsLeft] at hfuel hposted
  exact ⟨by simp only [InvocationPc.stepsLeft]; omega, ⟨hposted.1, Option.some_ne_none i⟩,
    fun hop ↦ absurd hop hposted.2⟩

/-- `RUNNING` is stored. -/
theorem store (h : c.Accounts steps posts) (hpc : c.Storing) :
    ({ c with
      pc := if c.pc = .authenticated ∧ c.op = .reconnect then .restoring else .done true } :
        Invocation).Accounts (steps + 1) posts := by
  obtain ⟨hfuel, hposted, hstart⟩ := h
  rcases hpc with hc | hc
  · simp only [hc, Posted, InvocationPc.stepsLeft] at hfuel hposted
    simp only [hc, true_and]
    split
    · exact ⟨by simp only [InvocationPc.stepsLeft]; omega, hposted, hstart⟩
    · exact ⟨by simp only [InvocationPc.stepsLeft]; omega, hposted.1, hstart⟩
  · simp only [hc, Posted, InvocationPc.stepsLeft] at hfuel hposted
    simp only [hc, reduceCtorEq, false_and, if_false]
    exact ⟨by simp only [InvocationPc.stepsLeft]; omega, hposted.1, hstart⟩

end Invocation.Accounts

/-! ## Runs -/

/-- A step of call `j`. -/
def ClientAction.takenBy (j : ℕ) : ClientAction → Bool
  | .call k | .sendConn k _ => k = j
  | _ => false

/-- Call `j` posts an attempt. -/
def Control.posting (j : ℕ) (a : ClientAction) (s s' : Control) : Bool :=
  a.takenBy j && decide (s.attempts.length < s'.attempts.length)

/-- The steps that call `j` has taken. -/
def stepsOf (t : List (Transition ClientAction Client)) (j : ℕ) : ℕ :=
  t.countP fun x ↦ x.action.takenBy j

/-- The attempts that call `j` has posted. -/
def postsOf (t : List (Transition ClientAction Client)) (j : ℕ) : ℕ :=
  t.countP fun x ↦ Control.posting j x.action x.pre.control x.post.control

/-- The calls after a run of which these are the counts of steps and of attempts. -/
structure Accounted (calls : List Invocation) (steps posts : ℕ → ℕ) : Prop where
  present : ∀ (j : ℕ) (c : Invocation), calls[j]? = some c → c.Accounts (steps j) (posts j)
  absent : ∀ j, calls.length ≤ j → steps j = 0 ∧ posts j = 0

namespace Accounted

variable {calls : List Invocation} {steps posts steps' posts' : ℕ → ℕ} {c c' : Invocation} {j : ℕ}

/-- A call begins. -/
theorem concat (h : Accounted calls steps posts) (hc : c.Accounts 0 0) :
    Accounted (calls ++ [c]) steps posts := by
  constructor
  · intro j c' hc'
    rcases getElem?_concat_iff.mp hc' with hc' | ⟨rfl, rfl⟩
    · exact h.present j c' hc'
    · obtain ⟨hsteps, hposts⟩ := h.absent _ le_rfl
      rwa [hsteps, hposts]
  · intro j hj
    rw [List.length_append, List.length_singleton] at hj
    exact h.absent j (Nat.le_of_succ_le hj)

/-- A call takes a step. -/
theorem set (h : Accounted calls steps posts) (hc : calls[j]? = some c)
    (hc' : c'.Accounts (steps' j) (posts' j))
    (hother : ∀ k, k ≠ j → steps' k = steps k ∧ posts' k = posts k) :
    Accounted (calls.set j c') steps' posts' := by
  constructor
  · refine forall_set hc hc' fun k b hk hb ↦ ?_
    obtain ⟨hsteps, hposts⟩ := hother k hk
    rw [hsteps, hposts]
    exact h.present k b hb
  · intro k hk
    rw [List.length_set] at hk
    have hne : k ≠ j := by
      rintro rfl
      exact absurd hk (Nat.not_le.mpr (List.getElem?_eq_some_iff.mp hc).1)
    obtain ⟨hsteps, hposts⟩ := hother k hne
    rw [hsteps, hposts]
    exact h.absent k hk

/-- **Step lemma.** -/
theorem step {a : ClientAction} {s s' : Control} (h : Accounted s.calls steps posts)
    (hstep : Control.Step a s s') (hstop : s.status ≠ .STOP) :
    Accounted s'.calls (fun j ↦ steps j + (a.takenBy j).toNat)
      (fun j ↦ posts j + (Control.posting j a s s').toNat) := by
  -- call `j` takes a step, posting an attempt or not
  have htaken (j : ℕ) {c c' : Invocation} {s' : Control} (ha : ∀ k, a.takenBy k = decide (j = k))
      (hc : s.calls[j]? = some c) (hcalls : s'.calls = s.calls.set j c')
      (hc' : c'.Accounts (steps j + 1)
        (posts j + (decide (s.attempts.length < s'.attempts.length)).toNat)) :
      Accounted s'.calls (fun j ↦ steps j + (a.takenBy j).toNat)
        (fun j ↦ posts j + (Control.posting j a s s').toNat) := by
    rw [hcalls]
    refine h.set hc ?_ fun k hk ↦ ?_
    · simpa [Control.posting, ha] using hc'
    · simp [Control.posting, ha, Ne.symm hk]
  have hother {calls : List Invocation} {s' : Control} (ha : ∀ k, a.takenBy k = false)
      (hcalls : s'.calls = calls) (hc : Accounted calls steps posts) :
      Accounted s'.calls (fun j ↦ steps j + (a.takenBy j).toNat)
        (fun j ↦ posts j + (Control.posting j a s s').toNat) := by
    simpa [Control.posting, ha, hcalls] using hc
  cases hstep with
  | plain ha =>
      refine hother (fun k ↦ ?_) rfl h
      cases a <;> first | rfl | cases ha
  | enter | refuse | handshake =>
      refine hother (fun _ ↦ rfl) rfl (h.concat ⟨?_, ?_, ?_⟩) <;>
        simp [InvocationPc.stepsLeft, Invocation.Posted]
  | @post j n _ c hc hpc =>
      refine htaken j (fun _ ↦ rfl) hc rfl ?_
      simpa using (h.present j c hc).post hpc
  | @move j _ c pc hc hpc =>
      refine htaken j (fun _ ↦ rfl) hc rfl ?_
      simpa using (h.present j c hc).move hpc hstop
  | @request j id i _ c hc hpc =>
      refine htaken j (fun _ ↦ rfl) hc rfl ?_
      simpa using (h.present j c hc).request hpc i
  | @store j _ c hc hpc =>
      refine htaken j (fun _ ↦ rfl) hc rfl ?_
      simpa using (h.present j c hc).store hpc
  | attempt ha => exact hother (by rcases ha with ⟨err, rfl⟩ | rfl <;> intro k <;> rfl) rfl h
  | connect => exact hother (fun _ ↦ rfl) rfl h

end Accounted

namespace Client

variable {M : Miscast} {E : Platform} {P : Protobuf} {s : Client}
  {t : List (Transition ClientAction Client)}

theorem accounted_of_run (hrun : (client M E P).Run t s) :
    Accounted s.calls (stepsOf t) (postsOf t) := by
  induction hrun with
  | init h0 =>
      obtain ⟨header, rfl⟩ := h0
      exact ⟨by simp [new], fun _ _ ↦ ⟨rfl, rfl⟩⟩
  | @step t a s s' hrun hstep ih =>
      have hnext := ih.step (control_step hstep) (status_ne_stop hrun.reachable)
      have hsteps : stepsOf (⟨s, a, s'⟩ :: t) = fun j ↦ stepsOf t j + (a.takenBy j).toNat :=
        funext fun j ↦ countP_cons_toNat ..
      have hposts : postsOf (⟨s, a, s'⟩ :: t) = fun j ↦
          postsOf t j + (Control.posting j a s.control s'.control).toNat :=
        funext fun j ↦ countP_cons_toNat ..
      rw [hsteps, hposts]
      exact hnext

/-- A call that has something to do other than to issue its request or to wait for it can do
it. -/
theorem exists_callStep {j : ℕ} {c : Invocation} (hconn : c.pc ≠ .connecting)
    (hawait : c.pc ≠ .awaiting) (hdone : ∀ b, c.pc ≠ .done b) :
    ∃ s', s.callStep M j c = some s' := by
  unfold callStep
  cases hpc : c.pc with
  | retry | authenticated | restoring => exact ⟨_, rfl⟩
  | slept | tested | recovered =>
      dsimp only
      split <;> exact ⟨_, rfl⟩
  | connecting => exact absurd hpc hconn
  | awaiting => exact absurd hpc hawait
  | done b => exact absurd hpc (hdone b)

/-- What a run has done for the calls, and what they can still do. -/
structure Ends (M : Miscast) (E : Platform) (P : Protobuf)
    (t : List (Transition ClientAction Client)) (s : Client) : Prop where
  posts : ∀ j, postsOf t j ≤ 10
  steps : ∀ j, stepsOf t j ≤ 34
  /-- A call that has returned false without a request was not let in, or has posted all its
  attempts. -/
  exhausted : ∀ (j : ℕ) (c : Invocation), s.calls[j]? = some c → c.pc = .done false →
    c.request = none → stepsOf t j = 0 ∨ postsOf t j = 10
  /-- A `start` never issues a request. -/
  start : ∀ (j : ℕ) (c : Invocation), s.calls[j]? = some c → c.op = .start → c.request = none
  /-- Nor does it wait for anybody. -/
  progress : ∀ (j : ℕ) (c : Invocation), s.calls[j]? = some c → c.op = .start →
    (∀ b, c.pc ≠ .done b) → ∃ s', (client M E P).step (.call j) s = some s'

/-- **Every call ends.** -/
theorem ends_of_run (hrun : (client M E P).Run t s) : Ends M E P t s := by
  have hacc := accounted_of_run hrun
  have hbounds (j : ℕ) : postsOf t j ≤ 10 ∧ stepsOf t j ≤ 34 := by
    cases hc : s.calls[j]? with
    | none =>
        obtain ⟨hsteps, hposts⟩ := hacc.absent j (List.getElem?_eq_none_iff.mp hc)
        omega
    | some c =>
        have hcall := hacc.present j c hc
        exact ⟨hcall.posts_le, Nat.le_of_add_right_le hcall.fuel⟩
  refine ⟨fun j ↦ (hbounds j).1, fun j ↦ (hbounds j).2, ?_, ?_, ?_⟩
  · intro j c hc hpc hreq
    have hposted := (hacc.present j c hc).posted
    rw [Invocation.Posted, hpc] at hposted
    exact hposted.2 hreq
  · exact fun j c hc ↦ (hacc.present j c hc).start
  · intro j c hc hop hdone
    obtain ⟨-, hposted, hstart⟩ := hacc.present j c hc
    unfold Invocation.Posted at hposted
    have hconn : c.pc ≠ .connecting := by
      intro hpc
      rw [hpc] at hposted
      exact hposted.2 hop
    have hawait : c.pc ≠ .awaiting := by
      intro hpc
      rw [hpc] at hposted
      exact hposted.2 (hstart hop)
    obtain ⟨s', hs'⟩ := exists_callStep (M := M) (s := s) (j := j) hconn hawait hdone
    exact ⟨s', by simp [client, step, hc, hs']⟩

/-- A `start` that finds no server gives up after ten attempts. -/
theorem ends_unreachable : ∃ t s, (client zeroed .gcc proto2).Run t s ∧
    s.calls[0]? = some ⟨.start, .done false, none⟩ ∧ stepsOf t 0 = 30 ∧ postsOf t 0 = 10 ∧
      Ends zeroed .gcc proto2 t s := by
  have htrace : ((client zeroed .gcc proto2).trace (unreachableRun ++ [.call 0]) []
      (.new ⟨0, 0, 0, 0⟩)).map (fun r ↦ (r.2.calls[0]?, stepsOf r.1 0, postsOf r.1 0)) =
      some (some ⟨.start, .done false, none⟩, 30, 10) := by decide +kernel
  obtain ⟨⟨t, s⟩, ht, heq⟩ := Option.map_eq_some_iff.mp htrace
  simp only [Prod.mk.injEq] at heq
  obtain ⟨hcall, hsteps, hposts⟩ := heq
  have hrun : (client zeroed .gcc proto2).Run t s := .of_trace (.init ⟨_, rfl⟩) ht
  exact ⟨t, s, hrun, hcall, hsteps, hposts, ends_of_run hrun⟩

end Client

end Kiteq

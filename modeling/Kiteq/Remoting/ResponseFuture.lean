import Kiteq.Lib.System
import Kiteq.Lib.Table
import Kiteq.Remoting.Session
import Mathlib.Logic.Function.Basic

/-!
# The registry of requests

`ResponseFuture::futureMap` is one table for all clients of a process, guarded by `maplock`.  A
request is constructed, entered into the table, written, and waited for; on the other side the
IO thread of a client takes a response, removes the request with its id from the table and
fulfils its promise, all of it inside one critical section.

`registry` is the transition system of this protocol, with any number of requests and of IO
threads.  The critical section of `receiveResponse` is two steps, since the waiting thread tests
its promise without the lock.  What a response did to a request, and whether the request was
removed by its own timeout, is kept as history beside the state of the program.
-/

namespace Kiteq

open Lib

/-! ## Requests -/

/-- The functions that issue requests. -/
inductive Caller where
  | sendHeartBeatAndGet
  | sendConnAndGet
  | sendMessageAndGet
deriving DecidableEq, Repr

/-- Where the caller of a request is. -/
inductive RequestPc where
  | constructed
  /-- `ResponseFutureUsed` has returned. -/
  | registered
  /-- The request has been written; the caller is in the timed wait. -/
  | written
  /-- `has_value()` was false; the caller is about to lock and erase. -/
  | gaveUp
  /-- `getResponse` has returned. -/
  | returned (resp : Option KiteResponse)
  /-- The wait was interrupted. -/
  | interrupted
deriving DecidableEq

/-- A `ResponseFuture`, with the state of its caller and its history. -/
structure ResponseFuture where
  caller : Caller
  requestId : CInt
  pc : RequestPc
  /-- The value of the promise. -/
  value : Option KiteResponse
  /-- How often `setResponse` was called. -/
  setCalls : ℕ
  /-- The packet on whose account `receiveResponse` removed the request from the table. -/
  answeredBy : Option KitePacket
  /-- The caller has erased the request after its timeout. -/
  removed : Bool
deriving DecidableEq

/-- `ResponseFuture(int id)`. -/
def ResponseFuture.new (caller : Caller) (id : CInt) : ResponseFuture where
  caller := caller
  requestId := id
  pc := .constructed
  value := none
  setCalls := 0
  answeredBy := none
  removed := false

/-- The request has been written. -/
def ResponseFuture.Sent (f : ResponseFuture) : Prop := f.pc ≠ .constructed ∧ f.pc ≠ .registered

/-! ## The table -/

/-- The requests, and the table they are looked up in.  A `ResponseFuture *` is an index. -/
structure Registry where
  futures : List ResponseFuture
  futureMap : CInt → Option ℕ
  /-- The request that `receiveResponse` has erased and not fulfilled; it holds `maplock`. -/
  critical : Option (ℕ × KiteResponse)
  /-- `set_value` has thrown `promise_already_satisfied`. -/
  threw : Bool

/-- The steps of the callers and of the IO threads. -/
inductive RegistryAction where
  | construct (caller : Caller) (id : CInt)
  | used (i : ℕ)
  | write (i : ℕ)
  /-- The timed wait is over, and `has_value()` is tested. -/
  | test (i : ℕ)
  | erase (i : ℕ)
  | interrupt (i : ℕ)
  /-- `handle_read_pkg` dispatches a packet; for a response, up to the erasure. -/
  | dispatch (pkg : KitePacket)
  /-- The rest of `receiveResponse`. -/
  | setResponse

namespace Registry

/-- The response a packet carries. -/
def responseOf (pkg : KitePacket) : KiteResponse := ⟨pkg.opaqueId, pkg.message⟩

variable (s : Registry)

/-- A request with an id no other request has. -/
def construct (caller : Caller) (id : CInt) : Option Registry :=
  if s.futures.all (·.requestId ≠ id) then
    some { s with futures := s.futures ++ [.new caller id] }
  else none

/-- `ResponseFutureUsed()`. -/
def responseFutureUsed (i : ℕ) : Option Registry :=
  match s.futures[i]?, s.critical with
  | some f, none =>
    if f.pc = .constructed then
      some { s with
        futures := s.futures.set i { f with pc := .registered }
        futureMap :=
          if s.futureMap f.requestId = none then
            Function.update s.futureMap f.requestId (some i)
          else s.futureMap }
    else none
  | _, _ => none

/-- The `async_write` of the request. -/
def write (i : ℕ) : Option Registry :=
  match s.futures[i]? with
  | some f =>
    if f.pc = .registered then
      some { s with futures := s.futures.set i { f with pc := .written } }
    else none
  | none => none

/-- `getResponse(timeout)` up to and including `has_value()`, and `get()` if there is one. -/
def test (i : ℕ) : Option Registry :=
  match s.futures[i]? with
  | some f =>
    if f.pc = .written then
      match f.value with
      | some resp =>
        some { s with futures := s.futures.set i { f with pc := .returned (some resp) } }
      | none => some { s with futures := s.futures.set i { f with pc := .gaveUp } }
    else none
  | none => none

/-- The rest of `getResponse(timeout)`. -/
def erase (i : ℕ) : Option Registry :=
  match s.futures[i]?, s.critical with
  | some f, none =>
    if f.pc = .gaveUp then
      some { s with
        futures := s.futures.set i { f with pc := .returned none, removed := true }
        futureMap := Function.update s.futureMap f.requestId none }
    else none
  | _, _ => none

/-- `thread_interrupted` leaves the timed wait. -/
def interrupt (i : ℕ) : Option Registry :=
  match s.futures[i]? with
  | some f =>
    if f.pc = .written then
      some { s with futures := s.futures.set i { f with pc := .interrupted } }
    else none
  | none => none

/-- `receiveResponse(resp)` up to the erasure, on account of a packet. -/
def receiveResponse (pkg : KitePacket) (resp : KiteResponse) : Option Registry :=
  match s.critical with
  | some _ => none
  | none =>
    match s.futureMap resp.requestId with
    | none => some s
    | some i =>
      match s.futures[i]? with
      | none => none
      | some f =>
        some { s with
          futures := s.futures.set i { f with answeredBy := some pkg }
          futureMap := Function.update s.futureMap resp.requestId none
          critical := some (i, resp) }

/-- `setResponse(resp)` on the request that was found. -/
def setResponse : Option Registry :=
  match s.critical with
  | none => none
  | some (i, resp) =>
    match s.futures[i]? with
    | none => none
    | some f =>
      let f := { f with setCalls := f.setCalls + 1 }
      match f.value with
      | none =>
        some { s with
          futures := s.futures.set i { f with value := some resp }
          critical := none }
      | some _ =>
        some { s with futures := s.futures.set i f, critical := none, threw := true }

/-- The dispatch of a packet, as far as it concerns requests. -/
def dispatch (pkg : KitePacket) : Option Registry :=
  match pkg.dispatch with
  | some (.receiveResponse resp) => s.receiveResponse pkg resp
  | _ => some s

/-- The request that `receiveResponse` finds for a packet. -/
def found (pkg : KitePacket) : Option ResponseFuture :=
  match pkg.dispatch with
  | some (.receiveResponse resp) => (s.futureMap resp.requestId).bind (s.futures[·]?)
  | _ => none

/-- One step of the protocol. -/
def step : RegistryAction → Registry → Option Registry
  | .construct caller id, s => s.construct caller id
  | .used i, s => s.responseFutureUsed i
  | .write i, s => s.write i
  | .test i, s => s.test i
  | .erase i, s => s.erase i
  | .interrupt i, s => s.interrupt i
  | .dispatch pkg, s => s.dispatch pkg
  | .setResponse, s => s.setResponse

/-- A table without requests. -/
def empty : Registry := ⟨[], fun _ ↦ none, none, false⟩

end Registry

/-- The protocol of requests and responses. -/
def registry : System RegistryAction Registry where
  init s := s = .empty
  step := Registry.step

/-! ## What each step does -/

namespace Registry

variable {s s' : Registry} {i : ℕ}

theorem construct_cases {caller : Caller} {id : CInt} (h : s.construct caller id = some s') :
    (∀ f ∈ s.futures, f.requestId ≠ id) ∧
      s' = { s with futures := s.futures ++ [.new caller id] } := by
  unfold construct at h
  split at h
  · rename_i hall
    cases h
    exact ⟨by simpa using hall, rfl⟩
  · cases h

theorem responseFutureUsed_cases (h : s.responseFutureUsed i = some s') :
    ∃ f, s.futures[i]? = some f ∧ s.critical = none ∧ f.pc = .constructed ∧
      s' = { s with
        futures := s.futures.set i { f with pc := .registered }
        futureMap :=
          if s.futureMap f.requestId = none then
            Function.update s.futureMap f.requestId (some i)
          else s.futureMap } := by
  unfold responseFutureUsed at h
  split at h
  · rename_i f hf hcrit
    split at h
    · rename_i hpc
      cases h
      exact ⟨f, hf, hcrit, hpc, rfl⟩
    · cases h
  · cases h

theorem write_cases (h : s.write i = some s') :
    ∃ f, s.futures[i]? = some f ∧ f.pc = .registered ∧
      s' = { s with futures := s.futures.set i { f with pc := .written } } := by
  unfold write at h
  split at h
  · rename_i f hf
    split at h
    · rename_i hpc
      cases h
      exact ⟨f, hf, hpc, rfl⟩
    · cases h
  · cases h

theorem test_cases (h : s.test i = some s') :
    ∃ f, s.futures[i]? = some f ∧ f.pc = .written ∧
      ((∃ resp, f.value = some resp ∧
          s' = { s with
            futures := s.futures.set i { f with pc := .returned (some resp) } }) ∨
        f.value = none ∧
          s' = { s with futures := s.futures.set i { f with pc := .gaveUp } }) := by
  unfold test at h
  split at h
  · rename_i f hf
    split at h
    · rename_i hpc
      split at h
      · rename_i resp hvalue
        cases h
        exact ⟨f, hf, hpc, .inl ⟨resp, hvalue, rfl⟩⟩
      · rename_i hvalue
        cases h
        exact ⟨f, hf, hpc, .inr ⟨hvalue, rfl⟩⟩
    · cases h
  · cases h

theorem erase_cases (h : s.erase i = some s') :
    ∃ f, s.futures[i]? = some f ∧ s.critical = none ∧ f.pc = .gaveUp ∧
      s' = { s with
        futures := s.futures.set i { f with pc := .returned none, removed := true }
        futureMap := Function.update s.futureMap f.requestId none } := by
  unfold erase at h
  split at h
  · rename_i f hf hcrit
    split at h
    · rename_i hpc
      cases h
      exact ⟨f, hf, hcrit, hpc, rfl⟩
    · cases h
  · cases h

theorem interrupt_cases (h : s.interrupt i = some s') :
    ∃ f, s.futures[i]? = some f ∧ f.pc = .written ∧
      s' = { s with futures := s.futures.set i { f with pc := .interrupted } } := by
  unfold interrupt at h
  split at h
  · rename_i f hf
    split at h
    · rename_i hpc
      cases h
      exact ⟨f, hf, hpc, rfl⟩
    · cases h
  · cases h

/-- A packet that is no response, and a response nobody waits for, change nothing. -/
theorem dispatch_cases {pkg : KitePacket} (h : s.dispatch pkg = some s') :
    s' = s ∨ ∃ resp i f, pkg.dispatch = some (.receiveResponse resp) ∧ s.critical = none ∧
      s.futureMap resp.requestId = some i ∧ s.futures[i]? = some f ∧
      s' = { s with
        futures := s.futures.set i { f with answeredBy := some pkg }
        futureMap := Function.update s.futureMap resp.requestId none
        critical := some (i, resp) } := by
  unfold dispatch at h
  split at h
  · rename_i resp hresp
    unfold receiveResponse at h
    split at h
    · cases h
    · rename_i hcrit
      split at h
      · cases h
        exact .inl rfl
      · rename_i i hi
        split at h
        · cases h
        · rename_i f hf
          cases h
          exact .inr ⟨resp, i, f, hresp, hcrit, hi, hf, rfl⟩
  · cases h
    exact .inl rfl

theorem setResponse_cases (h : s.setResponse = some s') :
    ∃ i resp f, s.critical = some (i, resp) ∧ s.futures[i]? = some f ∧
      (f.value = none ∧ s' = { s with
          futures := s.futures.set i { f with setCalls := f.setCalls + 1, value := some resp }
          critical := none } ∨
        f.value ≠ none ∧ s' = { s with
          futures := s.futures.set i { f with setCalls := f.setCalls + 1 }
          critical := none
          threw := true }) := by
  unfold setResponse at h
  split at h
  · cases h
  · rename_i i resp hcrit
    split at h
    · cases h
    · rename_i f hf
      dsimp only at h
      split at h
      · rename_i hvalue
        cases h
        exact ⟨i, resp, f, hcrit, hf, .inl ⟨hvalue, rfl⟩⟩
      · rename_i v hvalue
        cases h
        exact ⟨i, resp, f, hcrit, hf, .inr ⟨by simp [hvalue], rfl⟩⟩

/-! ## What a step does to one request -/

/-- A request of which two states are given: neither its caller nor its id changes, an answer
comes from the dispatch of a packet that finds it, and it is sent by its own `write`. -/
structure Evolves (s : Registry) (a : RegistryAction) (i : ℕ) (f g : ResponseFuture) : Prop where
  caller : g.caller = f.caller
  requestId : g.requestId = f.requestId
  answeredBy : g.answeredBy = f.answeredBy ∨
    ∃ pkg, a = .dispatch pkg ∧ g.answeredBy = some pkg ∧ s.found pkg = some f
  sent : g.Sent → f.Sent ∨ a = .write i

theorem Evolves.refl (a : RegistryAction) (i : ℕ) (f : ResponseFuture) : s.Evolves a i f f :=
  ⟨rfl, rfl, .inl rfl, .inl⟩

/-- Each request after a step has evolved from one before it, or has just been constructed. -/
theorem step_evolves {a : RegistryAction} (h : step a s = some s') {i : ℕ} {g : ResponseFuture}
    (hg : s'.futures[i]? = some g) :
    (∃ f, s.futures[i]? = some f ∧ s.Evolves a i f g) ∨
      ∃ caller id, a = .construct caller id ∧ i = s.futures.length ∧ g = .new caller id := by
  have hset {j : ℕ} {f f' : ResponseFuture} (hf : s.futures[j]? = some f)
      (hg : (s.futures.set j f')[i]? = some g) (hev : s.Evolves a j f f') :
      ∃ f, s.futures[i]? = some f ∧ s.Evolves a i f g := by
    rcases (getElem?_set_iff hf).mp hg with ⟨rfl, rfl⟩ | ⟨-, hg⟩
    · exact ⟨f, hf, hev⟩
    · exact ⟨g, hg, .refl a i g⟩
  cases a with
  | construct caller id =>
      obtain ⟨-, rfl⟩ := construct_cases h
      rcases getElem?_concat_iff.mp hg with hg | ⟨hi, rfl⟩
      · exact .inl ⟨g, hg, .refl _ i g⟩
      · exact .inr ⟨caller, id, rfl, hi, rfl⟩
  | used j =>
      obtain ⟨f, hf, -, -, rfl⟩ := responseFutureUsed_cases h
      exact .inl (hset hf hg ⟨rfl, rfl, .inl rfl, by simp [ResponseFuture.Sent]⟩)
  | write j =>
      obtain ⟨f, hf, -, rfl⟩ := write_cases h
      exact .inl (hset hf hg ⟨rfl, rfl, .inl rfl, fun _ ↦ .inr rfl⟩)
  | test j =>
      obtain ⟨f, hf, hpc, ⟨resp, -, rfl⟩ | ⟨-, rfl⟩⟩ := test_cases h
      · exact .inl (hset hf hg ⟨rfl, rfl, .inl rfl, by simp [ResponseFuture.Sent, hpc]⟩)
      · exact .inl (hset hf hg ⟨rfl, rfl, .inl rfl, by simp [ResponseFuture.Sent, hpc]⟩)
  | erase j =>
      obtain ⟨f, hf, -, hpc, rfl⟩ := erase_cases h
      exact .inl (hset hf hg ⟨rfl, rfl, .inl rfl, by simp [ResponseFuture.Sent, hpc]⟩)
  | interrupt j =>
      obtain ⟨f, hf, hpc, rfl⟩ := interrupt_cases h
      exact .inl (hset hf hg ⟨rfl, rfl, .inl rfl, by simp [ResponseFuture.Sent, hpc]⟩)
  | dispatch pkg =>
      rcases dispatch_cases h with rfl | ⟨resp, j, f, hresp, -, hj, hf, rfl⟩
      · exact .inl ⟨g, hg, .refl _ i g⟩
      · refine .inl (hset hf hg ⟨rfl, rfl, .inr ⟨pkg, rfl, rfl, ?_⟩, .inl⟩)
        simp [found, hresp, hj, hf]
  | setResponse =>
      obtain ⟨j, resp, f, -, hf, ⟨-, rfl⟩ | ⟨-, rfl⟩⟩ := setResponse_cases h
      · exact .inl (hset hf hg ⟨rfl, rfl, .inl rfl, .inl⟩)
      · exact .inl (hset hf hg ⟨rfl, rfl, .inl rfl, .inl⟩)

/-- Requests do not disappear. -/
theorem length_le_of_step {a : RegistryAction} (h : step a s = some s') :
    s.futures.length ≤ s'.futures.length := by
  cases a with
  | construct caller id => obtain ⟨-, rfl⟩ := construct_cases h; simp
  | used j => obtain ⟨f, -, -, -, rfl⟩ := responseFutureUsed_cases h; simp
  | write j => obtain ⟨f, -, -, rfl⟩ := write_cases h; simp
  | test j => obtain ⟨f, -, -, ⟨resp, -, rfl⟩ | ⟨-, rfl⟩⟩ := test_cases h <;> simp
  | erase j => obtain ⟨f, -, -, -, rfl⟩ := erase_cases h; simp
  | interrupt j => obtain ⟨f, -, -, rfl⟩ := interrupt_cases h; simp
  | dispatch pkg =>
      rcases dispatch_cases h with rfl | ⟨resp, j, f, -, -, -, -, rfl⟩
      · exact le_rfl
      · simp
  | setResponse =>
      obtain ⟨j, resp, f, -, -, ⟨-, rfl⟩ | ⟨-, rfl⟩⟩ := setResponse_cases h <;> simp

/-- A request is still there after a step, with its caller and its id. -/
theorem exists_of_step {a : RegistryAction} (h : step a s = some s') {i : ℕ} {f : ResponseFuture}
    (hf : s.futures[i]? = some f) : ∃ g, s'.futures[i]? = some g ∧ s.Evolves a i f g := by
  have hlt := (List.getElem?_eq_some_iff.mp hf).1
  have hlt' := Nat.lt_of_lt_of_le hlt (length_le_of_step h)
  have hg : s'.futures[i]? = some s'.futures[i] := List.getElem?_eq_getElem hlt'
  rcases step_evolves h hg with ⟨f', hf', hev⟩ | ⟨-, -, -, rfl, -⟩
  · cases hf.symm.trans hf'
    exact ⟨_, hg, hev⟩
  · exact absurd hlt (Nat.lt_irrefl _)

end Registry

end Kiteq

import Kiteq.Remoting.Attempts
import Kiteq.Remoting.InOrder
import Mathlib.Logic.Relation

/-!
# Nobody waits for good

Threads wait for each other in two places: for `maplock`, which the IO thread holds while it
fulfils a promise, and for a response, with a timeout.  Neither can hold anybody up for good.
`exists_returned` drives any request to its end, and `exists_done` any call, from every state that
can be reached; they take steps of the request and of the call themselves, and at most the one by
which the IO thread gives the lock back.
-/

namespace Kiteq

open Lib System Relation

/-! ## Requests -/

/-- The most steps that the caller of a request still takes. -/
def RequestPc.stepsLeft : RequestPc → ℕ
  | .constructed => 4
  | .registered => 3
  | .written => 2
  | .gaveUp => 1
  | .returned _ | .interrupted => 0

/-- The steps of the caller of request `i`. -/
def ClientAction.ofRequest (i : ℕ) : ClientAction → Bool
  | .used k | .write k | .test k | .erase k => k = i
  | _ => false

namespace Registry

variable {s s' : Registry} {a : RegistryAction} {i : ℕ} {f g : ResponseFuture}

/-- Only the critical section of `receiveResponse` takes the lock and gives it back. -/
theorem critical_of_step (h : step a s = some s') (hdispatch : ∀ pkg, a ≠ .dispatch pkg)
    (hset : a ≠ .setResponse) : s'.critical = s.critical := by
  cases a with
  | construct caller id => obtain ⟨-, rfl⟩ := construct_cases h; rfl
  | used j => obtain ⟨f, -, -, -, rfl⟩ := responseFutureUsed_cases h; rfl
  | write j => obtain ⟨f, -, -, rfl⟩ := write_cases h; rfl
  | test j => obtain ⟨f, -, -, ⟨resp, -, rfl⟩ | ⟨-, rfl⟩⟩ := test_cases h <;> rfl
  | erase j => obtain ⟨f, -, -, -, rfl⟩ := erase_cases h; rfl
  | interrupt j => obtain ⟨f, -, -, rfl⟩ := interrupt_cases h; rfl
  | dispatch pkg => exact absurd rfl (hdispatch pkg)
  | setResponse => exact absurd rfl hset

/-- A request that was interrupted has been so before, or was by this step. -/
theorem interrupted_of_step (h : step a s = some s') (hg : s'.futures[i]? = some g)
    (hpc : g.pc = .interrupted) :
    (∃ f, s.futures[i]? = some f ∧ f.pc = .interrupted ∧ f.caller = g.caller) ∨
      a = .interrupt i := by
  have hset {j : ℕ} {f f' : ResponseFuture} (hf : s.futures[j]? = some f)
      (hg : (s.futures.set j f')[i]? = some g) (hf' : f'.pc = .interrupted →
        (f.pc = .interrupted ∧ f.caller = f'.caller) ∨ a = .interrupt j) :
      (∃ f, s.futures[i]? = some f ∧ f.pc = .interrupted ∧ f.caller = g.caller) ∨
        a = .interrupt i := by
    rcases (getElem?_set_iff hf).mp hg with ⟨rfl, rfl⟩ | ⟨-, hg⟩
    · exact (hf' hpc).imp_left fun hold ↦ ⟨f, hf, hold⟩
    · exact .inl ⟨g, hg, hpc, rfl⟩
  cases a with
  | construct caller id =>
      obtain ⟨-, rfl⟩ := construct_cases h
      rcases getElem?_concat_iff.mp hg with hg | ⟨-, rfl⟩
      · exact .inl ⟨g, hg, hpc, rfl⟩
      · cases hpc
  | used j =>
      obtain ⟨f, hf, -, -, rfl⟩ := responseFutureUsed_cases h
      exact hset hf hg (by simp)
  | write j =>
      obtain ⟨f, hf, -, rfl⟩ := write_cases h
      exact hset hf hg (by simp)
  | test j =>
      obtain ⟨f, hf, -, ⟨resp, -, rfl⟩ | ⟨-, rfl⟩⟩ := test_cases h
      · exact hset hf hg (by simp)
      · exact hset hf hg (by simp)
  | erase j =>
      obtain ⟨f, hf, -, -, rfl⟩ := erase_cases h
      exact hset hf hg (by simp)
  | interrupt j =>
      obtain ⟨f, hf, -, rfl⟩ := interrupt_cases h
      exact hset hf hg fun _ ↦ .inr rfl
  | dispatch pkg =>
      rcases dispatch_cases h with rfl | ⟨resp, j, f, -, -, -, hf, rfl⟩
      · exact .inl ⟨g, hg, hpc, rfl⟩
      · exact hset hf hg fun hpc ↦ .inl ⟨hpc, rfl⟩
  | setResponse =>
      obtain ⟨j, resp, f, -, hf, ⟨-, rfl⟩ | ⟨-, rfl⟩⟩ := setResponse_cases h
      · exact hset hf hg fun hpc ↦ .inl ⟨hpc, rfl⟩
      · exact hset hf hg fun hpc ↦ .inl ⟨hpc, rfl⟩

/-- While nobody holds the lock, the caller of a request has a next step. -/
theorem exists_step (hcrit : s.critical = none) (hf : s.futures[i]? = some f)
    (hleft : f.pc.stepsLeft ≠ 0) :
    ∃ a ∈ [RegistryAction.used i, .write i, .test i, .erase i], ∃ s' g, step a s = some s' ∧
      s'.futures = s.futures.set i g ∧ g.pc.stepsLeft < f.pc.stepsLeft ∧ g.pc ≠ .interrupted := by
  cases hpc : f.pc with
  | constructed =>
      obtain ⟨s', h⟩ : ∃ s', s.responseFutureUsed i = some s' := by
        simp [responseFutureUsed, hf, hcrit, hpc]
      obtain ⟨f', hf', -, -, rfl⟩ := responseFutureUsed_cases h
      exact ⟨.used i, by simp, _, _, h, rfl, by simp [RequestPc.stepsLeft], by simp⟩
  | registered =>
      obtain ⟨s', h⟩ : ∃ s', s.write i = some s' := by simp [write, hf, hpc]
      obtain ⟨f', hf', -, rfl⟩ := write_cases h
      exact ⟨.write i, by simp, _, _, h, rfl, by simp [RequestPc.stepsLeft], by simp⟩
  | written =>
      obtain ⟨s', h⟩ : ∃ s', s.test i = some s' := by
        cases hvalue : f.value <;> simp [test, hf, hpc, hvalue]
      obtain ⟨f', hf', -, ⟨resp, -, rfl⟩ | ⟨-, rfl⟩⟩ := test_cases h
      · exact ⟨.test i, by simp, _, _, h, rfl, by simp [RequestPc.stepsLeft], by simp⟩
      · exact ⟨.test i, by simp, _, _, h, rfl, by simp [RequestPc.stepsLeft], by simp⟩
  | gaveUp =>
      obtain ⟨s', h⟩ : ∃ s', s.erase i = some s' := by simp [erase, hf, hcrit, hpc]
      obtain ⟨f', hf', -, -, rfl⟩ := erase_cases h
      exact ⟨.erase i, by simp, _, _, h, rfl, by simp [RequestPc.stepsLeft], by simp⟩
  | returned | interrupted => simp [hpc, RequestPc.stepsLeft] at hleft

/-- Whoever holds the lock can give it back. -/
theorem exists_setResponse (hs : s.Inv) (hcrit : s.critical ≠ none) :
    ∃ s' j g, s.setResponse = some s' ∧ s'.critical = none ∧
      s'.futures = s.futures.set j g ∧ ∃ f, s.futures[j]? = some f ∧ g.pc = f.pc := by
  obtain ⟨⟨j, resp⟩, hj⟩ := Option.ne_none_iff_exists'.mp hcrit
  obtain ⟨f, hf, hvalue, -⟩ := (hs.critical j resp).mp hj
  obtain ⟨s', h⟩ : ∃ s', s.setResponse = some s' := by simp [setResponse, hj, hf, hvalue]
  obtain ⟨k, r, f', -, hf', ⟨-, rfl⟩ | ⟨-, rfl⟩⟩ := setResponse_cases h
  · exact ⟨_, k, _, h, rfl, rfl, f', hf', rfl⟩
  · exact ⟨_, k, _, h, rfl, rfl, f', hf', rfl⟩

end Registry

/-! ## Who waits for whom -/

/-- Who holds the lock, who waits for a response, and who was interrupted. -/
structure Attended (registry : Registry) (io : IoPc) (calls : List Invocation)
    (heartbeat : HeartbeatPc) : Prop where
  lock : registry.critical ≠ none → io = .fulfilling
  awaiting : ∀ c ∈ calls, c.pc = .awaiting → ∃ i f, c.request = some i ∧
    registry.futures[i]? = some f ∧ f.caller = .sendConnAndGet
  heartbeat : ∀ i now, heartbeat = .awaiting i now → ∃ f,
    registry.futures[i]? = some f ∧ f.caller = .sendHeartBeatAndGet
  interrupted : ∀ f ∈ registry.futures, f.pc = .interrupted → f.caller = .sendHeartBeatAndGet

namespace Attended

variable {registry registry' : Registry} {io io' : IoPc} {calls calls' : List Invocation}
  {heartbeat heartbeat' : HeartbeatPc} {b : RegistryAction}

theorem setCalls (hs : Attended registry io calls heartbeat) {c : Invocation}
    (hcalls : Adds calls calls' c) (hc : c.pc ≠ .awaiting) :
    Attended registry io calls' heartbeat :=
  ⟨hs.lock, hcalls.forall_mem hs.awaiting fun h ↦ absurd h hc, hs.heartbeat, hs.interrupted⟩

theorem setHeartbeat (hs : Attended registry io calls heartbeat)
    (hbeat : ∀ i now, heartbeat' ≠ .awaiting i now) : Attended registry io calls heartbeat' :=
  ⟨hs.lock, hs.awaiting, fun i now h ↦ absurd h (hbeat i now), hs.interrupted⟩

theorem unlocked (hs : Attended registry io calls heartbeat) (hio : io ≠ .fulfilling) :
    registry.critical = none := by_contra fun h ↦ hio (hs.lock h)

/-- The IO thread goes on without the lock. -/
theorem setIo (hs : Attended registry io calls heartbeat) (hio : io ≠ .fulfilling) :
    Attended registry io' calls heartbeat :=
  ⟨fun h ↦ absurd (hs.unlocked hio) h, hs.awaiting, hs.heartbeat, hs.interrupted⟩

/-- A step of the registry. -/
theorem setRegistry (hs : Attended registry io calls heartbeat)
    (h : Registry.step b registry = some registry')
    (hlock : registry'.critical ≠ none → io' = .fulfilling)
    (hint : ∀ i, b = .interrupt i → ∃ now, heartbeat = .awaiting i now) :
    Attended registry' io' calls heartbeat := by
  have hkeep {i : ℕ} {caller : Caller}
      (hold : ∃ f, registry.futures[i]? = some f ∧ f.caller = caller) :
      ∃ f, registry'.futures[i]? = some f ∧ f.caller = caller := by
    obtain ⟨f, hf, hcaller⟩ := hold
    obtain ⟨g, hg, hev⟩ := Registry.exists_of_step h hf
    exact ⟨g, hg, hev.caller.trans hcaller⟩
  refine ⟨hlock, ?_, fun i now hbeat ↦ hkeep (hs.heartbeat i now hbeat), ?_⟩
  · intro c hc hpc
    obtain ⟨i, f, hi, hf⟩ := hs.awaiting c hc hpc
    obtain ⟨g, hg⟩ := hkeep ⟨f, hf⟩
    exact ⟨i, g, hi, hg⟩
  · intro g hg hpc
    obtain ⟨i, hi⟩ := List.mem_iff_getElem?.mp hg
    rcases Registry.interrupted_of_step h hi hpc with ⟨f, hf, hfpc, hcaller⟩ | rfl
    · rw [← hcaller]
      exact hs.interrupted f (List.mem_of_getElem? hf) hfpc
    · obtain ⟨now, hbeat⟩ := hint i rfl
      obtain ⟨g', hg', hcaller⟩ := hkeep (hs.heartbeat i now hbeat)
      cases hi.symm.trans hg'
      exact hcaller

/-- A step of the caller of a request. -/
theorem setRequest (hs : Attended registry io calls heartbeat)
    (h : Registry.step b registry = some registry') (hb : ∀ pkg, b ≠ .dispatch pkg)
    (hset : b ≠ .setResponse) (hint : ∀ i, b = .interrupt i → ∃ now, heartbeat = .awaiting i now) :
    Attended registry' io calls heartbeat :=
  hs.setRegistry h (Registry.critical_of_step h hb hset ▸ hs.lock) hint

end Attended

namespace Client

variable {M : Miscast} {E : Platform} {P : Protobuf} {s s' : Client}

/-- The new request of a caller. -/
theorem exists_constructed {r r' : Registry} {caller : Caller} {id : CInt}
    (h : Registry.step (.construct caller id) r = some r') :
    ∃ f, r'.futures[r.futures.length]? = some f ∧ f.caller = caller := by
  obtain ⟨-, rfl⟩ := Registry.construct_cases h
  exact ⟨_, getElem?_concat_iff.mpr (.inr ⟨rfl, rfl⟩), rfl⟩

/-- **Step lemma.** -/
theorem attended_step {a : ClientAction}
    (hs : Attended s.registry s.io s.calls s.heartbeat) (h : Client.step M E P a s = some s') :
    Attended s'.registry s'.io s'.calls s'.heartbeat := by
  cases Step.of_step h with
  | enter | refuse | handshake =>
      refine hs.setCalls (adds_concat _ _) ?_
      simp
  | post | connected | unconnected | exhausted | again | reset | accept | reject =>
      refine hs.setCalls (adds_set _ _ _) ?_
      simp
  | started =>
      refine (hs.setCalls (adds_set _ _ _) ?_).setHeartbeat ?_
      · simp
      · simp
  | sendConn hc hpc hreg =>
      have hnext := hs.setRequest hreg (by simp) (by simp) (by simp)
      obtain ⟨f, hf, hcaller⟩ := exists_constructed hreg
      exact ⟨hnext.lock, (adds_set _ _ _).forall_mem hnext.awaiting fun _ ↦
        ⟨_, f, rfl, hf, hcaller⟩, hnext.heartbeat, hnext.interrupted⟩
  | store =>
      refine hs.setCalls (adds_set _ _ _) ?_
      dsimp only
      split <;> simp
  | @request a b _ registry ha hreg =>
      refine hs.setRequest hreg ?_ ?_ ?_ <;> cases a <;> cases ha <;> simp
  | write hreg => exact hs.setRequest hreg (by simp) (by simp) (by simp)
  | beat | alive | missed =>
      refine hs.setHeartbeat ?_
      simp
  | sendHeartBeat hdue hreg =>
      have hnext := hs.setRequest hreg (by simp) (by simp) (by simp)
      obtain ⟨f, hf, hcaller⟩ := exists_constructed hreg
      refine ⟨hnext.lock, hnext.awaiting, fun i now hbeat ↦ ?_, hnext.interrupted⟩
      cases hbeat
      exact ⟨f, hf, hcaller⟩
  | interrupt hawait hint hreg =>
      refine (hs.setRequest hreg (by simp) (by simp) fun i hi ↦ ?_).setHeartbeat (by simp)
      cases hi
      exact ⟨_, hawait⟩
  | resolve | fail | connect | close => exact hs
  | recv hready =>
      refine hs.setIo ?_
      simp [io_of_ready hready]
  | ignore hio | respond hio =>
      refine hs.setIo ?_
      simp [hio]
  | @dispatch _ pkg frame registry hio hreg =>
      refine hs.setRegistry hreg (fun hcrit ↦ ?_) (by simp)
      simp [Option.isSome_iff_ne_none.mpr hcrit]
  | @fulfil _ registry hio hreg =>
      have hcrit : registry.critical = none := by
        obtain ⟨-, -, -, -, -, ⟨-, rfl⟩ | ⟨-, rfl⟩⟩ := Registry.setResponse_cases hreg <;> rfl
      exact hs.setRegistry hreg (fun h ↦ absurd hcrit h) (by simp)

theorem attended_of_reachable (hs : (client M E P).Reachable s) :
    Attended s.registry s.io s.calls s.heartbeat := by
  refine hs.invariant (I := fun s ↦ Attended s.registry s.io s.calls s.heartbeat) ?_
    fun a s s' hs _ h ↦ attended_step hs h
  rintro s ⟨header, rfl⟩
  constructor <;> simp [new, Registry.empty]

/-! ## Everybody can go on -/

/-- A step that a thread waits for: one of its own, or the one by which the IO thread gives the
lock back. -/
def StepOf (M : Miscast) (E : Platform) (P : Protobuf) (own : ClientAction → Client → Prop)
    (s s' : Client) : Prop :=
  ∃ a, (own a s ∨ a = .io ∧ s.io = .fulfilling) ∧ (client M E P).step a s = some s'

/-- The steps of the caller of request `i`, while the calls are these. -/
def ofRequest (i : ℕ) (calls : List Invocation) (a : ClientAction) (s : Client) : Prop :=
  a.ofRequest i = true ∧ s.calls = calls

/-- The steps of call `j`, and those it takes with the request it has issued. -/
def ofCall (j : ℕ) (a : ClientAction) (s : Client) : Prop :=
  a.takenBy j = true ∨ ∃ c i, s.calls[j]? = some c ∧ c.request = some i ∧ a.ofRequest i = true

variable {own own' : ClientAction → Client → Prop}

theorem reachable_of_stepOf (hs : (client M E P).Reachable s)
    (h : ReflTransGen (StepOf M E P own) s s') : (client M E P).Reachable s' := by
  induction h with
  | refl => exact hs
  | tail _ hstep ih =>
      obtain ⟨a, -, hstep⟩ := hstep
      exact .step ih trivial hstep

theorem StepOf.mono (hown : ∀ a s, own a s → own' a s) (h : StepOf M E P own s s') :
    StepOf M E P own' s s' := by
  obtain ⟨a, ha, hstep⟩ := h
  exact ⟨a, ha.imp_left (hown a s), hstep⟩

/-- The lock is free, or becomes so by a step of its holder, which leaves every request and every
call where they are. -/
theorem exists_unlocked (own : ClientAction → Client → Prop) (hs : (client M E P).Reachable s) :
    ∃ s', ReflTransGen (StepOf M E P own) s s' ∧ s'.registry.critical = none ∧
      s'.calls = s.calls ∧ s'.registry.futures.map (·.pc) = s.registry.futures.map (·.pc) := by
  by_cases hcrit : s.registry.critical = none
  · exact ⟨s, .refl, hcrit, rfl, rfl⟩
  · have hio := (attended_of_reachable hs).lock hcrit
    obtain ⟨r, j, g, hset, hfree, hfutures, f, hf, hpc⟩ :=
      Registry.exists_setResponse (registry_inv_of_reachable hs) hcrit
    have hstep : (client M E P).step .io s = some { s with registry := r, io := .idle } := by
      simp [client, step, ioStep, hio, hset]
    refine ⟨_, .single ⟨.io, .inr ⟨rfl, hio⟩, hstep⟩, hfree, rfl, ?_⟩
    obtain ⟨hlt, rfl⟩ := List.getElem?_eq_some_iff.mp hf
    have hlt' : j < (s.registry.futures.map (·.pc)).length := by rwa [List.length_map]
    have hsame : g.pc = (s.registry.futures.map (·.pc))[j] := by rw [hpc, List.getElem_map]
    rw [hfutures, List.map_set, hsame, List.set_getElem_self]

/-- The caller of a request takes its next step. -/
theorem exists_step_of_request (hcrit : s.registry.critical = none) {i : ℕ} {f : ResponseFuture}
    (hf : s.registry.futures[i]? = some f) (hleft : f.pc.stepsLeft ≠ 0) :
    ∃ s' g, StepOf M E P (ofRequest i s.calls) s s' ∧ s'.calls = s.calls ∧
      s'.registry.futures = s.registry.futures.set i g ∧ g.pc.stepsLeft < f.pc.stepsLeft ∧
        g.pc ≠ .interrupted := by
  obtain ⟨b, hb, r, g, hstep, hfutures, hlt, hpc⟩ := Registry.exists_step hcrit hf hleft
  have hrest : r.futures = s.registry.futures.set i g ∧ g.pc.stepsLeft < f.pc.stepsLeft ∧
      g.pc ≠ .interrupted := ⟨hfutures, hlt, hpc⟩
  have hown {a : ClientAction} (ha : a.ofRequest i = true) : ofRequest i s.calls a s := ⟨ha, rfl⟩
  simp only [List.mem_cons, List.not_mem_nil, or_false] at hb
  rcases hb with rfl | rfl | rfl | rfl
  · exact ⟨{ s with registry := r }, g, ⟨.used i, .inl (hown (by simp [ClientAction.ofRequest])),
      congrArg (Option.map _) hstep⟩, rfl, hrest⟩
  · exact ⟨{ s with registry := r, log := .sent i :: s.log }, g,
      ⟨.write i, .inl (hown (by simp [ClientAction.ofRequest])), congrArg (Option.map _) hstep⟩,
      rfl, hrest⟩
  · exact ⟨{ s with registry := r }, g, ⟨.test i, .inl (hown (by simp [ClientAction.ofRequest])),
      congrArg (Option.map _) hstep⟩, rfl, hrest⟩
  · exact ⟨{ s with registry := r }, g, ⟨.erase i, .inl (hown (by simp [ClientAction.ofRequest])),
      congrArg (Option.map _) hstep⟩, rfl, hrest⟩

/-- **Every request comes to its end**, whatever state the client is in, unless the heartbeat
thread was interrupted in it. -/
theorem exists_returned (hs : (client M E P).Reachable s) {i : ℕ} {f : ResponseFuture}
    (hf : s.registry.futures[i]? = some f) (hint : f.pc ≠ .interrupted) :
    ∃ s' g r, ReflTransGen (StepOf M E P (ofRequest i s.calls)) s s' ∧ s'.calls = s.calls ∧
      s'.registry.futures[i]? = some g ∧ g.pc = .returned r := by
  induction hn : f.pc.stepsLeft using Nat.strong_induction_on generalizing s f with
  | _ n ih =>
      subst hn
      by_cases hleft : f.pc.stepsLeft = 0
      · cases hpc : f.pc with
        | returned r => exact ⟨s, f, r, .refl, rfl, hf, hpc⟩
        | interrupted => exact absurd hpc hint
        | constructed | registered | written | gaveUp => simp [hpc, RequestPc.stepsLeft] at hleft
      · obtain ⟨s₁, hpath, hcrit, hcalls, hpcs⟩ := exists_unlocked (ofRequest i s.calls) hs
        obtain ⟨f₁, hf₁, hpc₁⟩ : ∃ f₁, s₁.registry.futures[i]? = some f₁ ∧ f₁.pc = f.pc := by
          have hmap := congrArg (·[i]?) hpcs
          simpa [hf] using hmap
        obtain ⟨s₂, g, hstep, hcalls₂, hfutures, hlt, hpc₂⟩ :=
          exists_step_of_request (M := M) (E := E) (P := P) hcrit hf₁ (hpc₁ ▸ hleft)
        rw [hcalls] at hstep hcalls₂
        have hg : s₂.registry.futures[i]? = some g := by
          rw [hfutures, getElem?_set_of_some hf₁, if_pos rfl]
        have hpath₂ := hpath.tail hstep
        obtain ⟨s', g', r, hrest, hcalls', hg', hr⟩ :=
          ih g.pc.stepsLeft (hpc₁ ▸ hlt) (reachable_of_stepOf hs hpath₂) hg hpc₂ rfl
        rw [hcalls₂] at hrest hcalls'
        exact ⟨s', g', r, hpath₂.trans hrest, hcalls', hg', hr⟩

/-- A step of a call brings it nearer to its end. -/
theorem stepsLeft_lt {j : ℕ} {c : Invocation} {steps posts : ℕ} (hc : s.calls[j]? = some c)
    (hposted : c.Posted steps posts) (h : step M E P (.call j) s = some s') :
    ∃ c', s'.calls[j]? = some c' ∧ c'.pc.stepsLeft < c.pc.stepsLeft ∧
      s'.registry = s.registry := by
  have hset {c' : Invocation} : (s.calls.set j c')[j]? = some c' := by
    rw [getElem?_set_of_some hc, if_pos rfl]
  cases Step.of_step h with
  | post hc' hpc | connected hc' hpc | unconnected hc' hpc | exhausted hc' hpc
  | again hc' hpc | started hc' hpc | reset hc' hpc | accept hc' hpc | reject hc' hpc =>
      cases hc.symm.trans hc'
      simp only [Invocation.Posted, hpc] at hposted
      refine ⟨_, hset, ?_, rfl⟩
      simp only [hpc, InvocationPc.stepsLeft]
      omega
  | store hc' hpc =>
      cases hc.symm.trans hc'
      refine ⟨_, hset, ?_, rfl⟩
      rcases hpc with hpc | hpc
      · dsimp only
        split <;> simp [hpc, InvocationPc.stepsLeft]
      · simp [hpc, InvocationPc.stepsLeft]
  | request ha => cases ha

/-- A call has its request's response. -/
theorem exists_answered {j i : ℕ} {c : Invocation} {f : ResponseFuture}
    {r : Option KiteResponse} (hpc : c.pc = .awaiting) (hi : c.request = some i)
    (hf : s.registry.futures[i]? = some f) (hr : f.pc = .returned r) :
    ∃ s', s.callStep M j c = some s' := by
  simp only [callStep, hpc, hi, Option.bind_some, hf, hr]
  split <;> exact ⟨_, rfl⟩

/-- A call issues its request under an id that is not in use. -/
theorem exists_sent {j : ℕ} {c : Invocation} (hc : s.calls[j]? = some c)
    (hpc : c.pc = .connecting) {id : CInt} (hfresh : ∀ f ∈ s.registry.futures, f.requestId ≠ id) :
    ∃ s' c', StepOf M E P (ofCall j) s s' ∧ s'.calls[j]? = some c' ∧ c'.pc = .awaiting := by
  have hconstruct : s.registry.construct .sendConnAndGet id = some
      { s.registry with futures := s.registry.futures ++ [.new .sendConnAndGet id] } :=
    if_pos (by simpa using hfresh)
  have hstep : (client M E P).step (.sendConn j id) s =
      some { s with
        registry := { s.registry with futures := s.registry.futures ++ [.new .sendConnAndGet id] }
        calls := s.calls.set j
          { c with pc := .awaiting, request := s.registry.futures.length } } := by
    simp [client, step, hc, sendConn, hpc, hconstruct]
  have hown : ofCall j (.sendConn j id) s := .inl (by simp [ClientAction.takenBy])
  exact ⟨_, _, ⟨_, .inl hown, hstep⟩, (getElem?_set_of_some hc).trans (if_pos rfl), rfl⟩

/-- A call that waits for its request gets to where the request has returned. -/
theorem exists_awaited (hs : (client M E P).Reachable s) {j : ℕ} {c : Invocation}
    (hc : s.calls[j]? = some c) (hpc : c.pc = .awaiting) :
    ∃ s₁ s', ReflTransGen (StepOf M E P (ofCall j)) s s₁ ∧ s₁.calls = s.calls ∧
      s₁.callStep M j c = some s' := by
  have hattended := attended_of_reachable hs
  obtain ⟨i, f, hi, hf, hcaller⟩ := hattended.awaiting c (List.mem_of_getElem? hc) hpc
  -- only a heartbeat is interrupted
  have hint : f.pc ≠ .interrupted := by
    intro h
    have hbeat := hattended.interrupted f (List.mem_of_getElem? hf) h
    rw [hcaller] at hbeat
    cases hbeat
  obtain ⟨s₁, g, r, hpath, hcalls, hg, hr⟩ := exists_returned hs hf hint
  obtain ⟨s', hs'⟩ := exists_answered (M := M) (j := j) hpc hi hg hr
  have hown (a : ClientAction) (u : Client) (h : ofRequest i s.calls a u) : ofCall j a u :=
    .inr ⟨c, i, h.2 ▸ hc, hi, h.1⟩
  exact ⟨s₁, s', ReflTransGen.mono (fun _ _ ↦ StepOf.mono hown) _ _ hpath, hcalls, hs'⟩

/-- Every call comes to its end, if there is a new id for the request it has not issued yet. -/
theorem exists_done_of_left (hs : (client M E P).Reachable s) {j : ℕ} {c : Invocation}
    (hc : s.calls[j]? = some c) {id : CInt}
    (hid : InvocationPc.awaiting.stepsLeft < c.pc.stepsLeft →
      ∀ f ∈ s.registry.futures, f.requestId ≠ id) :
    ∃ s' c' b, ReflTransGen (StepOf M E P (ofCall j)) s s' ∧ s'.calls[j]? = some c' ∧
      c'.pc = .done b := by
  induction hn : c.pc.stepsLeft using Nat.strong_induction_on generalizing s c with
  | _ n ih =>
      subst hn
      obtain ⟨t, hrun⟩ := Run.exists_of_reachable hs
      have hposted := ((accounted_of_run hrun).present j c hc).posted
      -- a step of the call itself, once the lock and the response are there
      have hcall {s₁ s₂ : Client} (hpath : ReflTransGen (StepOf M E P (ofCall j)) s s₁)
          (hc₁ : s₁.calls[j]? = some c) (h : s₁.callStep M j c = some s₂)
          (hid₁ : InvocationPc.awaiting.stepsLeft < c.pc.stepsLeft → s₁.registry = s.registry) :
          ∃ s' c' b, ReflTransGen (StepOf M E P (ofCall j)) s s' ∧ s'.calls[j]? = some c' ∧
            c'.pc = .done b := by
        have hstep : (client M E P).step (.call j) s₁ = some s₂ := by simp [client, step, hc₁, h]
        have hown : ofCall j (.call j) s₁ := .inl (by simp [ClientAction.takenBy])
        obtain ⟨c', hc', hlt, hreg⟩ := stepsLeft_lt (E := E) (P := P) hc₁ hposted hstep
        have hpath₂ := hpath.tail ⟨_, .inl hown, hstep⟩
        have hid₂ : InvocationPc.awaiting.stepsLeft < c'.pc.stepsLeft →
            ∀ f ∈ s₂.registry.futures, f.requestId ≠ id := by
          intro hleft
          rw [hreg, hid₁ (hleft.trans hlt)]
          exact hid (hleft.trans hlt)
        obtain ⟨s', c'', b, hrest, hdone⟩ := ih c'.pc.stepsLeft hlt
          (reachable_of_stepOf hs hpath₂) hc' hid₂ rfl
        exact ⟨s', c'', b, hpath₂.trans hrest, hdone⟩
      cases hpc : c.pc with
      | retry | slept | tested | recovered | authenticated | restoring =>
          obtain ⟨s', hs'⟩ := exists_callStep (M := M) (s := s) (j := j) (c := c) (by simp [hpc])
            (by simp [hpc]) (by simp [hpc])
          exact hcall .refl hc hs' fun _ ↦ rfl
      | connecting =>
          have hfresh := hid (by simp [hpc, InvocationPc.stepsLeft])
          obtain ⟨s₁, c₁, hstep, hc₁, hpc₁⟩ := exists_sent (M := M) (E := E) (P := P) hc hpc hfresh
          have hlt : c₁.pc.stepsLeft < c.pc.stepsLeft := by
            simp [hpc, hpc₁, InvocationPc.stepsLeft]
          have hpath : ReflTransGen (StepOf M E P (ofCall j)) s s₁ := .single hstep
          obtain ⟨s', c', b, hrest, hdone⟩ := ih c₁.pc.stepsLeft (hpc ▸ hlt)
            (reachable_of_stepOf hs hpath) hc₁
            (fun hleft ↦ absurd (hpc₁ ▸ hleft) (Nat.lt_irrefl _)) rfl
          exact ⟨s', c', b, hpath.trans hrest, hdone⟩
      | awaiting =>
          obtain ⟨s₁, s', hpath, hcalls, hs'⟩ := exists_awaited hs hc hpc
          refine hcall hpath (hcalls ▸ hc) hs' fun hleft ↦ ?_
          rw [hpc] at hleft
          exact absurd hleft (Nat.lt_irrefl _)
      | done b => exact ⟨s, c, b, .refl, hc, hpc⟩

/-- **Every call comes to its end**, whatever state the client is in, as long as there is an id
that no request so far has. -/
theorem exists_done (hs : (client M E P).Reachable s) {j : ℕ} {c : Invocation}
    (hc : s.calls[j]? = some c) (hid : ∃ id, ∀ f ∈ s.registry.futures, f.requestId ≠ id) :
    ∃ s' c' b, ReflTransGen (StepOf M E P (ofCall j)) s s' ∧ s'.calls[j]? = some c' ∧
      c'.pc = .done b :=
  hid.elim fun _ hid ↦ exists_done_of_left hs hc fun _ ↦ hid

/-- In the middle of a handshake, with the response in the critical section of
`receiveResponse`. -/
theorem exists_done_handshake : ∃ s, (client zeroed .gcc proto2).Reachable s ∧
    s.calls[1]?.map (·.pc) = some .awaiting ∧ s.registry.critical ≠ none ∧
      ∃ s' c' b, ReflTransGen (StepOf zeroed .gcc proto2 (ofCall 1)) s s' ∧
        s'.calls[1]? = some c' ∧ c'.pc = .done b := by
  have hexec : ((client zeroed .gcc proto2).exec ((handshakeRun trueAck).take 14)
      (.new ⟨0, 0, 0, 0⟩)).map (fun s ↦ (s.calls[1]?, s.registry.critical.isSome,
        s.registry.futures.map (·.requestId))) =
      some (some ⟨.handshake, .awaiting, some 0⟩, true, [7]) := by decide +kernel
  obtain ⟨s, hs, heq⟩ := exists_reachable hexec ⟨_, rfl⟩
  simp only [Prod.mk.injEq] at heq
  obtain ⟨hc, hcrit, hids⟩ := heq
  have hfresh : ∀ f ∈ s.registry.futures, f.requestId ≠ 8 := by
    intro f hf h
    have hmem : f.requestId ∈ s.registry.futures.map (·.requestId) := List.mem_map_of_mem hf
    rw [hids, h] at hmem
    simp at hmem
  exact ⟨s, hs, by rw [hc]; rfl, Option.isSome_iff_ne_none.mp hcrit,
    exists_done hs hc ⟨8, hfresh⟩⟩

end Client

end Kiteq

import Kiteq.Remoting.Client

/-!
# The steps of a client

`Client.Step` says once what any step of a client does, in one rule for each branch of the code:
the guards the branch has passed, and the state it leaves.  Later files look at a part of the
state each, and prove what they need of it by cases on these rules and not on the code.
-/

namespace Kiteq

/-- The status from which the compare-and-set of an operation lets it in. -/
def Operation.guard : Operation → Option STATE
  | .start => some .NONE
  | .reconnect => some .RUNNING
  | .handshake => none

/-- The status that the compare-and-set of an operation stores. -/
def Operation.entered : Operation → STATE
  | .start => .PREPARE
  | _ => .RECONNECTING

/-- The call has been acknowledged and stores `RUNNING` in its next step. -/
def Invocation.Storing (c : Invocation) : Prop := c.pc = .authenticated ∨ c.pc = .restoring

instance (c : Invocation) : Decidable c.Storing := inferInstanceAs (Decidable (_ ∨ _))

/-- The steps of a thread with its request that concern nothing but the registry. -/
def ClientAction.request : ClientAction → Option RegistryAction
  | .sendMessage id => some (.construct .sendMessageAndGet id)
  | .used i => some (.used i)
  | .test i => some (.test i)
  | .erase i => some (.erase i)
  | _ => none

namespace Client

/-- What a step of a client does. -/
inductive Step (M : Miscast) (E : Platform) (P : Protobuf) : ClientAction → Client → Client → Prop
  /-- `start` or `reconnect` passes its guard. -/
  | enter {op : Operation} {s : Client} (hop : op.guard = some s.status) :
      Step M E P (.invoke op) s
        { s with status := op.entered, calls := s.calls ++ [⟨op, .retry 0, none⟩] }
  /-- `start` or `reconnect` does not. -/
  | refuse {op : Operation} {s : Client} (hop : op ≠ .handshake) (hs : op.guard ≠ some s.status) :
      Step M E P (.invoke op) s { s with calls := s.calls ++ [⟨op, .done false, none⟩] }
  | handshake {s : Client} :
      Step M E P (.invoke .handshake) s
        { s with calls := s.calls ++ [⟨.handshake, .connecting, none⟩] }
  /-- `reconnect0` posts an attempt. -/
  | post {j n : ℕ} {s : Client} {c : Invocation} (hc : s.calls[j]? = some c)
      (hpc : c.pc = .retry n) :
      Step M E P (.call j) s { s with
        attempts := s.attempts ++ [.posted]
        calls := s.calls.set j { c with pc := .slept (n + 1) } }
  | connected {j n : ℕ} {s : Client} {c : Invocation} (hc : s.calls[j]? = some c)
      (hpc : c.pc = .slept n) (hstatus : s.status = .RECOVERING) :
      Step M E P (.call j) s { s with calls := s.calls.set j { c with pc := .recovered } }
  | unconnected {j n : ℕ} {s : Client} {c : Invocation} (hc : s.calls[j]? = some c)
      (hpc : c.pc = .slept n) (hstatus : s.status ≠ .RECOVERING) :
      Step M E P (.call j) s { s with calls := s.calls.set j { c with pc := .tested n } }
  | exhausted {j n : ℕ} {s : Client} {c : Invocation} (hc : s.calls[j]? = some c)
      (hpc : c.pc = .tested n) (hend : 10 ≤ n ∨ s.status = .STOP) :
      Step M E P (.call j) s { s with calls := s.calls.set j { c with pc := .done false } }
  | again {j n : ℕ} {s : Client} {c : Invocation} (hc : s.calls[j]? = some c)
      (hpc : c.pc = .tested n) (hn : n < 10) (hstatus : s.status ≠ .STOP) :
      Step M E P (.call j) s { s with calls := s.calls.set j { c with pc := .retry n } }
  /-- `start` returns true. -/
  | started {j : ℕ} {s : Client} {c : Invocation} (hc : s.calls[j]? = some c)
      (hpc : c.pc = .recovered) (hop : c.op = .start) :
      Step M E P (.call j) s
        { s with heartbeat := .idle, calls := s.calls.set j { c with pc := .done true } }
  /-- `reconnect` goes on with its handshake. -/
  | reset {j : ℕ} {s : Client} {c : Invocation} (hc : s.calls[j]? = some c)
      (hpc : c.pc = .recovered) (hop : c.op ≠ .start) :
      Step M E P (.call j) s { s with
        stopCount := 0
        log := .reset :: s.log
        calls := s.calls.set j { c with pc := .connecting } }
  | sendConn {j : ℕ} {id : CInt} {s : Client} {c : Invocation} {registry : Registry}
      (hc : s.calls[j]? = some c) (hpc : c.pc = .connecting)
      (hreg : Registry.step (.construct .sendConnAndGet id) s.registry = some registry) :
      Step M E P (.sendConn j id) s { s with
        registry
        calls := s.calls.set j { c with pc := .awaiting, request := s.registry.futures.length } }
  /-- `ack->status()` is true. -/
  | accept {j i : ℕ} {s : Client} {c : Invocation} {f : ResponseFuture} {resp : KiteResponse}
      (hc : s.calls[j]? = some c) (hpc : c.pc = .awaiting) (hi : c.request = some i)
      (hf : s.registry.futures[i]? = some f) (hfpc : f.pc = .returned (some resp))
      (hack : ackStatus M .sendConnAndGet resp = some true) :
      Step M E P (.call j) s { s with calls := s.calls.set j { c with pc := .authenticated } }
  /-- There is no response, or no true status in it. -/
  | reject {j i : ℕ} {s : Client} {c : Invocation} {f : ResponseFuture}
      {resp : Option KiteResponse} (hc : s.calls[j]? = some c) (hpc : c.pc = .awaiting)
      (hi : c.request = some i) (hf : s.registry.futures[i]? = some f)
      (hfpc : f.pc = .returned resp)
      (hack : resp.bind (ackStatus M .sendConnAndGet) ≠ some true) :
      Step M E P (.call j) s { s with calls := s.calls.set j { c with pc := .done false } }
  /-- A call stores `RUNNING`: `handshake` first, and `reconnect` once more. -/
  | store {j : ℕ} {s : Client} {c : Invocation} (hc : s.calls[j]? = some c) (hpc : c.Storing) :
      Step M E P (.call j) s { s with
        status := .RUNNING
        calls := s.calls.set j { c with
          pc := if c.pc = .authenticated ∧ c.op = .reconnect then .restoring else .done true } }
  /-- A thread takes a step with its request. -/
  | request {a : ClientAction} {b : RegistryAction} {s : Client} {registry : Registry}
      (ha : a.request = some b) (hreg : Registry.step b s.registry = some registry) :
      Step M E P a s { s with registry }
  | write {i : ℕ} {s : Client} {registry : Registry}
      (hreg : Registry.step (.write i) s.registry = some registry) :
      Step M E P (.write i) s { s with registry, log := .sent i :: s.log }
  | beat {s : Client} (hidle : s.heartbeat = .idle) (hstatus : s.status = .RUNNING) :
      Step M E P .beat s { s with heartbeat := .due }
  | sendHeartBeat {id : CInt} {now : CLong} {s : Client} {registry : Registry}
      (hdue : s.heartbeat = .due)
      (hreg : Registry.step (.construct .sendHeartBeatAndGet id) s.registry = some registry) :
      Step M E P (.sendHeartBeat id now) s
        { s with registry, heartbeat := .awaiting s.registry.futures.length now }
  /-- The answer has the version that was sent. -/
  | alive {i : ℕ} {now : CLong} {s : Client} {f : ResponseFuture} {resp : Option KiteResponse}
      (hawait : s.heartbeat = .awaiting i now) (hf : s.registry.futures[i]? = some f)
      (hfpc : f.pc = .returned resp) (hversion : resp.bind (heartBeatVersion M) = some now) :
      Step M E P .judge s { s with heartbeat := .idle, stopCount := 0, log := .reset :: s.log }
  | missed {i : ℕ} {now : CLong} {s : Client} {f : ResponseFuture} {resp : Option KiteResponse}
      (hawait : s.heartbeat = .awaiting i now) (hf : s.registry.futures[i]? = some f)
      (hfpc : f.pc = .returned resp) (hversion : resp.bind (heartBeatVersion M) ≠ some now) :
      Step M E P .judge s
        { s with heartbeat := .idle, stopCount := s.stopCount + 1, log := .missed :: s.log }
  | interrupt {i : ℕ} {now : CLong} {s : Client} {registry : Registry}
      (hawait : s.heartbeat = .awaiting i now) (hint : s.interrupted = true)
      (hreg : Registry.step (.interrupt i) s.registry = some registry) :
      Step M E P .interrupt s { s with registry, heartbeat := .off }
  | resolve {k : ℕ} {err : Bool} {s : Client} (hready : s.ready = true)
      (hk : s.attempts[k]? = some .posted) :
      Step M E P (.resolve k err) s
        { s with attempts := s.attempts.set k (if err then .finished else .resolved) }
  | fail {k : ℕ} {s : Client} (hready : s.ready = true) (hk : s.attempts[k]? = some .resolved) :
      Step M E P (.connect k true) s { s with attempts := s.attempts.set k .finished }
  /-- An attempt connects. -/
  | connect {k : ℕ} {s : Client} (hready : s.ready = true)
      (hk : s.attempts[k]? = some .resolved) :
      Step M E P (.connect k false) s { s with
        attempts := s.attempts.set k .finished
        status := .RECOVERING
        session := s.session.asyncRead
        log := .connected :: s.log }
  /-- The pending read completes. -/
  | recv {e : Bool} {bytes : List CChar} {s : Client} {w : Wait} (hready : s.ready = true)
      (hw : s.session.pending = some w) (hbytes : e = true ∨ bytes.length = w.size) :
      Step M E P (.recv e bytes) s { s with
        session := (s.session.complete E P e bytes).1
        io := ioOf (s.session.complete E P e bytes).2 bytes
        stopped := s.stopped || (s.session.complete E P e bytes).2.contains .lengthError
        log := if e = false ∧ w ≠ .pkglen then .received bytes :: s.log else s.log }
  /-- The IO thread is done with a packet that is no response. -/
  | ignore {s : Client} {pkg : KitePacket} {frame : List CChar} (hio : s.io = .handling pkg frame)
      (hcmd : isResponse pkg.cmdType = false) :
      Step M E P .io s { s with io := .idle }
  /-- The IO thread begins with a response. -/
  | respond {s : Client} {pkg : KitePacket} {frame : List CChar} (hio : s.io = .handling pkg frame)
      (hcmd : isResponse pkg.cmdType = true) :
      Step M E P .io s
        { s with stopCount := 0, log := .reset :: s.log, io := .responding pkg frame }
  /-- The IO thread looks a response up. -/
  | dispatch {s : Client} {pkg : KitePacket} {frame : List CChar} {registry : Registry}
      (hio : s.io = .responding pkg frame)
      (hreg : Registry.step (.dispatch pkg) s.registry = some registry) :
      Step M E P .io s
        { s with registry, io := if registry.critical.isSome then .fulfilling else .idle }
  /-- The IO thread leaves `receiveResponse`. -/
  | fulfil {s : Client} {registry : Registry} (hio : s.io = .fulfilling)
      (hreg : Registry.step .setResponse s.registry = some registry) :
      Step M E P .io s { s with registry, io := .idle }
  | close {s : Client} : Step M E P .close s { s with stopped := true, interrupted := true }

namespace Step

variable {M : Miscast} {E : Platform} {P : Protobuf} {s s' : Client}

theorem of_invoke (op : Operation) : Step M E P (.invoke op) s (s.invoke op) := by
  cases op with
  | start =>
      simp only [invoke]
      split
      · rename_i h
        have hop : Operation.start.guard = some s.status := congrArg some h.symm
        exact .enter hop
      · rename_i h
        exact .refuse (by simp) fun hs ↦ h (Option.some.inj hs).symm
  | reconnect =>
      simp only [invoke]
      split
      · rename_i h
        have hop : Operation.reconnect.guard = some s.status := congrArg some h.symm
        exact .enter hop
      · rename_i h
        exact .refuse (by simp) fun hs ↦ h (Option.some.inj hs).symm
  | handshake => exact .handshake

theorem of_callStep {j : ℕ} {c : Invocation} (hc : s.calls[j]? = some c)
    (h : s.callStep M j c = some s') : Step M E P (.call j) s s' := by
  unfold callStep at h
  split at h
  · rename_i hpc
    cases h
    exact .post hc hpc
  · rename_i hpc
    split at h
    · rename_i hstatus
      cases h
      exact .connected hc hpc hstatus
    · rename_i hstatus
      cases h
      exact .unconnected hc hpc hstatus
  · rename_i hpc
    split at h
    · rename_i hend
      cases h
      exact .exhausted hc hpc hend
    · rename_i hend
      cases h
      rw [not_or] at hend
      exact .again hc hpc (Nat.not_le.mp hend.1) hend.2
  · rename_i hpc
    split at h
    · rename_i hop
      cases h
      exact .started hc hpc hop
    · rename_i hop
      cases h
      exact .reset hc hpc hop
  · rename_i hpc
    split at h
    · rename_i f hf
      obtain ⟨i, hi, hf⟩ := Option.bind_eq_some_iff.mp hf
      split at h
      · rename_i resp hfpc
        split at h
        · rename_i hack
          obtain ⟨r, rfl, hack⟩ := Option.bind_eq_some_iff.mp hack
          cases h
          exact .accept hc hpc hi hf hfpc hack
        · rename_i hack
          cases h
          exact .reject hc hpc hi hf hfpc hack
      · cases h
    · cases h
  · rename_i hpc
    cases h
    have hstore := Step.store (M := M) (E := E) (P := P) hc (.inl hpc)
    simp only [hpc, true_and] at hstore
    exact hstore
  · rename_i hpc
    cases h
    have hstore := Step.store (M := M) (E := E) (P := P) hc (.inr hpc)
    simp only [hpc, reduceCtorEq, false_and, if_false] at hstore
    exact hstore
  · cases h
  · cases h

theorem of_judge (h : s.judge M = some s') : Step M E P .judge s s' := by
  unfold judge at h
  split at h
  · rename_i i now hawait
    split at h
    · rename_i f hf
      split at h
      · rename_i resp hfpc
        split at h
        · rename_i hversion
          cases h
          exact .alive hawait hf hfpc hversion
        · rename_i hversion
          cases h
          exact .missed hawait hf hfpc hversion
      · cases h
    · cases h
  · cases h

theorem of_ioStep (h : s.ioStep = some s') : Step M E P .io s s' := by
  unfold ioStep at h
  split at h
  · cases h
  · rename_i pkg frame hio
    split at h
    · rename_i hcmd
      cases h
      exact .respond hio hcmd
    · rename_i hcmd
      cases h
      exact .ignore hio (Bool.not_eq_true _ ▸ hcmd)
  · rename_i pkg frame hio
    obtain ⟨registry, hreg, rfl⟩ := Option.map_eq_some_iff.mp h
    exact .dispatch hio hreg
  · rename_i hio
    obtain ⟨registry, hreg, rfl⟩ := Option.map_eq_some_iff.mp h
    exact .fulfil hio hreg

/-- **Inversion.** A step of a client does what one of the rules says. -/
theorem of_step {a : ClientAction} (h : step M E P a s = some s') : Step M E P a s s' := by
  cases a with
  | invoke op =>
      cases h
      exact of_invoke op
  | call j =>
      obtain ⟨c, hc, h⟩ := Option.bind_eq_some_iff.mp h
      exact of_callStep hc h
  | sendConn j id =>
      obtain ⟨c, hc, h⟩ := Option.bind_eq_some_iff.mp h
      unfold Client.sendConn at h
      split at h
      · rename_i hpc
        obtain ⟨registry, hreg, rfl⟩ := Option.map_eq_some_iff.mp h
        exact .sendConn hc hpc hreg
      · cases h
  | sendMessage id | used i | test i | erase i =>
      obtain ⟨registry, hreg, rfl⟩ := Option.map_eq_some_iff.mp h
      exact .request rfl hreg
  | write i =>
      obtain ⟨registry, hreg, rfl⟩ := Option.map_eq_some_iff.mp h
      exact .write hreg
  | beat =>
      simp only [step] at h
      split at h
      · rename_i hbeat
        cases h
        exact .beat hbeat.1 hbeat.2
      · cases h
  | sendHeartBeat id now =>
      simp only [step, Client.sendHeartBeat] at h
      split at h
      · rename_i hdue
        obtain ⟨registry, hreg, rfl⟩ := Option.map_eq_some_iff.mp h
        exact .sendHeartBeat hdue hreg
      · cases h
  | judge => exact of_judge h
  | interrupt =>
      simp only [step, Client.interrupt] at h
      split at h
      · rename_i i now hawait
        split at h
        · rename_i hint
          obtain ⟨registry, hreg, rfl⟩ := Option.map_eq_some_iff.mp h
          exact .interrupt hawait hint hreg
        · cases h
      · cases h
  | resolve k err =>
      simp only [step, handleResolve] at h
      split at h
      · rename_i hready
        cases h
        exact .resolve hready.1 hready.2
      · cases h
  | connect k err =>
      simp only [step, handleConnect] at h
      split at h
      · rename_i hready
        cases err with
        | true =>
            cases h
            exact .fail hready.1 hready.2
        | false =>
            cases h
            exact .connect hready.1 hready.2
      · cases h
  | recv e bytes =>
      simp only [step, Client.recv] at h
      split at h
      · cases h
      · rename_i w hw
        split at h
        · rename_i hready
          cases h
          exact .recv hready.1 hw hready.2
        · cases h
  | io => exact of_ioStep h
  | close =>
      cases h
      exact .close

end Step

end Client

end Kiteq

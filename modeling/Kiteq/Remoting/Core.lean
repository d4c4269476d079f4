import Kiteq.Remoting.Steps

/-!
# The core of a client

Most of what a client does has no bearing on what its acknowledgements mean: the resolves and
connects that are posted, the heartbeat thread, the counters.  `Core` forgets them, and
`Core.Step` says once what any step of a client does to the rest, in a dozen rules with their
guards.  Invariants of acknowledgements are proved by cases on these rules; and they show that a
client refines the protocol of requests and responses, so that what is proved of that protocol
holds of every client.
-/

namespace Kiteq

open Lib

/-- What acknowledgements depend on. -/
structure Core where
  status : STATE
  session : Session
  registry : Registry
  calls : List Invocation
  io : IoPc
  log : List Happening

/-- The core of a client. -/
def Client.core (s : Client) : Core where
  status := s.status
  session := s.session
  registry := s.registry
  calls := s.calls
  io := s.io
  log := s.log

/-- The call has not got to its request, or has ended without one that was acknowledged. -/
def Invocation.Quiet (c : Invocation) : Prop :=
  c.pc ≠ .awaiting ∧ c.pc ≠ .authenticated ∧ c.pc ≠ .restoring ∧
    (c.pc = .done true → c.op = .start)

/-- The history after a step that is not a successful connect. -/
def Extends (log log' : List Happening) : Prop :=
  log' = log ∨ ∃ h, h ≠ .connected ∧ log' = h :: log

/-- A step of the registry that is neither the writing of a request nor the dispatch of a
packet. -/
def RegistryAction.Silent : RegistryAction → Prop
  | .write _ | .dispatch _ => False
  | _ => True

theorem RegistryAction.Silent.ne_write {b : RegistryAction} (h : b.Silent) (i : ℕ) :
    b ≠ .write i := by
  rintro rfl
  exact h

theorem RegistryAction.Silent.ne_dispatch {b : RegistryAction} (h : b.Silent) (pkg : KitePacket) :
    b ≠ .dispatch pkg := by
  rintro rfl
  exact h

namespace Core

/-- What a step of a client does to its core. -/
inductive Step (M : Miscast) (E : Platform) (P : Protobuf) : ClientAction → Core → Core → Prop
  /-- Nothing but, maybe, an entry in the history. -/
  | neutral {a : ClientAction} {s : Core} {log : List Happening}
      (hlog : Extends s.log log) :
      Step M E P a s { s with log }
  /-- A call begins. -/
  | invoke {op : Operation} {s : Core} {status : STATE} {c : Invocation} (hc : c.Quiet)
      (hstatus : status = .RUNNING → s.status = .RUNNING) :
      Step M E P (.invoke op) s { s with status, calls := s.calls ++ [c] }
  /-- A call moves outside of `handshake`, or gives it up. -/
  | move {j : ℕ} {s : Core} {c c' : Invocation} {log : List Happening}
      (hc : s.calls[j]? = some c) (hc' : c'.Quiet)
      (hlog : Extends s.log log) :
      Step M E P (.call j) s { s with calls := s.calls.set j c', log }
  /-- A call issues its request. -/
  | sendConn {j : ℕ} {id : CInt} {s : Core} {c : Invocation} {registry : Registry}
      (hc : s.calls[j]? = some c)
      (hreg : Registry.step (.construct .sendConnAndGet id) s.registry = some registry) :
      Step M E P (.sendConn j id) s { s with
        registry
        calls := s.calls.set j { c with pc := .awaiting, request := s.registry.futures.length } }
  /-- A call reads a true status. -/
  | accept {j i : ℕ} {s : Core} {c : Invocation} {f : ResponseFuture} {resp : KiteResponse}
      (hc : s.calls[j]? = some c) (hpc : c.pc = .awaiting) (hi : c.request = some i)
      (hf : s.registry.futures[i]? = some f) (hfpc : f.pc = .returned (some resp))
      (hack : ackStatus M .sendConnAndGet resp = some true) :
      Step M E P (.call j) s
        { s with calls := s.calls.set j { c with pc := .authenticated } }
  /-- A call stores `RUNNING`. -/
  | store {j : ℕ} {s : Core} {c : Invocation} {pc : InvocationPc} (hc : s.calls[j]? = some c)
      (hpc : c.pc = .authenticated ∨ c.pc = .restoring) (hpc' : pc = .restoring ∨ pc = .done true) :
      Step M E P (.call j) s
        { s with status := .RUNNING, calls := s.calls.set j { c with pc } }
  /-- A thread takes a step with its request. -/
  | request {a : ClientAction} {b : RegistryAction} {s : Core} {registry : Registry} {io : IoPc}
      (hb : b.Silent) (hreg : Registry.step b s.registry = some registry)
      (hio : io = s.io ∨ io = .idle) :
      Step M E P a s { s with registry, io }
  | write {i : ℕ} {s : Core} {registry : Registry}
      (hreg : Registry.step (.write i) s.registry = some registry) :
      Step M E P (.write i) s { s with registry, log := .sent i :: s.log }
  /-- An attempt to connect succeeds. -/
  | connect {k : ℕ} {s : Core} (hio : s.io = .idle) :
      Step M E P (.connect k false) s { s with
        status := .RECOVERING
        session := s.session.asyncRead
        log := .connected :: s.log }
  /-- The pending read completes. -/
  | recv {e : Bool} {bytes : List CChar} {s : Core} {w : Wait}
      (hw : s.session.pending = some w) (hbytes : e = true ∨ bytes.length = w.size) :
      Step M E P (.recv e bytes) s { s with
        session := (s.session.complete E P e bytes).1
        io := Client.ioOf (s.session.complete E P e bytes).2 bytes
        log := if e = false ∧ w ≠ .pkglen then .received bytes :: s.log else s.log }
  /-- The IO thread is done with a packet that is no response. -/
  | ignore {s : Core} : Step M E P .io s { s with io := .idle }
  /-- The IO thread begins with a response. -/
  | respond {s : Core} {pkg : KitePacket} {frame : List CChar} {log : List Happening}
      (hio : s.io = .handling pkg frame)
      (hlog : Extends s.log log) :
      Step M E P .io s { s with io := .responding pkg frame, log }
  /-- The IO thread looks a response up. -/
  | dispatch {s : Core} {pkg : KitePacket} {frame : List CChar} {registry : Registry} {io : IoPc}
      (hio : s.io = .responding pkg frame)
      (hreg : Registry.step (.dispatch pkg) s.registry = some registry)
      (hio' : io = .fulfilling ∨ io = .idle) :
      Step M E P .io s { s with registry, io }

end Core

namespace Client

variable {M : Miscast} {E : Platform} {P : Protobuf} {s s' : Client}

theorem silent_of_request {a : ClientAction} {b : RegistryAction} (h : a.request = some b) :
    b.Silent := by
  cases a <;> cases h <;> trivial

/-- A step of a client does to its core what one of the rules says. -/
theorem core_step {a : ClientAction} (h : step M E P a s = some s') :
    Core.Step M E P a s.core s'.core := by
  have hmove {j : ℕ} {c c' : Invocation} (hc : s.calls[j]? = some c) (hc' : c'.Quiet) :
      Core.Step M E P (.call j) s.core { s.core with calls := s.core.calls.set j c' } :=
    .move hc hc' (.inl rfl)
  have hneutral (a : ClientAction) : Core.Step M E P a s.core s.core := .neutral (.inl rfl)
  cases Step.of_step h with
  | @enter op =>
      refine .invoke ⟨by simp, by simp, by simp, by simp⟩ ?_
      cases op <;> simp [Operation.entered]
  | refuse | handshake => exact .invoke ⟨by simp, by simp, by simp, by simp⟩ id
  | post hc | connected hc | unconnected hc | exhausted hc | again hc | reject hc =>
      exact hmove hc ⟨by simp, by simp, by simp, by simp⟩
  | started hc _ hop => exact hmove hc ⟨by simp, by simp, by simp, fun _ ↦ hop⟩
  | reset hc =>
      exact .move hc ⟨by simp, by simp, by simp, by simp⟩ (.inr ⟨.reset, by simp, rfl⟩)
  | sendConn hc _ hreg => exact .sendConn hc hreg
  | accept hc hpc hi hf hfpc hack => exact .accept hc hpc hi hf hfpc hack
  | store hc hpc =>
      refine .store hc hpc ?_
      split <;> simp
  | request ha hreg => exact .request (silent_of_request ha) hreg (.inl rfl)
  | write hreg => exact .write hreg
  | @sendHeartBeat id now _ _ _ hreg =>
      exact .request (b := .construct .sendHeartBeatAndGet id) trivial hreg (.inl rfl)
  | interrupt _ _ hreg => exact .request (b := .interrupt _) trivial hreg (.inl rfl)
  | beat | resolve | fail | close => exact hneutral _
  | alive => exact .neutral (.inr ⟨.reset, by simp, rfl⟩)
  | missed => exact .neutral (.inr ⟨.missed, by simp, rfl⟩)
  | connect hready =>
      rw [ready, Bool.and_eq_true, decide_eq_true_iff] at hready
      exact .connect hready.1
  | recv _ hw hbytes => exact .recv hw hbytes
  | ignore => exact .ignore
  | respond hio => exact .respond hio (.inr ⟨.reset, by simp, rfl⟩)
  | dispatch hio hreg =>
      refine .dispatch hio hreg ?_
      split <;> simp
  | fulfil _ hreg => exact .request (b := .setResponse) trivial hreg (.inr rfl)

end Client

/-! ## The registry of a client -/

/-- What a step of a client does to its registry: nothing, or a step of the registry, which writes
the request that the client writes and dispatches the packet that the client handles. -/
theorem Core.Step.table {M : Miscast} {E : Platform} {P : Protobuf} {a : ClientAction}
    {s s' : Core} (h : Core.Step M E P a s s') :
    s'.registry = s.registry ∨ ∃ b, Registry.step b s.registry = some s'.registry ∧
      (∀ i, b = .write i → a = .write i) ∧
      ∀ pkg, b = .dispatch pkg → a = .io ∧ ∃ frame, s.io = .responding pkg frame := by
  cases h with
  | sendConn _ hreg => exact .inr ⟨_, hreg, by simp, by simp⟩
  | request hb hreg _ =>
      exact .inr ⟨_, hreg, fun i h ↦ absurd h (hb.ne_write i),
        fun pkg h ↦ absurd h (hb.ne_dispatch pkg)⟩
  | write hreg => exact .inr ⟨_, hreg, by simp, by simp⟩
  | dispatch hio hreg _ =>
      refine .inr ⟨_, hreg, by simp, fun pkg h ↦ ?_⟩
      cases h
      exact ⟨rfl, _, hio⟩
  | _ => exact .inl rfl

/-- A step of a client is a step of its registry, or leaves the registry alone. -/
theorem Core.Step.registry {M : Miscast} {E : Platform} {P : Protobuf} {a : ClientAction}
    {s s' : Core} (h : Core.Step M E P a s s') :
    s'.registry = s.registry ∨ ∃ b, Registry.step b s.registry = some s'.registry :=
  h.table.imp_right fun ⟨b, hb, _⟩ ↦ ⟨b, hb⟩

/-- **Refinement.** A client with its threads keeps to the protocol of requests and responses. -/
def registryRefinement (M : Miscast) (E : Platform) (P : Protobuf) :
    System.Refinement (client M E P) registry where
  abs := Client.registry
  init := by
    rintro s ⟨header, rfl⟩
    rfl
  step _ _ _ _ h := (Client.core_step h).registry

end Kiteq

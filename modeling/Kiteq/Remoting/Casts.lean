import Kiteq.Remoting.Clients

/-!
# The casts of the callers

A caller casts the message of its response to the class it expects, without looking at it.  The
class was chosen by `parseFrom` from the command of the packet; the request was found by the
opaque.  Nothing compares the two.

A packet carries its class with it: whatever is read, the message of a packet has the class its
command is paired with (`KitePacket.Typed`).  So the casts are right along every run in which a
packet that finds a request carries the command that request asks for.

The table is that of the whole process, and the packet may come from the server of any client.
-/

namespace Kiteq

open Lib

/-! ## Typed packets -/

/-- The message of the packet, if there is one, has the class of its command. -/
def KitePacket.Typed (pkg : KitePacket) : Prop :=
  ∀ m, pkg.message = some m → messageKind pkg.cmdType = some m.kind

section

variable {E : Platform} {P : Protobuf}

theorem KitePacket.Typed.parsed {pkg : KitePacket} (hpkg : pkg.Typed) (buf : Mem) (len : CInt) :
    (KitePacket.parsed E P pkg buf len).2.Typed := by
  cases hacc : accepted buf len with
  | none => rwa [parsed_of_rejected hacc]
  | some k =>
      rw [parsed_of_accepted hacc]
      have hkind : messageKind (buf 4) = some k := by
        rw [accepted] at hacc
        split at hacc
        · cases hacc
        · exact hacc
      intro m hm
      cases hm
      rw [messageOf, P.kind_parseFromArray]
      exact hkind

/-- Every packet the handler is given is the one the session holds afterwards, and is typed. -/
theorem Session.typed_complete {s : Session} (hs : s.readPkg.Typed) {w : Wait}
    (hw : s.pending = some w) (e : Bool) (bytes : List CChar) :
    (s.complete E P e bytes).1.readPkg.Typed ∧
      ∀ pkg, some pkg ∈ handled (s.complete E P e bytes).2 → pkg.Typed := by
  have hcompletion := completion_complete (E := E) (P := P) hw e bytes
  generalize s.complete E P e bytes = c at hcompletion
  cases hcompletion with
  | failed | negative | length => exact ⟨hs, by simp [handled]⟩
  | oversized => exact ⟨hs, by simpa [handled] using hs⟩
  | @parsed n r _ _ _ hr =>
      have hparsed : r.2.Typed := hr ▸ hs.parsed _ _
      refine ⟨hparsed, ?_⟩
      split
      · simpa [handled] using hparsed
      · simp [handled]

end

/-! ## The invariant -/

/-- A packet that finds a request carries the command the request asks for. -/
def matched : ClientAction → Core → Bool
  | .io, s => match s.io with
    | .responding pkg _ => (s.registry.found pkg).all fun f ↦ pkg.cmdType = f.caller.command
    | _ => true
  | _, _ => true

/-- The packets that have answered a request have the class its caller expects. -/
def Registry.Typed (r : Registry) : Prop :=
  ∀ f ∈ r.futures, ∀ pkg, f.answeredBy = some pkg → ∀ m, pkg.message = some m →
    m.kind = f.caller.kind

/-- So have those; the packets that are held are typed. -/
structure Core.Typed (s : Core) : Prop where
  readPkg : s.session.readPkg.Typed
  io : ∀ pkg frame, s.io = .handling pkg frame ∨ s.io = .responding pkg frame → pkg.Typed
  answered : s.registry.Typed

namespace Core.Typed

variable {M : Miscast} {E : Platform} {P : Protobuf} {a : ClientAction} {s s' : Core}

theorem setRegistry (hs : s.Typed) {b : RegistryAction} {registry : Registry}
    (hreg : Registry.step b s.registry = some registry)
    (hb : ∀ pkg f, b = .dispatch pkg → s.registry.found pkg = some f → ∀ m,
      pkg.message = some m → m.kind = f.caller.kind) :
    Typed { s with registry } := by
  refine ⟨hs.readPkg, hs.io, fun g hg pkg hpkg m hm ↦ ?_⟩
  obtain ⟨i, hi⟩ := List.mem_iff_getElem?.mp hg
  rcases Registry.step_evolves hreg hi with ⟨f, hf, hev⟩ | ⟨caller, id, -, -, rfl⟩
  · rw [hev.caller]
    rcases hev.answeredBy with hsame | ⟨pkg', hdispatch, hpkg', hfound⟩
    · exact hs.answered f (List.mem_of_getElem? hf) pkg (hsame ▸ hpkg) m hm
    · obtain rfl := Option.some.inj (hpkg.symm.trans hpkg')
      exact hb _ f hdispatch hfound m hm
  · cases hpkg

theorem setIo (hs : s.Typed) {io : IoPc}
    (hio : ∀ pkg frame, io = .handling pkg frame ∨ io = .responding pkg frame → pkg.Typed) :
    Typed { s with io } := ⟨hs.readPkg, hio, hs.answered⟩

theorem setSession (hs : s.Typed) {session : Session} (h : session.readPkg.Typed) :
    Typed { s with session } := ⟨h, hs.io, hs.answered⟩

/-- What no packet depends on. -/
theorem setRest (hs : s.Typed) {status : STATE} {calls : List Invocation}
    {log : List Happening} : Typed { s with status, calls, log } :=
  ⟨hs.readPkg, hs.io, hs.answered⟩

/-- **Step lemma.** -/
theorem step (hs : s.Typed) (hok : matched a s = true) (h : Core.Step M E P a s s') :
    s'.Typed := by
  cases h with
  | neutral | invoke | move | accept | store => exact hs.setRest
  | sendConn hc hreg => exact (hs.setRegistry hreg (by simp)).setRest
  | request hb hreg hio =>
      refine (hs.setRegistry hreg fun pkg _ h ↦ absurd h (hb.ne_dispatch pkg)).setIo ?_
      rcases hio with rfl | rfl
      · exact hs.io
      · simp
  | write hreg => exact (hs.setRegistry hreg (by simp)).setRest
  | connect => exact ⟨hs.readPkg, hs.io, hs.answered⟩
  | @recv e bytes _ _ hw =>
      obtain ⟨hread, hhandled⟩ :=
        Session.typed_complete hs.readPkg (E := E) (P := P) hw e bytes
      refine ((hs.setSession hread).setIo fun pkg frame hio ↦ ?_).setRest
      split at hio
      · rename_i pkg' hpkg'
        simp only [IoPc.handling.injEq, reduceCtorEq, or_false] at hio
        exact hhandled pkg (by simp [hpkg', hio.1])
      · simp at hio
  | ignore => exact hs.setIo (by simp)
  | @respond _ pkg frame _ hio =>
      refine ⟨hs.readPkg, fun pkg' frame' hio' ↦ ?_, hs.answered⟩
      simp only [reduceCtorEq, IoPc.responding.injEq, false_or] at hio'
      exact hio'.1 ▸ hs.io pkg frame (.inl hio)
  | @dispatch _ pkg frame registry io hio hreg hio' =>
      have hanswer : ∀ f, s.registry.found pkg = some f → ∀ m, pkg.message = some m →
          m.kind = f.caller.kind := by
        intro f hf m hm
        have hcmd : pkg.cmdType = f.caller.command := by simpa [matched, hio, hf] using hok
        have hkind := hs.io pkg frame (.inr hio) m hm
        rw [hcmd, messageKind_command] at hkind
        exact (Option.some.inj hkind).symm
      refine (hs.setRegistry hreg fun pkg' f h ↦ ?_).setIo ?_
      · cases h
        exact hanswer f
      · rcases hio' with rfl | rfl <;> simp

end Core.Typed

/-! ## The casts are right -/

namespace Clients

/-- The condition on a step of the process. -/
def matched : ClientsAction → Clients → Bool
  | .new _, _ => true
  | .client c a, s => (s.view c).all fun k ↦ Kiteq.matched a k.core

/-- Every message a caller has got from its future is of the class it is cast to. -/
def CastsSound (s : Clients) : Prop :=
  ∀ f ∈ s.registry.futures, ∀ resp m, f.pc = .returned (some resp) → resp.message = some m →
    m.kind = f.caller.kind

/-- The clients of the process hold typed packets, and so does the table. -/
structure Typed (s : Clients) : Prop where
  view : ∀ c k, s.view c = some k → k.core.Typed
  registry : s.registry.Typed

variable {M : Miscast} {E : Platform} {P : Protobuf} {s s' : Clients}

theorem typed_empty : Typed .empty := by
  constructor <;> simp [Clients.view, empty, Registry.Typed, Registry.empty]

/-- **Step lemma.** What one client has dispatched is in the table of all of them. -/
theorem Typed.step (hs : s.Typed) {a : ClientsAction} (hok : matched a s = true)
    (h : Clients.step M E P a s = some s') : s'.Typed := by
  cases Step.of_step h with
  | @new header =>
      refine ⟨fun d m hm ↦ ?_, hs.registry⟩
      rcases view_new_iff.mp hm with hm | ⟨-, rfl⟩
      · exact hs.view d m hm
      · exact ⟨by simp [Client.core, Client.new, KitePacket.Typed],
          by simp [Client.core, Client.new], hs.registry⟩
  | @client c a _ k k' _ hk hstep =>
      have hmatched : Kiteq.matched a k.core = true := by simpa [matched, hk] using hok
      have hk' := (hs.view c k hk).step hmatched (Client.core_step hstep)
      refine ⟨fun d m hm ↦ ?_, hk'.answered⟩
      rcases (view_update_iff hk).mp hm with ⟨-, rfl⟩ | ⟨-, m₀, hm₀, rfl⟩
      · exact hk'
      · exact ⟨(hs.view d m₀ hm₀).readPkg, (hs.view d m₀ hm₀).io, hk'.answered⟩

theorem typed_of_reachesUnder
    (hs : (clients M E P).ReachesUnder (fun a s ↦ matched a s = true) s) : s.Typed := by
  refine hs.invariant ?_ fun a s s' hs hok h ↦ hs.step hok h
  rintro s rfl
  exact typed_empty

/-- **The casts are right** along every run of the clients of a process in which a packet that
finds a request carries the command that the request asks for. -/
theorem castsSound_of_reachesUnder
    (hs : (clients M E P).ReachesUnder (fun a s ↦ matched a s = true) s) : s.CastsSound := by
  intro f hf resp m hpc hm
  obtain ⟨i, hi⟩ := List.mem_iff_getElem?.mp hf
  obtain ⟨pkg, hpkg, rfl, -⟩ :=
    (registry_inv_of_reachable hs.reachable).answeredBy_of_returned hi hpc
  exact (typed_of_reachesUnder hs).registry f hf pkg hpkg m hm

/-- A handshake whose answer is an ack. -/
theorem castsSound_trueAck : ∃ s,
    (clients zeroed .gcc proto2).ReachesUnder (fun a s ↦ matched a s = true) s ∧
      s.registry.futures.map (·.pc) =
        [.returned (some ⟨7, some (.connAuthAck ⟨some true, some []⟩)⟩)] ∧ s.CastsSound := by
  have hrun : (((clients zeroed .gcc proto2).guard fun a s ↦ matched a s = true).exec
      (alone (handshakeRun trueAck)) .empty).map (·.registry.futures.map (·.pc)) =
      some [.returned (some ⟨7, some (.connAuthAck ⟨some true, some []⟩)⟩)] := by decide +kernel
  obtain ⟨s, hreach, hpc⟩ := System.exists_reachesUnder hrun rfl
  exact ⟨s, hreach, hpc, castsSound_of_reachesUnder hreach⟩

/-- A handshake is answered by a heartbeat with its opaque. -/
def heartBeatRun : List ClientAction :=
  [.invoke .start, .call 0, .resolve 0 false, .connect 0 false, .call 0, .call 0,
    .invoke .handshake, .sendConn 1 7, .used 0, .write 0,
    .recv false (BigEndian.bytes 4 (19 + 2 : CInt)),
    .recv false (KitePacketHeader.payload ⟨7, Protocol.CMD_HEARTBEAT, 0, 0⟩
      (proto2.serialize (.heartBeat ⟨some 1⟩))), .io, .io, .io, .test 0]

/-- The handshake gets the heartbeat, and casts it to a `ConnAuthAck`. -/
theorem not_castsSound_heartBeat : ∃ s, (clients zeroed .gcc proto2).Reachable s ∧
    ¬s.CastsSound := by
  have hrun : ((clients zeroed .gcc proto2).exec (alone heartBeatRun) .empty).map
      (·.registry.futures.map fun f ↦ (f.caller, f.pc)) =
      some [(.sendConnAndGet, .returned (some ⟨7, some (.heartBeat ⟨some 1⟩)⟩))] := by
    decide +kernel
  obtain ⟨s, hreach, heq⟩ := System.exists_reachable hrun rfl
  refine ⟨s, hreach, fun h ↦ ?_⟩
  obtain ⟨f, hf, hpair⟩ : ∃ f ∈ s.registry.futures, (f.caller, f.pc) =
      (Caller.sendConnAndGet,
        RequestPc.returned (some ⟨7, some (.heartBeat ⟨some 1⟩)⟩)) := by
    have hmem := List.mem_singleton_self
      (Caller.sendConnAndGet, RequestPc.returned (some ⟨7, some (.heartBeat ⟨some 1⟩)⟩))
    rw [← heq] at hmem
    exact List.mem_map.mp hmem
  obtain ⟨hcaller, hpc⟩ := Prod.mk.inj hpair
  have hkind := h f hf _ _ hpc rfl
  rw [hcaller] at hkind
  cases hkind

end Clients

end Kiteq

import Kiteq.Remoting.Clients

/-!
# What `RUNNING` is worth

`handle_connect` stores `RECOVERING` and a handshake stores `RUNNING`, and neither looks at what
is there.  A retry loop leaves attempts behind that may still connect when it has returned; if
one does after a handshake has sent its request, the handshake goes on to store `RUNNING` for a
connection on which nothing was authenticated.

`undisturbed` excludes that and nothing else.  The other way to a `RUNNING` without an ack is a
handshake that is told true by something else: `answersConn` asks of the packets that complete a
request of `sendConnAndGet`, and of no others, that they are an ack, read from one frame by the
client that has sent the request.

Along the runs that respect both, whatever a handshake rests on has happened since the last
connect of its client; this is `Core.Fresh`.  It holds of every client of a process, and is kept
by its own steps and by what the others do to the table.
-/

namespace Kiteq

open Lib

/-! ## Handshakes under way -/

instance (f : ResponseFuture) : Decidable f.Sent := inferInstanceAs (Decidable (_ ∧ _))

/-- The call relies on something that was sent or received: its request has been written or
answered, or it has seen the ack and not returned yet. -/
def Core.underWay (s : Core) (c : Invocation) : Bool :=
  match c.pc with
  | .awaiting => (c.request.bind (s.registry.futures[·]?)).any fun f ↦
      f.Sent || f.answeredBy.isSome
  | .authenticated | .restoring => true
  | _ => false

/-- No attempt connects while a handshake is under way. -/
def undisturbed : ClientAction → Core → Bool
  | .connect _ false, s => s.calls.all (!s.underWay ·)
  | _, _ => true

/-! ## What completes a handshake -/

section

variable {E : Platform} {P : Protobuf}

theorem fromFrame_iff {pkg : KitePacket} {frame : List CChar} :
    FromFrame E P pkg frame ↔ frame.length < 2 ^ 31 ∧
      ∃ k ∈ KitePacket.accepted (E.memory frame) (BitVec.ofNat 32 frame.length),
        pkg.toKitePacketHeader = KitePacket.headerOf E (E.memory frame) ∧
        pkg.message = some (KitePacket.messageOf P k (E.memory frame)) := by
  constructor
  · rintro ⟨len, hlen, k, hk, hpkg⟩
    have hlt := BitVec.toInt_lt (x := len)
    exact ⟨by omega, k, eq_ofNat_of_toInt_eq hlen ▸ hk, hpkg⟩
  · rintro ⟨hlt, k, hk, hpkg⟩
    exact ⟨_, toInt_ofNat_of_lt hlt, k, hk, hpkg⟩

instance (pkg : KitePacket) (frame : List CChar) : Decidable (FromFrame E P pkg frame) :=
  decidable_of_iff _ fromFrame_iff.symm

end

/-- A packet that completes a request of `sendConnAndGet` completes one of the given requests, and
is made of the frame that was read for it, which answers that request well. -/
def answersConn (E : Platform) (P : Protobuf) (own : ℕ → Prop) [DecidablePred own] :
    ClientAction → Core → Bool
  | .io, s =>
    match s.io with
    | .responding pkg frame => (s.registry.futureMap pkg.opaqueId).all fun i ↦
        (s.registry.futures[i]?).all fun f ↦ f.caller ≠ .sendConnAndGet ||
          own i && FromFrame E P pkg frame && wellAnswered E P .sendConnAndGet frame
    | _ => true
  | _, _ => true

section

variable {M : Miscast} {E : Platform} {P : Protobuf} {own own' : ℕ → Prop}

/-- What a step of the table does to the given requests is in the history: one that it writes is
there, and one of `sendConnAndGet` that it completes with a true ack has been acknowledged. -/
structure Logged (M : Miscast) (E : Platform) (P : Protobuf) (own : ℕ → Prop) (r : Registry)
    (b : RegistryAction) (log : List Happening) : Prop where
  sent : ∀ i, own i → b = .write i → .sent i ∈ log
  answered : ∀ pkg (i : ℕ) (f : ResponseFuture), own i → b = .dispatch pkg →
    r.futureMap pkg.opaqueId = some i → r.futures[i]? = some f → f.caller = .sendConnAndGet →
      ackStatus M .sendConnAndGet (Registry.responseOf pkg) = some true → Acknowledged E P log f

theorem RegistryAction.Silent.logged {b : RegistryAction} (h : b.Silent) (r : Registry)
    (log : List Happening) : Logged M E P own r b log :=
  ⟨fun i _ hb ↦ absurd hb (h.ne_write i), fun pkg _ _ _ hb ↦ absurd hb (h.ne_dispatch pkg)⟩

/-- The request that is found for a packet is the one in the table under its opaque. -/
theorem Registry.Inv.futureMap_of_found {r : Registry} (hr : r.Inv) {pkg : KitePacket} {i : ℕ}
    {f : ResponseFuture} (hf : r.futures[i]? = some f) (h : r.found pkg = some f) :
    r.futureMap pkg.opaqueId = some i := by
  unfold Registry.found at h
  split at h
  · rename_i resp hresp
    obtain ⟨j, hj, hfj⟩ := Option.bind_eq_some_iff.mp h
    obtain rfl := hr.distinct _ _ _ _ hf hfj rfl
    rwa [(Registry.dispatch_eq_receiveResponse hresp).2] at hj
  · cases h

/-! ## The invariant -/

/-- What a call of `handshake` rests on is in the given history; its request is a given one. -/
structure Invocation.Current (M : Miscast) (E : Platform) (P : Protobuf) (own : ℕ → Prop)
    (futures : List ResponseFuture) (log : List Happening) (c : Invocation) : Prop where
  awaiting : c.pc = .awaiting → ∃ (i : ℕ) (f : ResponseFuture), c.request = some i ∧ own i ∧
    futures[i]? = some f ∧ f.caller = .sendConnAndGet ∧ (f.Sent → .sent i ∈ log) ∧
      ∀ pkg, f.answeredBy = some pkg →
        ackStatus M .sendConnAndGet (Registry.responseOf pkg) = some true → Acknowledged E P log f
  authenticated : c.pc = .authenticated ∨ c.pc = .restoring →
    ∃ i, c.request = some i ∧ .sent i ∈ log ∧ HasAck E P futures log i

theorem Invocation.Quiet.current {c : Invocation} (h : c.Quiet) {futures : List ResponseFuture}
    {log : List Happening} : c.Current M E P own futures log :=
  ⟨fun hpc ↦ absurd hpc h.1, fun hpc ↦ absurd hpc (not_or.mpr ⟨h.2.1, h.2.2.1⟩)⟩

namespace Invocation.Current

variable {c : Invocation} {log log' : List Happening}

theorem mono {futures : List ResponseFuture} (h : c.Current M E P own futures log)
    (hown : ∀ i, own i → own' i) (hlog : ∀ x ∈ log, x ∈ log') :
    c.Current M E P own' futures log' := by
  constructor
  · intro hpc
    obtain ⟨i, f, hi, hi', hf, hcaller, hsent, hack⟩ := h.awaiting hpc
    exact ⟨i, f, hi, hown i hi', hf, hcaller, fun h ↦ hlog _ (hsent h),
      fun pkg hpkg h ↦ (hack pkg hpkg h).mono hlog rfl rfl⟩
  · intro hpc
    obtain ⟨i, hi, hsent, hack⟩ := h.authenticated hpc
    exact ⟨i, hi, hlog _ hsent, hack.mono (.refl _) hlog⟩

/-- A step of the table keeps what the call rests on, if what it does to its request is in the
history, too. -/
theorem step {r r' : Registry} {b : RegistryAction} (h : c.Current M E P own r.futures log)
    (hr : r.Inv) (hreg : Registry.step b r = some r') (hb : Logged M E P own r b log) :
    c.Current M E P own r'.futures log := by
  constructor
  · intro hpc
    obtain ⟨i, f, hi, hi', hf, hcaller, hfsent, hfack⟩ := h.awaiting hpc
    obtain ⟨g, hg, hev⟩ := Registry.exists_of_step hreg hf
    refine ⟨i, g, hi, hi', hg, hev.caller.trans hcaller, ?_, ?_⟩
    · intro hgsent
      rcases hev.sent hgsent with h | hwrite
      · exact hfsent h
      · exact hb.sent i hi' hwrite
    · intro pkg hpkg hack
      have hf' : Acknowledged E P log f := by
        rcases hev.answeredBy with hsame | ⟨pkg', hdispatch, hpkg', hfound⟩
        · exact hfack pkg (hsame ▸ hpkg) hack
        · cases hpkg.symm.trans hpkg'
          exact hb.answered pkg i f hi' hdispatch (hr.futureMap_of_found hf hfound) hf hcaller hack
      exact hf'.mono (fun _ h ↦ h) hev.caller hev.requestId
  · intro hpc
    obtain ⟨i, hi, hlog, hack⟩ := h.authenticated hpc
    exact ⟨i, hi, hlog, hack.mono (keeps_of_step hreg) fun _ h ↦ h⟩

end Invocation.Current

/-- What the calls and the status rest on has happened since the last connect, and so has the
read of the packet in hand. -/
structure Core.Fresh (M : Miscast) (E : Platform) (P : Protobuf) (own : ℕ → Prop) (s : Core) :
    Prop where
  calls : ∀ c ∈ s.calls, c.Current M E P own s.registry.futures (recent s.log)
  running : s.status = .RUNNING →
    ∃ i, .sent i ∈ recent s.log ∧ HasAck E P s.registry.futures (recent s.log) i
  io : ∀ pkg frame, s.io = .handling pkg frame ∨ s.io = .responding pkg frame →
    .received frame ∈ recent s.log

theorem Client.ioOf_ne_responding (es : List Event) (frame : List CChar) (pkg : KitePacket)
    (frame' : List CChar) : ioOf es frame ≠ .responding pkg frame' := by
  unfold ioOf
  split <;> simp

/-- A packet is handled after a read without an error, of the frame that was read. -/
theorem Client.read_of_ioOf {s : Session} {w : Wait} (hw : s.pending = some w) {e : Bool}
    {bytes : List CChar} {pkg : KitePacket} {frame : List CChar}
    (h : ioOf (s.complete E P e bytes).2 bytes = .handling pkg frame) :
    (e = false ∧ w ≠ .pkglen) ∧ frame = bytes := by
  have hcompletion := Session.completion_complete (E := E) (P := P) hw e bytes
  generalize s.complete E P e bytes = c at hcompletion h
  have hframe : frame = bytes := by
    unfold ioOf at h
    split at h <;> cases h
    rfl
  refine ⟨?_, hframe⟩
  cases hcompletion with
  | failed | negative | length => simp [ioOf, handled] at h
  | oversized he hpending =>
      obtain rfl := Option.some.inj (hw.symm.trans hpending)
      exact ⟨he, by simp⟩
  | parsed he hpending =>
      obtain rfl := Option.some.inj (hw.symm.trans hpending)
      exact ⟨he, by simp⟩

namespace Core.Fresh

variable {s : Core}

theorem fresh_new (header : KitePacketHeader) (r : Registry) :
    Core.Fresh M E P own { (Client.new header).core with registry := r } := by
  constructor <;> simp [Client.core, Client.new]

theorem mono (hs : s.Fresh M E P own) (hown : ∀ i, own i → own' i) : s.Fresh M E P own' :=
  ⟨fun c hc ↦ (hs.calls c hc).mono hown fun _ h ↦ h, hs.running, hs.io⟩

theorem extend (hs : s.Fresh M E P own) {log : List Happening} (hlog : Extends s.log log) :
    Core.Fresh M E P own { s with log } := by
  have hmem : ∀ x ∈ recent s.log, x ∈ recent log := fun x ↦ mem_recent_of_extends hlog
  refine ⟨fun c hc ↦ (hs.calls c hc).mono (fun _ h ↦ h) hmem, fun hrun ↦ ?_,
    fun pkg frame hio ↦ hmem _ (hs.io pkg frame hio)⟩
  obtain ⟨i, hsent, hack⟩ := hs.running hrun
  exact ⟨i, hmem _ hsent, hack.mono (.refl _) hmem⟩

theorem setCalls (hs : s.Fresh M E P own) {calls : List Invocation} {c' : Invocation}
    (hcalls : Adds s.calls calls c')
    (hc' : c'.Current M E P own s.registry.futures (recent s.log)) :
    Core.Fresh M E P own { s with calls } :=
  ⟨hcalls.forall_mem hs.calls hc', hs.running, hs.io⟩

theorem setStatus (hs : s.Fresh M E P own) {status : STATE} (h : status = .RUNNING →
      ∃ i, .sent i ∈ recent s.log ∧ HasAck E P s.registry.futures (recent s.log) i) :
    Core.Fresh M E P own { s with status } :=
  ⟨hs.calls, h, hs.io⟩

theorem setIo (hs : s.Fresh M E P own) {io : IoPc}
    (h : ∀ pkg frame, io = .handling pkg frame ∨ io = .responding pkg frame →
      .received frame ∈ recent s.log) : Core.Fresh M E P own { s with io } :=
  ⟨hs.calls, hs.running, h⟩

/-- A step of the table, the client's own or not. -/
theorem setRegistry (hs : s.Fresh M E P own) (hr : s.registry.Inv) {b : RegistryAction}
    {registry : Registry} (hreg : Registry.step b s.registry = some registry)
    (hb : Logged M E P own s.registry b (recent s.log)) :
    Core.Fresh M E P own { s with registry } := by
  refine ⟨fun c hc ↦ (hs.calls c hc).step hr hreg hb, fun hrun ↦ ?_, hs.io⟩
  obtain ⟨i, hi, hack⟩ := hs.running hrun
  exact ⟨i, hi, hack.mono (keeps_of_step hreg) fun _ h ↦ h⟩

/-- An attempt connects: nothing is under way that could rely on what is past. -/
theorem connect (hs : s.Fresh M E P own) {k : ℕ} (hio : s.io = .idle)
    (hok : undisturbed (.connect k false) s) {session : Session} :
    Core.Fresh M E P own { s with
      status := .RECOVERING, session, log := .connected :: s.log } := by
  refine ⟨fun c hc ↦ ?_, by simp, by simp [hio]⟩
  have hidle : s.underWay c = false := by simpa using List.all_eq_true.mp hok c hc
  constructor
  · intro hpc
    obtain ⟨i, f, hi, hi', hf, hcaller, -⟩ := (hs.calls c hc).awaiting hpc
    have hquiet : ¬f.Sent ∧ f.answeredBy = none := by
      simpa [underWay, hpc, hi, hf] using hidle
    refine ⟨i, f, hi, hi', hf, hcaller, fun h ↦ absurd h hquiet.1, ?_⟩
    intro pkg hpkg
    rw [hquiet.2] at hpkg
    cases hpkg
  · rintro (hpc | hpc) <;> simp [underWay, hpc] at hidle

/-- The packet in hand completes a request of `sendConnAndGet` only if it is its ack. -/
theorem logged_dispatch (hP : P.Strict) (hr : s.registry.Inv) (hs : s.Fresh M E P own)
    {pkg : KitePacket} {frame : List CChar} (hio : s.io = .responding pkg frame)
    {mine : ℕ → Prop} [DecidablePred mine] (hok : answersConn E P mine .io s = true) :
    Logged M E P own s.registry (.dispatch pkg) (recent s.log) := by
  refine ⟨by simp, fun pkg' i f _ hdispatch hi hf hcaller hack ↦ ?_⟩
  cases hdispatch
  simp only [answersConn, hio, hi, hf, hcaller, Option.all_some, ne_eq, not_true_eq_false,
    decide_false, Bool.false_or, Bool.and_eq_true, decide_eq_true_eq] at hok
  obtain ⟨⟨-, hfrom⟩, hwell⟩ := hok
  have hid : pkg.opaqueId = f.requestId := ((hr.futureMap_iff hf _).mp hi).1
  have hvalid := validAck_of_wellAnswered hP hfrom (by simp) hwell hack
  exact ⟨frame, hs.io pkg frame (.inr hio), hcaller ▸ hid ▸ hvalid⟩

/-- **Step lemma.** A step of the client that satisfies the conditions. -/
theorem step (hP : P.Strict) {a : ClientAction} {s' : Core} (hr : s.registry.Inv)
    (hs : s.Fresh M E P own) {mine : ℕ → Prop} [DecidablePred mine]
    (hnew : s.registry.futures.length < s'.registry.futures.length →
      own s.registry.futures.length)
    (hok : undisturbed a s) (hconn : answersConn E P mine a s = true)
    (h : Core.Step M E P a s s') : s'.Fresh M E P own := by
  cases h with
  | neutral hlog => exact hs.extend hlog
  | invoke hc hstatus =>
      exact (hs.setStatus fun hrun ↦ hs.running (hstatus hrun)).setCalls
        (adds_concat _ _) hc.current
  | move hc hc' hlog => exact (hs.setCalls (adds_set _ _ _) hc'.current).extend hlog
  | @sendConn j id _ c registry hc hreg =>
      have hregistry : registry.futures = s.registry.futures ++ [.new .sendConnAndGet id] := by
        obtain ⟨-, rfl⟩ := Registry.construct_cases hreg
        rfl
      have hs' := hs.setRegistry hr hreg
        (RegistryAction.Silent.logged (b := .construct _ _) trivial _ _)
      refine hs'.setCalls (adds_set _ _ _) ⟨fun _ ↦
        ⟨_, .new .sendConnAndGet id, rfl, hnew ?_, ?_, rfl, ?_, ?_⟩, by simp⟩
      · simp [hregistry]
      · simp [hregistry]
      · simp [ResponseFuture.Sent, ResponseFuture.new]
      · simp [ResponseFuture.new]
  | @accept j i _ c f resp hc hpc hi hf hfpc hack =>
      obtain ⟨i', g, hi', -, hg, hcaller, hsent, hans⟩ :=
        (hs.calls c (List.mem_of_getElem? hc)).awaiting hpc
      cases hi.symm.trans hi'
      cases hf.symm.trans hg
      obtain ⟨pkg, hpkg, rfl, -⟩ := hr.answeredBy_of_returned hf hfpc
      have hfsent : f.Sent := by simp [ResponseFuture.Sent, hfpc]
      exact hs.setCalls (adds_set _ _ _)
        ⟨by simp, fun _ ↦ ⟨i, hi, hsent hfsent, f, hf, hcaller, hans pkg hpkg hack⟩⟩
  | @store j _ c pc hc hpc hpc' =>
      obtain ⟨i, hi, hsent, hack⟩ := (hs.calls c (List.mem_of_getElem? hc)).authenticated hpc
      refine (hs.setStatus fun _ ↦ ⟨i, hsent, hack⟩).setCalls (adds_set _ _ _)
        ⟨?_, fun _ ↦ ⟨i, hi, hsent, hack⟩⟩
      rcases hpc' with rfl | rfl <;> simp
  | request hb hreg hio =>
      refine (hs.setRegistry hr hreg (hb.logged _ _)).setIo ?_
      rcases hio with rfl | rfl
      · exact hs.io
      · simp
  | @write i _ registry hreg =>
      have hlog : Extends s.log (.sent i :: s.log) := .inr ⟨_, by simp, rfl⟩
      refine (hs.extend hlog).setRegistry hr hreg ⟨fun j _ hj ↦ ?_, by simp⟩
      cases hj
      simp [recent]
  | connect hio => exact hs.connect hio hok
  | @recv e bytes _ w hw hbytes =>
      have hlog : Extends s.log
          (if e = false ∧ w ≠ .pkglen then .received bytes :: s.log else s.log) := by
        split
        · exact .inr ⟨_, by simp, rfl⟩
        · exact .inl rfl
      refine ⟨(hs.extend hlog).calls, (hs.extend hlog).running, fun pkg frame hio ↦ ?_⟩
      rcases hio with hio | hio
      · obtain ⟨hread, rfl⟩ := Client.read_of_ioOf hw hio
        rw [if_pos hread]
        simp [recent]
      · exact absurd hio (Client.ioOf_ne_responding _ _ _ _)
  | ignore => exact hs.setIo (by simp)
  | @respond _ pkg frame _ hio hlog =>
      refine (hs.extend hlog).setIo fun pkg' frame' hio' ↦ ?_
      simp only [reduceCtorEq, IoPc.responding.injEq, false_or] at hio'
      exact hio'.2 ▸ (hs.extend hlog).io pkg frame (.inl hio)
  | dispatch hio hreg hio' =>
      refine (hs.setRegistry hr hreg (hs.logged_dispatch hP hr hio hconn)).setIo ?_
      rcases hio' with rfl | rfl <;> simp

end Core.Fresh

/-! ## Running means authenticated -/

/-- If the client is running, a request of `sendConnAndGet` has been written and acknowledged
since the last successful connect. -/
def Client.Authenticated (E : Platform) (P : Protobuf) (s : Client) : Prop :=
  s.status = .RUNNING →
    ∃ i, .sent i ∈ recent s.log ∧ HasAck E P s.registry.futures (recent s.log) i

namespace Clients

/-- The condition on a step of the process. -/
def authentic (E : Platform) (P : Protobuf) : ClientsAction → Clients → Bool
  | .new _, _ => true
  | .client c a, s => (s.view c).all fun k ↦
      undisturbed a k.core && answersConn E P (s.Owns c) a k.core

/-- What each client rests on has happened since its last connect. -/
def Fresh (M : Miscast) (E : Platform) (P : Protobuf) (s : Clients) : Prop :=
  ∀ c k, s.view c = some k → k.core.Fresh M E P (s.Owns c)

variable {s s' : Clients}

/-- What one client does to the table concerns no request of another, where the condition
holds. -/
theorem logged_of_ne {c d : ℕ} (hne : d ≠ c) {a : ClientAction} {k : Client}
    (hk : s.view c = some k) (hown : ∀ i, a.issued = some i → s.Owns c i)
    (hconn : answersConn E P (s.Owns c) a k.core = true) {b : RegistryAction}
    (hwrite : ∀ i, b = .write i → a = .write i)
    (hdispatch : ∀ pkg, b = .dispatch pkg → a = .io ∧ ∃ frame, k.core.io = .responding pkg frame)
    (log : List Happening) : Logged M E P (s.Owns d) s.registry b log := by
  have hregistry : k.core.registry = s.registry := registry_of_view hk
  constructor
  · intro i hi hb
    have hc : s.Owns c i := hown i (by rw [hwrite i hb]; rfl)
    exact absurd (hi.unique hc) hne
  · intro pkg i f hi hb hmap hf hcaller
    obtain ⟨rfl, frame, hio⟩ := hdispatch pkg hb
    simp only [answersConn, hio, hregistry, hmap, hf, hcaller, Option.all_some, ne_eq,
      not_true_eq_false, decide_false, Bool.false_or, Bool.and_eq_true,
      decide_eq_true_eq] at hconn
    exact absurd (hi.unique hconn.1.1) hne

/-- **Step lemma.** A step of one client keeps what each of them rests on. -/
theorem Fresh.step (hP : P.Strict) (hr : s.registry.Inv) (howned : s.Owned)
    (hs : s.Fresh M E P) {a : ClientsAction} (hok : authentic E P a s = true)
    (h : Clients.step M E P a s = some s') : s'.Fresh M E P := by
  cases Step.of_step h with
  | @new header =>
      intro d m hm
      rcases view_new_iff.mp hm with hm | ⟨-, rfl⟩
      · exact hs d m hm
      · exact Core.Fresh.fresh_new header s.registry
  | @client c a _ k k' hown hk hstep =>
      obtain ⟨hdist, hconn⟩ : undisturbed a k.core = true ∧
          answersConn E P (s.Owns c) a k.core = true := by simpa [authentic, hk] using hok
      have hcore := Client.core_step hstep
      have hregistry : k.core.registry = s.registry := registry_of_view hk
      intro d m hm
      rcases (view_update_iff hk).mp hm with ⟨rfl, rfl⟩ | ⟨hne, m₀, hm₀, rfl⟩
      · have hk' : k.core.Fresh M E P ((s.update d m).Owns d) := (hs _ k hk).mono fun i h ↦ h.update
        refine hk'.step hP (hregistry ▸ hr) ?_ hdist hconn hcore
        rw [hregistry]
        exact fun hlt ↦ howned.owns_update hlt
      · have hm₀' : m₀.core.registry = s.registry := registry_of_view hm₀
        have hown' : ∀ i, s.Owns d i → (s.update c k').Owns d i := fun i h ↦ h.update
        refine Core.Fresh.mono ?_ hown'
        rcases hcore.table with heq | ⟨b, hb, hwrite, hdispatch⟩
        · have heq' : m₀.core.registry = k'.registry := hm₀'.trans (hregistry.symm.trans heq.symm)
          exact heq' ▸ hs d m₀ hm₀
        · refine (hs d m₀ hm₀).setRegistry (hm₀' ▸ hr) (hm₀' ▸ hregistry ▸ hb) ?_
          rw [hm₀']
          exact logged_of_ne hne hk hown hconn hwrite hdispatch _

theorem fresh_of_reachesUnder (hP : P.Strict)
    (hs : (clients M E P).ReachesUnder (fun a s ↦ authentic E P a s = true) s) :
    s.Fresh M E P := by
  refine hs.invariant_of (J := fun s ↦ s.registry.Inv ∧ s.Owned)
    (fun s hs ↦ ⟨registry_inv_of_reachable hs.reachable, owned_of_reachable hs.reachable⟩) ?_
    fun a s s' hJ hs hok h ↦ hs.step hP hJ.1 hJ.2 hok h
  rintro s rfl c k hk
  simp [view, empty] at hk

/-- **Running means authenticated**, for every client of a process, along every run in which no
attempt of a client connects while a handshake of it is under way, and what completes a request
of `sendConnAndGet` is its ack, read by the client that has sent it. -/
theorem authenticated_of_reachesUnder (hP : P.Strict)
    (hs : (clients M E P).ReachesUnder (fun a s ↦ authentic E P a s = true) s) :
    ∀ c k, s.view c = some k → k.Authenticated E P :=
  fun c k hk ↦ (fresh_of_reachesUnder hP hs c k hk).running

end Clients

end

/-- A handshake that nothing disturbs. -/
theorem Clients.authenticated_trueAck :
    ∃ s k, (clients zeroed .gcc proto2).ReachesUnder
        (fun a s ↦ authentic .gcc proto2 a s = true) s ∧
      s.view 0 = some k ∧ k.status = .RUNNING ∧ k.Authenticated .gcc proto2 := by
  have hrun : (((clients zeroed .gcc proto2).guard fun a s ↦
      authentic .gcc proto2 a s = true).exec (alone (handshakeRun trueAck)) .empty).map
      (fun s ↦ (s.view 0).map (·.status)) = some (some .RUNNING) := by
    decide +kernel
  obtain ⟨s, hreach, hview⟩ := System.exists_reachesUnder hrun rfl
  obtain ⟨k, hk, hstatus⟩ := Option.map_eq_some_iff.mp hview
  exact ⟨s, k, hreach, hk, hstatus, authenticated_of_reachesUnder strict_proto2 hreach 0 k hk⟩

/-- A client that has posted two attempts when the first connects.  The second connects when the
handshake has seen its ack, just before it stores `RUNNING`. -/
def overtakenRun : List ClientAction :=
  [.invoke .start, .call 0, .call 0, .call 0, .call 0, .resolve 0 false, .resolve 1 false,
    .connect 0 false, .call 0, .call 0, .invoke .handshake, .sendConn 1 7, .used 0, .write 0,
    .recv false (BigEndian.bytes 4 (19 + trueAck.length : CInt)),
    .recv false (connAuthFrame 7 trueAck), .io, .io, .io, .test 0, .call 1,
    .connect 1 false, .call 1]

/-- A late connect leaves a client that is running on a connection without a handshake. -/
theorem Clients.not_authenticated_overtaken :
    ∃ s k, (clients zeroed .gcc proto2).Reachable s ∧ s.view 0 = some k ∧
      k.status = .RUNNING ∧ ¬k.Authenticated .gcc proto2 := by
  have hrun : ((clients zeroed .gcc proto2).exec (alone overtakenRun) .empty).map
      (fun s ↦ (s.view 0).map fun k ↦ (k.status, recent k.log)) =
      some (some (.RUNNING, [])) := by decide +kernel
  obtain ⟨s, hreach, hview⟩ := System.exists_reachable hrun rfl
  obtain ⟨k, hk, heq⟩ := Option.map_eq_some_iff.mp hview
  obtain ⟨hstatus, hlog⟩ := Prod.mk.inj heq
  refine ⟨s, k, hreach, hk, hstatus, fun h ↦ ?_⟩
  obtain ⟨i, hi, -⟩ := h hstatus
  rw [hlog] at hi
  cases hi

end Kiteq

import Kiteq.Protocol.Frame
import Kiteq.Protocol.Proto2
import Kiteq.Remoting.Core
import Kiteq.Remoting.RegistrySafety

/-!
# What an acknowledgement is worth

A caller takes `status()` of its response for the server's word.  Between the frame and the
caller stand the parser, which keeps whatever fields `ParseFromArray` left in the message when
it failed, the registry, which matches by opaque alone, the cast to the class the caller expects,
and a schema in which an unset status reads as true.

`clean` is a condition on each step: no frame is over the limit, and a frame that completes a
connection or message request has the matching command and a body that `ParseFromArray` accepts.
Along the runs that respect it a true status is always one the server sent.
-/

namespace Kiteq

open Lib

/-- `ParseFromArray` returns true for complete messages only. -/
def Protobuf.Strict (P : Protobuf) : Prop :=
  ∀ k p n, (P.parseFromArray k p n).1 = true → (P.parseFromArray k p n).2.isInitialized = true

theorem strict_proto2 : proto2.Strict := by
  intro k p n h
  simp only [proto2, Bool.and_eq_true] at h ⊢
  exact h.2

/-! ## Frames that acknowledge -/

/-- The status field of a message, where it has one and it is set. -/
def MessageLite.statusField : MessageLite → Option Bool
  | .connAuthAck m => m.status
  | .messageStoreAck m => m.status
  | _ => none

section

variable (E : Platform) (P : Protobuf)

/-- The frame is a packet with the given opaque and the command that answers the caller, and its
body is a complete encoding of an ack with a true status. -/
structure ValidAck (caller : Caller) (id : CInt) (frame : List CChar) : Prop where
  length : 19 ≤ frame.length
  opaqueId : (KitePacket.headerOf E (E.memory frame)).opaqueId = id
  cmdType : (KitePacket.headerOf E (E.memory frame)).cmdType = caller.command
  bodyLength_nonneg : 0 ≤ (KitePacket.bodyLength (E.memory frame)).toInt
  bodyLength_le : 19 + (KitePacket.bodyLength (E.memory frame)).toInt ≤ frame.length
  status : ∃ m, P.parseFromArray caller.kind ((E.memory frame).shift 19)
    (KitePacket.bodyLength (E.memory frame)) = (true, m) ∧ m.statusField = some true

/-- Such a frame has been read for the request. -/
def Acknowledged (log : List Happening) (f : ResponseFuture) : Prop :=
  ∃ frame, .received frame ∈ log ∧ ValidAck E P f.caller f.requestId frame

/-- The frame has the command that answers the caller, and a body that `ParseFromArray`
accepts. -/
def wellAnswered (caller : Caller) (frame : List CChar) : Bool :=
  19 ≤ frame.length && E.memory frame 4 = caller.command &&
    0 ≤ (KitePacket.bodyLength (E.memory frame)).toInt &&
    (P.parseFromArray caller.kind ((E.memory frame).shift 19)
      (KitePacket.bodyLength (E.memory frame))).1

/-- No frame is over the limit, and a frame that completes a connection or message request
answers it well. -/
def clean : ClientAction → Core → Bool
  | .recv _ _, s => s.session.pending = some .pkglen ||
      (lengthOf s.session.pkglen).toInt < KitePacket.getMaxFrameLength.toInt
  | .io, s =>
    match s.io with
    | .responding pkg frame => (s.registry.found pkg).all fun f ↦
        f.caller = .sendHeartBeatAndGet || wellAnswered E P f.caller frame
    | _ => true
  | _, _ => true

/-- The packet is what `parseFrom` makes of the frame. -/
def FromFrame (pkg : KitePacket) (frame : List CChar) : Prop :=
  ∃ len : CInt, len.toInt = frame.length ∧ ∃ k,
    KitePacket.accepted (E.memory frame) len = some k ∧
    pkg.toKitePacketHeader = KitePacket.headerOf E (E.memory frame) ∧
    pkg.message = some (KitePacket.messageOf P k (E.memory frame))

end

section

variable {M : Miscast} {E : Platform} {P : Protobuf}

theorem Acknowledged.mono {log log' : List Happening} {f g : ResponseFuture}
    (h : Acknowledged E P log f) (hlog : ∀ x ∈ log, x ∈ log') (hcaller : g.caller = f.caller)
    (hid : g.requestId = f.requestId) : Acknowledged E P log' g := by
  obtain ⟨frame, hframe, hvalid⟩ := h
  exact ⟨frame, hlog _ hframe, hcaller ▸ hid ▸ hvalid⟩

/-- A complete ack of the class its caller expects reads as true only if its status is set and
true. -/
theorem statusField_of_ackStatus {caller : Caller} {id : CInt} {m : MessageLite}
    (hkind : m.kind = caller.kind) (hinit : m.isInitialized = true)
    (hcaller : caller ≠ .sendHeartBeatAndGet)
    (hack : ackStatus M caller ⟨id, some m⟩ = some true) : m.statusField = some true := by
  cases caller with
  | sendHeartBeatAndGet => exact absurd rfl hcaller
  | sendConnAndGet =>
      cases m <;> simp only [MessageLite.kind, Caller.kind, reduceCtorEq] at hkind
      rename_i m
      simp only [MessageLite.isInitialized, Bool.and_eq_true, Option.isSome_iff_exists] at hinit
      obtain ⟨⟨b, hb⟩, -⟩ := hinit
      simp only [ackStatus, ConnAuthAck.getStatus, hb, Option.map_some, if_true,
        Option.getD_some] at hack
      exact hb.trans hack
  | sendMessageAndGet =>
      cases m <;> simp only [MessageLite.kind, Caller.kind, reduceCtorEq] at hkind
      rename_i m
      simp only [MessageLite.isInitialized, Bool.and_eq_true, Option.isSome_iff_exists] at hinit
      obtain ⟨⟨-, b, hb⟩, -⟩ := hinit
      simp only [ackStatus, MessageStoreAck.getStatus, hb, Option.map_some, if_true,
        Option.getD_some] at hack
      exact hb.trans hack

theorem ValidAck.wellAnswered {caller : Caller} {id : CInt} {frame : List CChar}
    (h : ValidAck E P caller id frame) : wellAnswered E P caller frame := by
  obtain ⟨m, hm, -⟩ := h.status
  simp only [Kiteq.wellAnswered, hm, Bool.and_eq_true, decide_eq_true_eq, and_true]
  exact ⟨⟨h.length, h.cmdType⟩, h.bodyLength_nonneg⟩

/-- From the frame to the caller: a packet made of a frame that answers well, with the id of the
request and a status that reads as true, came in a frame that acknowledges the request. -/
theorem validAck_of_wellAnswered (hP : P.Strict) {pkg : KitePacket} {frame : List CChar}
    {caller : Caller} (hfrom : FromFrame E P pkg frame) (hcaller : caller ≠ .sendHeartBeatAndGet)
    (hwell : wellAnswered E P caller frame)
    (hack : ackStatus M caller (Registry.responseOf pkg) = some true) :
    ValidAck E P caller pkg.opaqueId frame := by
  obtain ⟨len, hlen, k, hacc, hheader, hmessage⟩ := hfrom
  simp only [wellAnswered, Bool.and_eq_true, decide_eq_true_eq] at hwell
  obtain ⟨⟨⟨h19, hcmd⟩, hbody⟩, hparse⟩ := hwell
  have hnonneg : 0 ≤ len.toInt := by omega
  have hsub := KitePacket.toInt_sub_getHeaderLen hnonneg
  rw [KitePacket.accepted] at hacc
  split at hacc
  · cases hacc
  rename_i hle
  rw [hcmd, messageKind_command] at hacc
  cases hacc
  refine ⟨h19, (congrArg KitePacketHeader.opaqueId hheader).symm, hcmd, hbody, by omega, ?_⟩
  refine ⟨KitePacket.messageOf P caller.kind (E.memory frame), Prod.ext hparse rfl, ?_⟩
  rw [Registry.responseOf, hmessage] at hack
  exact statusField_of_ackStatus (P.kind_parseFromArray ..) (hP _ _ _ hparse) hcaller hack

/-! ## The invariant -/

theorem mem_of_extends {log log' : List Happening} (h : Extends log log') {x : Happening}
    (hx : x ∈ log) : x ∈ log' := by
  rcases h with rfl | ⟨y, -, rfl⟩
  · exact hx
  · exact List.mem_cons_of_mem y hx

theorem mem_recent_of_extends {log log' : List Happening} (h : Extends log log') {x : Happening}
    (hx : x ∈ recent log) : x ∈ recent log' := by
  rcases h with rfl | ⟨y, hy, rfl⟩
  · exact hx
  · rw [recent, List.takeWhile_cons_of_pos (by simpa using hy)]
    exact List.mem_cons_of_mem y hx

theorem mem_of_mem_recent {log : List Happening} {x : Happening} (hx : x ∈ recent log) :
    x ∈ log := (List.takeWhile_prefix _).subset hx

/-- The requests after a step: none has disappeared, and none has changed its caller or id. -/
def Keeps (futures futures' : List ResponseFuture) : Prop :=
  ∀ (i : ℕ) (f : ResponseFuture), futures[i]? = some f →
    ∃ g, futures'[i]? = some g ∧ g.caller = f.caller ∧ g.requestId = f.requestId

theorem keeps_of_step {b : RegistryAction} {r r' : Registry} (h : Registry.step b r = some r') :
    Keeps r.futures r'.futures := by
  intro i f hf
  obtain ⟨g, hg, hev⟩ := Registry.exists_of_step h hf
  exact ⟨g, hg, hev.caller, hev.requestId⟩

theorem Keeps.refl (futures : List ResponseFuture) : Keeps futures futures :=
  fun _ f hf ↦ ⟨f, hf, rfl, rfl⟩

/-- Request `i` is one of `sendConnAndGet`. -/
def IsConn (futures : List ResponseFuture) (i : ℕ) : Prop :=
  ∃ f, futures[i]? = some f ∧ f.caller = .sendConnAndGet

/-- It has been acknowledged. -/
def HasAck (E : Platform) (P : Protobuf) (futures : List ResponseFuture) (log : List Happening)
    (i : ℕ) : Prop :=
  ∃ f, futures[i]? = some f ∧ f.caller = .sendConnAndGet ∧ Acknowledged E P log f

theorem IsConn.mono {futures futures' : List ResponseFuture} {i : ℕ} (h : IsConn futures i)
    (hkeep : Keeps futures futures') : IsConn futures' i := by
  obtain ⟨f, hf, hcaller⟩ := h
  obtain ⟨g, hg, hc, -⟩ := hkeep i f hf
  exact ⟨g, hg, hc.trans hcaller⟩

theorem HasAck.mono {futures futures' : List ResponseFuture} {log log' : List Happening} {i : ℕ}
    (h : HasAck E P futures log i) (hkeep : Keeps futures futures')
    (hlog : ∀ x ∈ log, x ∈ log') : HasAck E P futures' log' i := by
  obtain ⟨f, hf, hcaller, hack⟩ := h
  obtain ⟨g, hg, hc, hid⟩ := hkeep i f hf
  exact ⟨g, hg, hc.trans hcaller, hack.mono hlog hc hid⟩

/-- A true ack is in the registry only for requests that have been acknowledged. -/
def Answered (M : Miscast) (E : Platform) (P : Protobuf) (futures : List ResponseFuture)
    (log : List Happening) : Prop :=
  ∀ (i : ℕ) (f : ResponseFuture) (pkg : KitePacket), futures[i]? = some f →
    f.answeredBy = some pkg → f.caller ≠ .sendHeartBeatAndGet →
    ackStatus M f.caller (Registry.responseOf pkg) = some true → Acknowledged E P log f

/-- A step of the registry answers a request with a true ack only if the request has been
acknowledged. -/
def AnswersTruly (M : Miscast) (E : Platform) (P : Protobuf) (r : Registry) (b : RegistryAction)
    (log : List Happening) : Prop :=
  ∀ pkg f, b = .dispatch pkg → r.found pkg = some f → f.caller ≠ .sendHeartBeatAndGet →
    ackStatus M f.caller (Registry.responseOf pkg) = some true → Acknowledged E P log f

theorem answersTruly_of_ne {r : Registry} {b : RegistryAction} {log : List Happening}
    (hb : ∀ pkg, b ≠ .dispatch pkg) : AnswersTruly M E P r b log :=
  fun pkg _ h ↦ absurd h (hb pkg)

theorem AnswersTruly.mono {r : Registry} {b : RegistryAction} {log log' : List Happening}
    (h : AnswersTruly M E P r b log) (hlog : ∀ x ∈ log, x ∈ log') :
    AnswersTruly M E P r b log' :=
  fun pkg f hb hfound hcaller hack ↦ (h pkg f hb hfound hcaller hack).mono hlog rfl rfl

/-- A request with a true ack after the step has been acknowledged, if that is so of what the
request had before it. -/
theorem AnswersTruly.acknowledged {r : Registry} {b : RegistryAction} {log : List Happening}
    (h : AnswersTruly M E P r b log) {i : ℕ} {f g : ResponseFuture} (hev : r.Evolves b i f g)
    (hf : ∀ pkg, f.answeredBy = some pkg →
      ackStatus M f.caller (Registry.responseOf pkg) = some true → Acknowledged E P log f)
    {pkg : KitePacket} (hpkg : g.answeredBy = some pkg)
    (hcaller : f.caller ≠ .sendHeartBeatAndGet)
    (hack : ackStatus M f.caller (Registry.responseOf pkg) = some true) :
    Acknowledged E P log f := by
  rcases hev.answeredBy with hans | ⟨pkg', hb, hpkg', hfound⟩
  · exact hf pkg (hans ▸ hpkg) hack
  · cases hpkg.symm.trans hpkg'
    exact h pkg f hb hfound hcaller hack

/-- The call has been told that its handshake succeeded. -/
def Invocation.Succeeded (c : Invocation) : Prop :=
  c.pc = .authenticated ∨ c.pc = .restoring ∨ c.pc = .done true ∧ c.op ≠ .start

/-- What a call of `handshake` rests on. -/
structure Invocation.Backed (E : Platform) (P : Protobuf) (futures : List ResponseFuture)
    (log : List Happening) (c : Invocation) : Prop where
  awaiting : c.pc = .awaiting → ∃ i, c.request = some i ∧ IsConn futures i
  succeeded : c.Succeeded → ∃ i, c.request = some i ∧ HasAck E P futures log i

theorem Invocation.Quiet.not_succeeded {c : Invocation} (h : c.Quiet) : ¬c.Succeeded := by
  rintro (hpc | hpc | ⟨hpc, hop⟩)
  · exact h.2.1 hpc
  · exact h.2.2.1 hpc
  · exact hop (h.2.2.2 hpc)

theorem Invocation.Quiet.backed {c : Invocation} (h : c.Quiet) {futures : List ResponseFuture}
    {log : List Happening} : c.Backed E P futures log :=
  ⟨fun hpc ↦ absurd hpc h.1, fun hsucc ↦ absurd hsucc h.not_succeeded⟩

theorem Invocation.Backed.mono {c : Invocation} {futures futures' : List ResponseFuture}
    {log log' : List Happening} (h : c.Backed E P futures log) (hkeep : Keeps futures futures')
    (hlog : ∀ x ∈ log, x ∈ log') : c.Backed E P futures' log' := by
  constructor
  · intro hpc
    obtain ⟨i, hi, hconn⟩ := h.awaiting hpc
    exact ⟨i, hi, hconn.mono hkeep⟩
  · intro hsucc
    obtain ⟨i, hi, hack⟩ := h.succeeded hsucc
    exact ⟨i, hi, hack.mono hkeep hlog⟩

/-- Between reads the buffer is empty; the IO thread handles a packet made of a frame of this
connection; and a true ack anywhere on its way goes back to a frame. -/
structure Core.Inv (M : Miscast) (E : Platform) (P : Protobuf) (s : Core) : Prop where
  readBuffer : s.session.readBuffer = []
  pkgdata : ∀ n, s.session.pending = some (.pkgdata n) → (lengthOf s.session.pkglen).toInt = n
  io : ∀ pkg frame, s.io = .handling pkg frame ∨ s.io = .responding pkg frame →
    FromFrame E P pkg frame ∧ .received frame ∈ recent s.log
  answered : Answered M E P s.registry.futures s.log
  calls : ∀ c ∈ s.calls, c.Backed E P s.registry.futures s.log
  running : s.status = .RUNNING → ∃ i, HasAck E P s.registry.futures s.log i

namespace Core.Inv

variable {s : Core}

theorem inv_new (header : KitePacketHeader) : (Client.new header).core.Inv M E P := by
  refine ⟨rfl, ?_, ?_, ?_, ?_, ?_⟩ <;>
    simp [Client.core, Client.new, Answered, Registry.empty]

/-- The history is extended. -/
theorem extend (hs : s.Inv M E P) {log : List Happening} (hlog : Extends s.log log) :
    Core.Inv M E P { s with log } := by
  have hmem : ∀ x ∈ s.log, x ∈ log := fun x hx ↦ mem_of_extends hlog hx
  refine ⟨hs.readBuffer, hs.pkgdata, ?_, ?_, ?_, ?_⟩
  · intro pkg frame hio
    obtain ⟨hfrom, hrec⟩ := hs.io pkg frame hio
    exact ⟨hfrom, mem_recent_of_extends hlog hrec⟩
  · intro i f pkg hf hpkg hcaller hack
    exact (hs.answered i f pkg hf hpkg hcaller hack).mono hmem rfl rfl
  · exact fun c hc ↦ (hs.calls c hc).mono (.refl _) hmem
  · intro hrun
    obtain ⟨i, hack⟩ := hs.running hrun
    exact ⟨i, hack.mono (.refl _) hmem⟩

/-- A call begins or moves. -/
theorem setCalls (hs : s.Inv M E P) {calls : List Invocation} {c' : Invocation}
    (hcalls : Adds s.calls calls c')
    (hc' : c'.Backed E P s.registry.futures s.log) : Core.Inv M E P { s with calls } :=
  ⟨hs.readBuffer, hs.pkgdata, hs.io, hs.answered, hcalls.forall_mem hs.calls hc', hs.running⟩

theorem setStatus (hs : s.Inv M E P) {status : STATE}
    (h : status = .RUNNING → ∃ i, HasAck E P s.registry.futures s.log i) :
    Core.Inv M E P { s with status } :=
  ⟨hs.readBuffer, hs.pkgdata, hs.io, hs.answered, hs.calls, h⟩

/-- The IO thread moves on, or begins with a packet. -/
theorem setIo (hs : s.Inv M E P) {io : IoPc}
    (h : ∀ pkg frame, io = .handling pkg frame ∨ io = .responding pkg frame →
      FromFrame E P pkg frame ∧ .received frame ∈ recent s.log) :
    Core.Inv M E P { s with io } :=
  ⟨hs.readBuffer, hs.pkgdata, h, hs.answered, hs.calls, hs.running⟩

theorem setSession (hs : s.Inv M E P) (session : Session) (hbuf : session.readBuffer = [])
    (hlen : ∀ n, session.pending = some (.pkgdata n) → (lengthOf session.pkglen).toInt = n) :
    Core.Inv M E P { s with session } :=
  ⟨hbuf, hlen, hs.io, hs.answered, hs.calls, hs.running⟩

/-- A step of the registry, given what it answers. -/
theorem setRegistry (hs : s.Inv M E P) {b : RegistryAction} {registry : Registry}
    (hreg : Registry.step b s.registry = some registry)
    (hb : AnswersTruly M E P s.registry b s.log) : Core.Inv M E P { s with registry } := by
  have hkeep := keeps_of_step hreg
  refine ⟨hs.readBuffer, hs.pkgdata, hs.io, ?_, ?_, ?_⟩
  · intro i g pkg hg hpkg hcaller hack
    rcases Registry.step_evolves hreg hg with ⟨f, hf, hev⟩ | ⟨_, _, _, _, rfl⟩
    · rw [hev.caller] at hcaller hack
      refine (hb.acknowledged hev (fun pkg hpkg ↦ ?_) hpkg hcaller hack).mono (fun _ h ↦ h)
        hev.caller hev.requestId
      exact hs.answered i f pkg hf hpkg hcaller
    · cases hpkg
  · exact fun c hc ↦ (hs.calls c hc).mono hkeep fun _ h ↦ h
  · intro hrun
    obtain ⟨i, hack⟩ := hs.running hrun
    exact ⟨i, hack.mono hkeep fun _ h ↦ h⟩

/-- The IO thread answers truly where the condition holds: the packet it looks up came in a frame
of this connection. -/
theorem answersTruly (hP : P.Strict) (hr : s.registry.Inv) (hs : s.Inv M E P) {pkg : KitePacket}
    {frame : List CChar} (hio : s.io = .responding pkg frame) (hclean : clean E P .io s) :
    AnswersTruly M E P s.registry (.dispatch pkg) (recent s.log) := by
  obtain ⟨hfrom, hrec⟩ := hs.io pkg frame (.inr hio)
  intro pkg' f hdisp hfound hcaller hack
  cases hdisp
  have hwell : wellAnswered E P f.caller frame := by
    simpa [clean, hio, hfound, hcaller] using hclean
  refine ⟨frame, hrec, ?_⟩
  rw [← hr.requestId_of_found hfound]
  exact validAck_of_wellAnswered hP hfrom hcaller hwell hack

/-- A true ack that is returned is the server's. -/
theorem acknowledged_of_returned (hr : s.registry.Inv) (hs : s.Inv M E P) {i : ℕ}
    {f : ResponseFuture} {resp : KiteResponse} (hf : s.registry.futures[i]? = some f)
    (hpc : f.pc = .returned (some resp)) (hcaller : f.caller ≠ .sendHeartBeatAndGet)
    (hack : ackStatus M f.caller resp = some true) : Acknowledged E P s.log f := by
  obtain ⟨pkg, hpkg, rfl, -⟩ := hr.answeredBy_of_returned hf hpc
  exact hs.answered i f pkg hf hpkg hcaller hack

/-! ## Step and run -/

/-- The read that completes leaves the buffer empty; if it makes a packet, the packet is made of
the bytes that were read. -/
theorem recv (hs : s.Inv M E P) {e : Bool} {bytes : List CChar} {w : Wait}
    (hw : s.session.pending = some w) (hbytes : e = true ∨ bytes.length = w.size)
    (hclean : clean E P (.recv e bytes) s) :
    Core.Inv M E P { s with
      session := (s.session.complete E P e bytes).1
      io := Client.ioOf (s.session.complete E P e bytes).2 bytes
      log := if e = false ∧ w ≠ .pkglen then .received bytes :: s.log else s.log } := by
  have hcompletion := Session.completion_complete (E := E) (P := P) hw e bytes
  generalize s.session.complete E P e bytes = c at hcompletion
  cases hcompletion with
  | failed he =>
      rw [if_neg (by simp [he])]
      exact (hs.setSession { s.session with pending := none } hs.readBuffer
        (by simp)).setIo (by simp [Client.ioOf, handled])
  | negative _ hpending =>
      obtain rfl : w = .pkglen := Option.some.inj (hw.symm.trans hpending)
      rw [if_neg (by simp)]
      exact (hs.setSession { s.session with pkglen := bytes, pending := none }
        hs.readBuffer (by simp)).setIo (by simp [Client.ioOf, handled])
  | length _ hpending hnonneg =>
      obtain rfl : w = .pkglen := Option.some.inj (hw.symm.trans hpending)
      rw [if_neg (by simp)]
      refine (hs.setSession { s.session with
        pkglen := bytes, pending := some (.pkgdata (lengthOf bytes).toNat) }
        hs.readBuffer ?_).setIo (by simp [Client.ioOf, handled])
      intro n hn
      cases hn
      exact toInt_eq_toNat_of_nonneg hnonneg
  | oversized he hpending hover =>
      have hlt : (lengthOf s.session.pkglen).toInt < KitePacket.getMaxFrameLength.toInt := by
        simpa [clean, hpending] using hclean
      omega
  | @parsed n r he hpending hlt hr =>
      obtain rfl : w = .pkgdata n := Option.some.inj (hw.symm.trans hpending)
      have hlen := hs.pkgdata n hw
      have hnat := toNat_eq_of_toInt_eq hlen
      replace hbytes : bytes.length = n := by simpa [he, Wait.size] using hbytes
      have hframe : e = false ∧ Wait.pkgdata n ≠ .pkglen := ⟨he, by simp⟩
      rw [if_pos hframe, hnat, hbytes, ite_self, hs.readBuffer, List.nil_append,
        List.drop_eq_nil_of_le hbytes.le]
      rw [hs.readBuffer, List.nil_append] at hr
      have hlog : Extends s.log (.received bytes :: s.log) := .inr ⟨_, by simp, rfl⟩
      refine ((hs.extend hlog).setSession
        { s.session with readBuffer := [], readPkg := r.2, pending := some .pkglen }
        rfl (by simp)).setIo ?_
      intro pkg frame hio
      cases hacc : KitePacket.accepted (E.memory bytes) (lengthOf s.session.pkglen) with
      | none =>
          rw [hr, KitePacket.parsed_of_rejected hacc] at hio
          simp [Client.ioOf, handled] at hio
      | some k =>
          rw [hr, KitePacket.parsed_of_accepted hacc] at hio
          simp only [Client.ioOf, handled, List.filterMap_cons, List.filterMap_nil, if_true,
            IoPc.handling.injEq, reduceCtorEq, or_false] at hio
          obtain ⟨rfl, rfl⟩ := hio
          refine ⟨⟨_, by rw [hlen, hbytes], k, hacc, rfl, rfl⟩, ?_⟩
          simp [recent]

/-- **Step lemma.** Every step of a client that satisfies the condition keeps the invariant. -/
theorem step (hP : P.Strict) {a : ClientAction} {s' : Core} (hr : s.registry.Inv)
    (hs : s.Inv M E P) (hclean : clean E P a s) (h : Core.Step M E P a s s') : s'.Inv M E P := by
  cases h with
  | neutral hlog => exact hs.extend hlog
  | invoke hc hstatus =>
      exact (hs.setStatus fun hrun ↦ hs.running (hstatus hrun)).setCalls
        (adds_concat _ _) hc.backed
  | move hc hc' hlog => exact (hs.setCalls (adds_set _ _ _) hc'.backed).extend hlog
  | @sendConn j id _ c registry hc hreg =>
      refine (hs.setRegistry hreg (answersTruly_of_ne (by simp))).setCalls (adds_set _ _ _)
        ⟨fun _ ↦ ⟨_, rfl, .new .sendConnAndGet id, ?_, rfl⟩, ?_⟩
      · obtain ⟨-, rfl⟩ := Registry.construct_cases hreg
        simp
      · simp [Invocation.Succeeded]
  | @accept j i _ c f resp hc hpc hi hf hfpc hack =>
      obtain ⟨i', hi', g, hg, hcaller⟩ :=
        (hs.calls c (List.mem_of_getElem? hc)).awaiting hpc
      cases hi.symm.trans hi'
      cases hf.symm.trans hg
      have hack' := hs.acknowledged_of_returned hr hf hfpc (by simp [hcaller]) (hcaller ▸ hack)
      exact hs.setCalls (adds_set _ _ _) ⟨by simp, fun _ ↦ ⟨i, hi, f, hf, hcaller, hack'⟩⟩
  | @store j _ c pc hc hpc hpc' =>
      obtain ⟨i, hi, hack⟩ := (hs.calls c (List.mem_of_getElem? hc)).succeeded
        (hpc.imp_right .inl)
      refine (hs.setStatus fun _ ↦ ⟨i, hack⟩).setCalls (adds_set _ _ _) ⟨?_, fun _ ↦ ⟨i, hi, hack⟩⟩
      rcases hpc' with rfl | rfl <;> simp
  | @request _ b _ registry io hb hreg hio =>
      refine (hs.setRegistry hreg (answersTruly_of_ne hb.ne_dispatch)).setIo ?_
      · rcases hio with rfl | rfl
        · exact hs.io
        · simp
  | write hreg =>
      exact (hs.setRegistry hreg (answersTruly_of_ne (by simp))).extend (.inr ⟨_, by simp, rfl⟩)
  | connect hio =>
      have hmem {x : Happening} (hx : x ∈ s.log) : x ∈ .connected :: s.log :=
        List.mem_cons_of_mem _ hx
      refine ⟨hs.readBuffer, by simp [Session.asyncRead, Session.asyncSetupReadVarint], ?_,
        ?_, fun c hc ↦ (hs.calls c hc).mono (.refl _) fun _ ↦ hmem, by simp⟩
      · simp [hio]
      · intro i f pkg hf hpkg hcaller hack
        exact (hs.answered i f pkg hf hpkg hcaller hack).mono (fun _ ↦ hmem) rfl rfl
  | recv hw hbytes => exact hs.recv hw hbytes hclean
  | ignore => exact hs.setIo (by simp)
  | @respond _ pkg frame log hio hlog =>
      refine (hs.extend hlog).setIo fun pkg' frame' hio' ↦ ?_
      have := (hs.extend hlog).io pkg frame (.inl hio)
      simp only [IoPc.responding.injEq, reduceCtorEq, false_or] at hio'
      obtain ⟨rfl, rfl⟩ := hio'
      exact this
  | dispatch hio hreg hio' =>
      have hb := (hs.answersTruly hP hr hio hclean).mono fun _ ↦ mem_of_mem_recent
      refine (hs.setRegistry hreg hb).setIo ?_
      rcases hio' with rfl | rfl <;> simp

end Core.Inv

/-- The registry of a client is as the protocol has it. -/
theorem registry_inv_of_reachable {s : Client} (hs : (client M E P).Reachable s) :
    s.registry.Inv := Registry.inv_of_reachable ((registryRefinement M E P).reachable hs)

theorem inv_of_reachesUnder (hP : P.Strict) {s : Client}
    (hs : (client M E P).ReachesUnder (fun a s ↦ clean E P a s.core) s) : s.core.Inv M E P := by
  refine hs.invariant_of (J := fun s ↦ s.registry.Inv) (I := fun s ↦ s.core.Inv M E P)
    (fun s hs ↦ registry_inv_of_reachable hs.reachable) ?_ ?_
  · rintro s ⟨header, rfl⟩
    exact Core.Inv.inv_new header
  · exact fun a s s' hr hs hclean h ↦ hs.step hP hr hclean (Client.core_step h)

/-! ## Acknowledgements are sound -/

/-- Whoever has been told that the server acknowledged a request has been told the truth. -/
structure Client.AcksSound (M : Miscast) (E : Platform) (P : Protobuf) (s : Client) : Prop where
  /-- A handshake that has returned true. -/
  handshake : ∀ c ∈ s.calls, c.op = .handshake ∨ c.op = .reconnect → c.pc = .done true →
    ∃ i f, c.request = some i ∧ s.registry.futures[i]? = some f ∧ f.caller = .sendConnAndGet ∧
      Acknowledged E P s.log f
  /-- A status that a handshake has set. -/
  running : s.status = .RUNNING →
    ∃ f ∈ s.registry.futures, f.caller = .sendConnAndGet ∧ Acknowledged E P s.log f
  /-- A `sendMessageAndGet` that has returned an ack with a true status. -/
  sendMessage : ∀ f ∈ s.registry.futures, f.caller = .sendMessageAndGet → ∀ resp,
    f.pc = .returned (some resp) → ackStatus M .sendMessageAndGet resp = some true →
      Acknowledged E P s.log f

/-- **Acknowledgements are sound** along every run in which no frame is over the limit and what
completes a request answers it well. -/
theorem Client.acksSound_of_reachesUnder (hP : P.Strict) {s : Client}
    (hs : (client M E P).ReachesUnder (fun a s ↦ clean E P a s.core) s) :
    s.AcksSound M E P := by
  have hr := registry_inv_of_reachable hs.reachable
  have hinv := inv_of_reachesUnder hP hs
  refine ⟨?_, ?_, ?_⟩
  · intro c hc hop hpc
    have hstart : c.op ≠ .start := by rcases hop with h | h <;> simp [h]
    obtain ⟨i, hi, f, hf, hcaller, hack⟩ :=
      (hinv.calls c hc).succeeded (.inr (.inr ⟨hpc, hstart⟩))
    exact ⟨i, f, hi, hf, hcaller, hack⟩
  · intro hrun
    obtain ⟨i, f, hf, hcaller, hack⟩ := hinv.running hrun
    exact ⟨f, List.mem_of_getElem? hf, hcaller, hack⟩
  · intro f hf hcaller resp hpc hack
    obtain ⟨i, hi⟩ := List.mem_iff_getElem?.mp hf
    exact hinv.acknowledged_of_returned hr hi hpc (by simp [hcaller]) (hcaller ▸ hack)

end

/-! ## A handshake, well and badly answered -/

/-- What a pointer to the wrong class might read. -/
def zeroed : Miscast := ⟨fun _ ↦ false, fun _ ↦ 0⟩

/-- The frame of a `CONN_AUTH` packet. -/
def connAuthFrame (opaqueId : CInt) (body : List CChar) : List CChar :=
  KitePacketHeader.payload ⟨opaqueId, Protocol.CMD_CONN_AUTH, 0, Protocol.HEAD_EXTENSION⟩ body

/-- A client is started, connects, and makes a handshake that the given body answers. -/
def handshakeRun (body : List CChar) : List ClientAction :=
  [.invoke .start, .call 0, .resolve 0 false, .connect 0 false, .call 0, .call 0,
    .invoke .handshake, .sendConn 1 7, .used 0, .write 0,
    .recv false (BigEndian.bytes 4 (19 + body.length : CInt)), .recv false (connAuthFrame 7 body),
    .io, .io, .io, .test 0, .call 1, .call 1]

/-- The body of an ack with a true status and no feedback. -/
def trueAck : List CChar := proto2.serialize (.connAuthAck ⟨some true, some []⟩)

/-- A handshake that is answered as the protocol has it. -/
theorem Client.acksSound_trueAck :
    ∃ s, (client zeroed .gcc proto2).ReachesUnder (fun a s ↦ clean .gcc proto2 a s.core) s ∧
      s.status = .RUNNING ∧ s.AcksSound zeroed .gcc proto2 := by
  have hrun : (((client zeroed .gcc proto2).guard fun a s ↦ clean .gcc proto2 a s.core).exec
      (handshakeRun trueAck) (.new ⟨0, 0, 0, 0⟩)).map (·.status) = some .RUNNING := by
    decide +kernel
  obtain ⟨s, hreach, hstatus⟩ := System.exists_reachesUnder hrun ⟨_, rfl⟩
  exact ⟨s, hreach, hstatus, acksSound_of_reachesUnder strict_proto2 hreach⟩

/-- A handshake that is answered with an empty body, from which `ParseFromArray` gets no
status. -/
theorem Client.not_acksSound_empty :
    ∃ s, (client zeroed .gcc proto2).Reachable s ∧ s.status = .RUNNING ∧
      s.calls.map (·.pc) = [.done true, .done true] ∧ ¬s.AcksSound zeroed .gcc proto2 := by
  have hrun : ((client zeroed .gcc proto2).exec (handshakeRun []) (.new ⟨0, 0, 0, 0⟩)).map
      (fun s ↦ (s.status, s.calls.map (·.pc), s.log)) =
      some (.RUNNING, [.done true, .done true],
        [.reset, .received (connAuthFrame 7 []), .sent 0, .connected]) := by decide +kernel
  obtain ⟨s, hreach, heq⟩ := System.exists_reachable hrun ⟨_, rfl⟩
  simp only [Prod.mk.injEq] at heq
  obtain ⟨hstatus, hcalls, hlog⟩ := heq
  refine ⟨s, hreach, hstatus, hcalls, fun h ↦ ?_⟩
  obtain ⟨f, -, hcaller, frame, hframe, hvalid⟩ := h.running hstatus
  rw [hlog] at hframe
  obtain rfl : frame = connAuthFrame 7 [] := by simpa using hframe
  have hill : wellAnswered .gcc proto2 .sendConnAndGet (connAuthFrame 7 []) = false := by
    decide +kernel
  have hwell := hcaller ▸ hvalid.wellAnswered
  rw [hill] at hwell
  cases hwell

end Kiteq

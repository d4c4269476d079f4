import Kiteq.Remoting.ResponseFuture

/-!
# The client

`asioKiteIOClient` is driven from three sides: application threads call `start`, `reconnect`,
`handshake` and the sending functions; the heartbeat thread sends heartbeats while the client is
`RUNNING`; and the IO thread runs the completion handlers of resolves, connects and reads, one
at a time.  They meet in `status`, in the registry of requests and in the session.

`client` is the transition system of all of them.  A call of the application is an `Invocation`
with a program counter, and each access to `status` is a step of its own; the handler of a packet
is three steps of the IO thread, so that other threads move between them.  `log` is history: it
records the connects, the requests that were written and the frames that were read.

This client is the only one of its process and has the registry for itself.  The clients that
share one are in `Clients`, which takes its steps from here.
-/

namespace Kiteq

open Lib

/-! ## Threads -/

/-- `asioKiteIOClient::STATE`. -/
inductive STATE where
  | NONE
  | PREPARE
  | RUNNING
  | RECONNECTING
  | RECOVERING
  | STOP
deriving DecidableEq, Repr

/-- The functions that move `status`. -/
inductive Operation where
  | start
  | reconnect
  | handshake
deriving DecidableEq, Repr

/-- Where a call of one of them is. -/
inductive InvocationPc where
  /-- At the head of the retry loop, with `nretry` attempts posted. -/
  | retry (nretry : ℕ)
  /-- `reconnect0` has returned; `status` is compared with `RECOVERING`. -/
  | slept (nretry : ℕ)
  /-- It was something else; `nretry` and `STOP` are tested. -/
  | tested (nretry : ℕ)
  /-- The retry loop was left with `RECOVERING`. -/
  | recovered
  /-- In `handshake`, before the request is built. -/
  | connecting
  /-- In `sendConnAndGet`. -/
  | awaiting
  /-- `ack->status()` was true; `handshake` stores `RUNNING` next. -/
  | authenticated
  /-- `handshake` has returned true to `reconnect`, which stores `RUNNING` next. -/
  | restoring
  | done (result : Bool)
deriving DecidableEq, Repr

structure Invocation where
  op : Operation
  pc : InvocationPc
  /-- The request its handshake has issued. -/
  request : Option ℕ
deriving DecidableEq, Repr

/-- What has become of an attempt to connect. -/
inductive Attempt where
  | posted
  | resolved
  | finished
deriving DecidableEq, Repr

/-- Where the heartbeat thread is. -/
inductive HeartbeatPc where
  | off
  | idle
  /-- `status` was `RUNNING`, and the next heartbeat is due. -/
  | due
  | awaiting (request : ℕ) (now : CLong)
deriving DecidableEq, Repr

/-- Where the IO thread is in the handler of a packet, with the frame the packet came in. -/
inductive IoPc where
  | idle
  | handling (pkg : KitePacket) (frame : List CChar)
  /-- The heartbeat counter is reset; `receiveResponse` is called next. -/
  | responding (pkg : KitePacket) (frame : List CChar)
  /-- Inside the critical section of `receiveResponse`. -/
  | fulfilling
deriving DecidableEq

/-- What has happened, for the history. -/
inductive Happening where
  /-- A successful `handle_connect`. -/
  | connected
  /-- A request was written. -/
  | sent (request : ℕ)
  /-- A frame was read. -/
  | received (frame : List CChar)
  /-- `stopCount` was set to zero. -/
  | reset
  /-- A heartbeat was counted as failed. -/
  | missed
deriving DecidableEq

/-- What has happened since the last successful connect, the latest first. -/
def recent (log : List Happening) : List Happening := log.takeWhile (· ≠ .connected)

/-! ## Casts -/

/-- What reading a field through a pointer to the wrong message class returns. -/
structure Miscast where
  status : MessageLite → Bool
  version : MessageLite → CLong

/-- The class a caller casts the message of its response to. -/
def Caller.kind : Caller → MessageKind
  | .sendHeartBeatAndGet => .heartBeat
  | .sendConnAndGet => .connAuthAck
  | .sendMessageAndGet => .messageStoreAck

/-- The command that `parseFrom` pairs with that class. -/
def Caller.command : Caller → CChar
  | .sendHeartBeatAndGet => Protocol.CMD_HEARTBEAT
  | .sendConnAndGet => Protocol.CMD_CONN_AUTH
  | .sendMessageAndGet => Protocol.CMD_MESSAGE_STORE_ACK

theorem messageKind_command (c : Caller) :
    KitePacket.messageKind c.command = some c.kind := by cases c <;> rfl

variable (M : Miscast)

/-- `status()` of the ack a caller gets, `none` where it gets a null pointer. -/
def ackStatus (caller : Caller) (resp : KiteResponse) : Option Bool :=
  resp.message.map fun
    | .connAuthAck m => if caller = .sendConnAndGet then m.getStatus else M.status (.connAuthAck m)
    | .messageStoreAck m =>
      if caller = .sendMessageAndGet then m.getStatus else M.status (.messageStoreAck m)
    | m => M.status m

/-- `version()` of the heartbeat the heartbeat thread gets. -/
def heartBeatVersion (resp : KiteResponse) : Option CLong :=
  resp.message.map fun
    | .heartBeat m => m.getVersion
    | m => M.version m

/-! ## Steps -/

/-- The state of a client. -/
structure Client where
  status : STATE
  session : Session
  registry : Registry
  attempts : List Attempt
  calls : List Invocation
  heartbeat : HeartbeatPc
  stopCount : ℕ
  io : IoPc
  /-- `ioService` was stopped, or its thread has died of an exception. -/
  stopped : Bool
  /-- `heartbeat->stop()` was called. -/
  interrupted : Bool
  log : List Happening

inductive ClientAction where
  /-- A thread calls `start`, `reconnect` or `handshake`. -/
  | invoke (op : Operation)
  /-- A call takes its next step. -/
  | call (j : ℕ)
  /-- A call in `handshake` builds its request. -/
  | sendConn (j : ℕ) (id : CInt)
  /-- A thread calls `sendMessageAndGet`. -/
  | sendMessage (id : CInt)
  | used (i : ℕ)
  | write (i : ℕ)
  | test (i : ℕ)
  | erase (i : ℕ)
  /-- The heartbeat thread finds the client `RUNNING` and a heartbeat due. -/
  | beat
  | sendHeartBeat (id : CInt) (now : CLong)
  /-- The heartbeat thread judges the answer. -/
  | judge
  /-- The wait of the heartbeat thread is interrupted. -/
  | interrupt
  | resolve (k : ℕ) (err : Bool)
  | connect (k : ℕ) (err : Bool)
  /-- The pending read completes. -/
  | recv (e : Bool) (bytes : List CChar)
  /-- The IO thread goes on with the handler of a packet. -/
  | io
  | close

namespace Client

variable (E : Platform) (P : Protobuf) (s : Client)

/-- A call enters its function: `start` and `reconnect` begin with a compare-and-set. -/
def invoke : Operation → Client
  | .start =>
    if s.status = .NONE then
      { s with status := .PREPARE, calls := s.calls ++ [⟨.start, .retry 0, none⟩] }
    else { s with calls := s.calls ++ [⟨.start, .done false, none⟩] }
  | .reconnect =>
    if s.status = .RUNNING then
      { s with status := .RECONNECTING, calls := s.calls ++ [⟨.reconnect, .retry 0, none⟩] }
    else { s with calls := s.calls ++ [⟨.reconnect, .done false, none⟩] }
  | .handshake => { s with calls := s.calls ++ [⟨.handshake, .connecting, none⟩] }

/-- The next step of call `j`, which is at `c`. -/
def callStep (j : ℕ) (c : Invocation) : Option Client :=
  match c.pc with
  | .retry nretry =>
    some { s with
      attempts := s.attempts ++ [.posted]
      calls := s.calls.set j { c with pc := .slept (nretry + 1) } }
  | .slept nretry =>
    if s.status = .RECOVERING then
      some { s with calls := s.calls.set j { c with pc := .recovered } }
    else some { s with calls := s.calls.set j { c with pc := .tested nretry } }
  | .tested nretry =>
    if 10 ≤ nretry ∨ s.status = .STOP then
      some { s with calls := s.calls.set j { c with pc := .done false } }
    else some { s with calls := s.calls.set j { c with pc := .retry nretry } }
  | .recovered =>
    if c.op = .start then
      some { s with heartbeat := .idle, calls := s.calls.set j { c with pc := .done true } }
    else
      some { s with
        stopCount := 0
        log := .reset :: s.log
        calls := s.calls.set j { c with pc := .connecting } }
  | .awaiting =>
    match c.request.bind (s.registry.futures[·]?) with
    | some f =>
      match f.pc with
      | .returned resp =>
        if resp.bind (ackStatus M .sendConnAndGet) = some true then
          some { s with calls := s.calls.set j { c with pc := .authenticated } }
        else some { s with calls := s.calls.set j { c with pc := .done false } }
      | _ => none
    | none => none
  | .authenticated =>
    some { s with
      status := .RUNNING
      calls := s.calls.set j
        { c with pc := if c.op = .reconnect then .restoring else .done true } }
  | .restoring =>
    some { s with
      status := .RUNNING
      calls := s.calls.set j { c with pc := .done true } }
  | .connecting | .done _ => none

/-- `sendConnAndGet` builds its request. -/
def sendConn (j : ℕ) (id : CInt) (c : Invocation) : Option Client :=
  if c.pc = .connecting then
    (s.registry.construct .sendConnAndGet id).map fun registry ↦
      { s with
        registry
        calls := s.calls.set j { c with pc := .awaiting, request := s.registry.futures.length } }
  else none

/-- The heartbeat thread sends a heartbeat with the current time as its version. -/
def sendHeartBeat (id : CInt) (now : CLong) : Option Client :=
  if s.heartbeat = .due then
    (s.registry.construct .sendHeartBeatAndGet id).map fun registry ↦
      { s with registry, heartbeat := .awaiting s.registry.futures.length now }
  else none

/-- The heartbeat thread compares the version of the answer with the one it sent. -/
def judge : Option Client :=
  match s.heartbeat with
  | .awaiting i now =>
    match s.registry.futures[i]? with
    | some f =>
      match f.pc with
      | .returned resp =>
        if resp.bind (heartBeatVersion M) = some now then
          some { s with heartbeat := .idle, stopCount := 0, log := .reset :: s.log }
        else
          some { s with
            heartbeat := .idle, stopCount := s.stopCount + 1, log := .missed :: s.log }
      | _ => none
    | none => none
  | _ => none

/-- `thread_interrupted` ends the heartbeat thread. -/
def interrupt : Option Client :=
  match s.heartbeat with
  | .awaiting i _ =>
    if s.interrupted then
      (s.registry.interrupt i).map fun registry ↦ { s with registry, heartbeat := .off }
    else none
  | _ => none

/-- A completion handler can run. -/
def ready : Bool := s.io = .idle && !s.stopped

/-- `handle_resolve` of attempt `k`. -/
def handleResolve (k : ℕ) (err : Bool) : Option Client :=
  if s.ready ∧ s.attempts[k]? = some .posted then
    some { s with attempts := s.attempts.set k (if err then .finished else .resolved) }
  else none

/-- `handle_connect` of attempt `k`.  The attempt has closed and reopened the socket, which
ended the read that was outstanding. -/
def handleConnect (k : ℕ) (err : Bool) : Option Client :=
  if s.ready ∧ s.attempts[k]? = some .resolved then
    if err then some { s with attempts := s.attempts.set k .finished }
    else
      some { s with
        attempts := s.attempts.set k .finished
        status := .RECOVERING
        session := s.session.asyncRead
        log := .connected :: s.log }
  else none

/-- What the IO thread does after a callback of the session. -/
def ioOf (es : List Event) (frame : List CChar) : IoPc :=
  match handled es with
  | [some pkg] => .handling pkg frame
  | _ => .idle

/-- The callback of the pending read; bytes that complete a read without an error are as many
as it asked for. -/
def recv (e : Bool) (bytes : List CChar) : Option Client :=
  match s.session.pending with
  | none => none
  | some w =>
    if s.ready ∧ (e ∨ bytes.length = w.size) then
      let c := s.session.complete E P e bytes
      some { s with
        session := c.1
        io := ioOf c.2 bytes
        stopped := s.stopped || c.2.contains .lengthError
        log := if e = false ∧ w ≠ .pkglen then .received bytes :: s.log else s.log }
    else none

/-- The handler of a packet, step by step. -/
def ioStep : Option Client :=
  match s.io with
  | .idle => none
  | .handling pkg frame =>
    if isResponse pkg.cmdType then
      some { s with stopCount := 0, log := .reset :: s.log, io := .responding pkg frame }
    else some { s with io := .idle }
  | .responding pkg _ =>
    (s.registry.dispatch pkg).map fun registry ↦
      { s with registry, io := if registry.critical.isSome then .fulfilling else .idle }
  | .fulfilling => s.registry.setResponse.map fun registry ↦ { s with registry, io := .idle }

/-- One step of the client. -/
def step : ClientAction → Client → Option Client
  | .invoke op, s => some (s.invoke op)
  | .call j, s => s.calls[j]?.bind (s.callStep M j)
  | .sendConn j id, s => s.calls[j]?.bind (s.sendConn j id)
  | .sendMessage id, s =>
    (s.registry.construct .sendMessageAndGet id).map fun registry ↦ { s with registry }
  | .used i, s => (s.registry.responseFutureUsed i).map fun registry ↦ { s with registry }
  | .write i, s =>
    (s.registry.write i).map fun registry ↦ { s with registry, log := .sent i :: s.log }
  | .test i, s => (s.registry.test i).map fun registry ↦ { s with registry }
  | .erase i, s => (s.registry.erase i).map fun registry ↦ { s with registry }
  | .beat, s =>
    if s.heartbeat = .idle ∧ s.status = .RUNNING then some { s with heartbeat := .due } else none
  | .sendHeartBeat id now, s => s.sendHeartBeat id now
  | .judge, s => s.judge M
  | .interrupt, s => s.interrupt
  | .resolve k err, s => s.handleResolve k err
  | .connect k err, s => s.handleConnect k err
  | .recv e bytes, s => s.recv E P e bytes
  | .io, s => s.ioStep
  | .close, s => some { s with stopped := true, interrupted := true }

/-- A client nothing has been called on, with the header of a default packet. -/
def new (header : KitePacketHeader) : Client where
  status := .NONE
  session := ⟨[], [], { header with message := none, buff := .empty }, none⟩
  registry := .empty
  attempts := []
  calls := []
  heartbeat := .off
  stopCount := 0
  io := .idle
  stopped := false
  interrupted := false
  log := []

end Client

/-- A client with its threads. -/
def client (E : Platform) (P : Protobuf) : System ClientAction Client where
  init s := ∃ header, s = .new header
  step := Client.step M E P

end Kiteq

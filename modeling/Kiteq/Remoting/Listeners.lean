import Kiteq.Commons.HostPort
import Kiteq.Lib.System
import Kiteq.Lib.Table
import Kiteq.Protocol.Frame
import Kiteq.Protocol.Proto2
import Kiteq.Remoting.Session

/-!
# Listeners

A packet that answers no request goes to a listener.  `ListenerManager` keeps the listeners of the
whole process in one table, keyed by the address a client was made for and not by the client; and
`insert` leaves an entry alone that is there already.

`process` is the transition system of all clients of a process, as far as it concerns their
listeners: each client with its session and the packet its IO thread is handling, and the table
they share.  What was read and what was delivered is kept as history.
-/

namespace Kiteq

open Lib

/-! ## Calls of a listener -/

/-- The method of the listener that `handle_read_pkg` calls for a packet, with its arguments. -/
def KitePacket.listenerCall (pkg : KitePacket) : Option Delivery :=
  pkg.dispatch.filter fun
    | .receiveResponse _ => false
    | _ => true

/-- The packet whose handler an IO thread runs after a callback of the session. -/
def handlingOf (es : List Event) : Option KitePacket :=
  match handled es with
  | [some pkg] => some pkg
  | _ => none

/-- The packets a callback has read: `parseFrom` has returned true and filled in `readPkg`. -/
def receivedOf (es : List Event) (readPkg : KitePacket) : List KitePacket := es.filterMap fun
  | .parse _ _ _ true => some readPkg
  | _ => none

/-! ## The process -/

/-- A listener has been called.  Listeners are numbered. -/
structure Callback where
  /-- The object that was called, `none` for the default listener. -/
  listener : Option ℕ
  /-- The listener the client had registered last, `none` if it was unregistered since. -/
  registered : Option ℕ
  delivery : Delivery
deriving DecidableEq

/-- A client, as far as its listener is concerned. -/
structure ListeningClient where
  hostPort : HostPort
  session : Session
  /-- The packet whose handler is running. -/
  handling : Option KitePacket
  registered : Option ℕ
  received : List KitePacket
  callbacks : List Callback

/-- All clients of a process, and `ListenerManager::listeners`. -/
structure Process where
  clients : List ListeningClient
  listeners : List CChar → Option ℕ

inductive ProcessAction where
  /-- A client is constructed. -/
  | create (serverUrl : List CChar) (header : KitePacketHeader)
  /-- Client `c` connects, and starts to read. -/
  | connect (c : ℕ)
  /-- The pending read of client `c` completes. -/
  | recv (c : ℕ) (e : Bool) (bytes : List CChar)
  /-- The handler of client `c` looks up its listener and calls it. -/
  | dispatch (c : ℕ)
  | registerListener (c : ℕ) (listener : ℕ)
  | unregisterListener (channel : List CChar)

namespace ListeningClient

variable (E : Platform) (P : Protobuf) (k : ListeningClient)

/-- The key of the client in the table of listeners. -/
def channel : List CChar := k.hostPort.toString

def new (hostPort : HostPort) (header : KitePacketHeader) : ListeningClient where
  hostPort := hostPort
  session := ⟨[], [], { header with message := none, buff := .empty }, none⟩
  handling := none
  registered := none
  received := []
  callbacks := []

def connect : Option ListeningClient :=
  if k.handling = none then some { k with session := k.session.asyncRead } else none

def recv (e : Bool) (bytes : List CChar) : Option ListeningClient :=
  match k.session.pending with
  | none => none
  | some w =>
    if k.handling = none ∧ (e ∨ bytes.length = w.size) then
      let c := k.session.complete E P e bytes
      some { k with
        session := c.1
        handling := handlingOf c.2
        received := k.received ++ receivedOf c.2 c.1.readPkg }
    else none

/-- The rest of `handle_read_pkg`, with the listener it finds. -/
def dispatch (listener : Option ℕ) : Option ListeningClient :=
  k.handling.map fun pkg ↦ { k with
    handling := none
    callbacks := k.callbacks ++
      pkg.listenerCall.toList.map fun d ↦ ⟨listener, k.registered, d⟩ }

end ListeningClient

namespace Process

variable (E : Platform) (P : Protobuf) (s : Process)

/-- `listeners.insert(make_pair(channel, listener))`. -/
def insert (channel : List CChar) (listener : ℕ) : Process :=
  if s.listeners channel = none then
    { s with listeners := Function.update s.listeners channel (some listener) }
  else s

/-- A step of client `c` that leaves the table alone. -/
def onClient (c : ℕ) (f : ListeningClient → Option ListeningClient) : Option Process :=
  s.clients[c]?.bind fun k ↦ (f k).map fun k' ↦ { s with clients := s.clients.set c k' }

def step : ProcessAction → Process → Option Process
  | .create serverUrl header, s => (HostPort.ofServerUrl serverUrl).map fun hp ↦
      { s with clients := s.clients ++ [.new hp header] }
  | .connect c, s => s.onClient c fun k ↦ k.connect
  | .recv c e bytes, s => s.onClient c fun k ↦ k.recv E P e bytes
  | .dispatch c, s => s.onClient c fun k ↦ k.dispatch (s.listeners k.channel)
  | .registerListener c l, s => s.clients[c]?.map fun k ↦
      { s.insert k.channel l with clients := s.clients.set c { k with registered := some l } }
  | .unregisterListener channel, s => some {
      clients := s.clients.map fun k ↦
        if k.channel = channel then { k with registered := none } else k
      listeners := Function.update s.listeners channel none }

end Process

/-- A process without any client. -/
def process (E : Platform) (P : Protobuf) : System ProcessAction Process where
  init s := s = ⟨[], fun _ ↦ none⟩
  step := Process.step E P

/-! ## Delivery -/

/-- What was read on the connection of the client is delivered, once and in order, except for the
packet that is being handled; and what is delivered while a listener is registered goes to it. -/
structure ListeningClient.Delivered (k : ListeningClient) : Prop where
  once : k.callbacks.map (·.delivery) ++ (k.handling.bind KitePacket.listenerCall).toList =
    k.received.filterMap KitePacket.listenerCall
  right : ∀ x ∈ k.callbacks, ∀ l, x.registered = some l → x.listener = some l

/-- No client registers a listener where another one is registered, and no frame over the limit
completes while the packet of an earlier frame is one for the listener. -/
def Process.orderly : ProcessAction → Process → Bool
  | .registerListener c l, s => s.clients[c]?.all fun k ↦ (s.listeners k.channel).all (· = l)
  | .recv c false _, s => s.clients[c]?.all fun k ↦
      k.session.pending = some .pkglen || k.session.readPkg.listenerCall.isNone ||
        (lengthOf k.session.pkglen).toInt < KitePacket.getMaxFrameLength.toInt
  | _, _ => true

section

variable {E : Platform} {P : Protobuf}

theorem KitePacket.toList_listenerCall (pkg : KitePacket) :
    pkg.listenerCall.toList = [pkg].filterMap listenerCall := by
  cases h : pkg.listenerCall <;> simp [h]

/-- What a callback reads for the listener is what it hands to the handler for it, unless a frame
over the limit brings back an earlier packet. -/
theorem Session.handling_complete {s : Session} {w : Wait} (hw : s.pending = some w) {e : Bool}
    {bytes : List CChar} (h : e = true ∨ s.pending = some .pkglen ∨
      s.readPkg.listenerCall = none ∨
      (lengthOf s.pkglen).toInt < KitePacket.getMaxFrameLength.toInt) :
    ((handlingOf (s.complete E P e bytes).2).bind KitePacket.listenerCall).toList =
      (receivedOf (s.complete E P e bytes).2 (s.complete E P e bytes).1.readPkg).filterMap
        KitePacket.listenerCall := by
  have hcompletion := completion_complete (E := E) (P := P) hw e bytes
  generalize s.complete E P e bytes = c at hcompletion
  cases hcompletion with
  | failed | negative | length => rfl
  | oversized he hpending hover =>
      -- the packet of an earlier frame comes back, but is not one for the listener
      have hcall : s.readPkg.listenerCall = none := by
        simpa [he, hpending, Int.not_lt.mpr hover] using h
      simp [handlingOf, receivedOf, handled, hcall]
  | @parsed n r =>
      cases hb : r.1 with
      | true => simpa [handlingOf, receivedOf, handled] using KitePacket.toList_listenerCall r.2
      | false => simp [handlingOf, receivedOf, handled]

/-! ## The steps of a client -/

namespace ListeningClient

variable {k k' : ListeningClient}

theorem connect_cases (h : k.connect = some k') :
    k.handling = none ∧ k' = { k with session := k.session.asyncRead } := by
  unfold connect at h
  split at h
  · rename_i hready
    cases h
    exact ⟨hready, rfl⟩
  · cases h

theorem recv_cases {e : Bool} {bytes : List CChar} (h : k.recv E P e bytes = some k') :
    ∃ w, k.session.pending = some w ∧ k.handling = none ∧ (e ∨ bytes.length = w.size) ∧
      k' = { k with
        session := (k.session.complete E P e bytes).1
        handling := handlingOf (k.session.complete E P e bytes).2
        received := k.received ++ receivedOf (k.session.complete E P e bytes).2
          (k.session.complete E P e bytes).1.readPkg } := by
  unfold recv at h
  split at h
  · cases h
  · rename_i w hw
    split at h
    · rename_i hready
      cases h
      exact ⟨w, hw, hready.1, hready.2, rfl⟩
    · cases h

theorem dispatch_cases {listener : Option ℕ} (h : k.dispatch listener = some k') :
    ∃ pkg, k.handling = some pkg ∧ k' = { k with
      handling := none
      callbacks := k.callbacks ++
        pkg.listenerCall.toList.map fun d ↦ ⟨listener, k.registered, d⟩ } := by
  obtain ⟨pkg, hpkg, rfl⟩ := Option.map_eq_some_iff.mp h
  exact ⟨pkg, hpkg, rfl⟩

end ListeningClient

/-! ## The invariant -/

theorem ListeningClient.Delivered.recv {k k' : ListeningClient} {e : Bool} {bytes : List CChar}
    (hk : k.Delivered) (h : k.recv E P e bytes = some k')
    (hok : e = true ∨ k.session.pending = some .pkglen ∨ k.session.readPkg.listenerCall = none ∨
      (lengthOf k.session.pkglen).toInt < KitePacket.getMaxFrameLength.toInt) :
    k'.Delivered := by
  obtain ⟨w, hw, hidle, -, rfl⟩ := recv_cases h
  refine ⟨?_, hk.right⟩
  have honce := hk.once
  rw [hidle, Option.bind_none, Option.toList_none, List.append_nil] at honce
  rw [List.filterMap_append, ← honce, ← Session.handling_complete hw hok]

theorem ListeningClient.Delivered.dispatch {k k' : ListeningClient} {listener : Option ℕ}
    (hk : k.Delivered) (h : k.dispatch listener = some k')
    (hreg : ∀ l, k.registered = some l → listener = some l) : k'.Delivered := by
  obtain ⟨pkg, hpkg, rfl⟩ := dispatch_cases h
  constructor
  · have honce := hk.once
    rw [hpkg, Option.bind_some] at honce
    simpa [Function.comp_def] using honce
  · intro x hx l hl
    rcases List.mem_append.mp hx with hx | hx
    · exact hk.right x hx l hl
    · obtain ⟨d, -, rfl⟩ := List.mem_map.mp hx
      exact hreg l hl

namespace Process

variable {s s' : Process}

/-- What was read is delivered, and whoever has registered a listener is in the table with it. -/
structure Inv (s : Process) : Prop where
  delivered : ∀ k ∈ s.clients, k.Delivered
  registered : ∀ k ∈ s.clients, ∀ l, k.registered = some l → s.listeners k.channel = some l

/-- `insert` leaves the entries alone that are there. -/
theorem listeners_insert {channel channel' : List CChar} {l l' : ℕ}
    (h : s.listeners channel' = some l') :
    (s.insert channel l).listeners channel' = some l' := by
  rw [insert]
  split
  · rename_i hnone
    have hne : channel' ≠ channel := by
      rintro rfl
      rw [hnone] at h
      cases h
    exact (Function.update_of_ne hne _ _).trans h
  · exact h

theorem listeners_insert_self {channel : List CChar} {l : ℕ}
    (h : (s.listeners channel).all (· = l) = true) :
    (s.insert channel l).listeners channel = some l := by
  rw [insert]
  split
  · exact Function.update_self ..
  · rename_i hsome
    obtain ⟨l', hl'⟩ := Option.ne_none_iff_exists'.mp hsome
    rw [hl', Option.all_some, decide_eq_true_iff] at h
    rw [hl', h]

/-- A step of one client that leaves its registration alone. -/
theorem Inv.onClient (hs : s.Inv) {c : ℕ} {f : ListeningClient → Option ListeningClient}
    (h : s.onClient c f = some s')
    (hf : ∀ k k', s.clients[c]? = some k → f k = some k' →
      k'.Delivered ∧ k'.hostPort = k.hostPort ∧ k'.registered = k.registered) : s'.Inv := by
  obtain ⟨k, hk, h⟩ := Option.bind_eq_some_iff.mp h
  obtain ⟨k', hk', rfl⟩ := Option.map_eq_some_iff.mp h
  obtain ⟨hdelivered, hhost, hreg⟩ := hf k k' hk hk'
  have hset := adds_set s.clients c k'
  refine ⟨hset.forall_mem hs.delivered hdelivered, hset.forall_mem hs.registered fun l hl ↦ ?_⟩
  rw [ListeningClient.channel, hhost]
  exact hs.registered k (List.mem_of_getElem? hk) l (hreg ▸ hl)

/-- **Step lemma.** -/
theorem Inv.step (hs : s.Inv) {a : ProcessAction} (hok : orderly a s = true)
    (h : (process E P).step a s = some s') : s'.Inv := by
  simp only [process] at h
  cases a with
  | create serverUrl header =>
      obtain ⟨hp, -, rfl⟩ := Option.map_eq_some_iff.mp h
      have hadd := adds_concat s.clients (.new hp header)
      refine ⟨hadd.forall_mem hs.delivered ?_, hadd.forall_mem hs.registered fun l hl ↦ ?_⟩
      · constructor <;> simp [ListeningClient.new]
      · cases hl
  | connect c =>
      refine hs.onClient h fun k k' hk hk' ↦ ?_
      obtain ⟨-, rfl⟩ := ListeningClient.connect_cases hk'
      have hdelivered := hs.delivered k (List.mem_of_getElem? hk)
      exact ⟨⟨hdelivered.once, hdelivered.right⟩, rfl, rfl⟩
  | recv c e bytes =>
      refine hs.onClient h fun k k' hk hk' ↦ ?_
      have hdelivered := hs.delivered k (List.mem_of_getElem? hk)
      refine ⟨hdelivered.recv hk' ?_, ?_⟩
      · cases e with
        | true => exact .inl rfl
        | false => simpa [orderly, hk, or_assoc] using hok
      · obtain ⟨w, -, -, -, rfl⟩ := ListeningClient.recv_cases hk'
        exact ⟨rfl, rfl⟩
  | dispatch c =>
      refine hs.onClient h fun k k' hk hk' ↦ ?_
      have hmem := List.mem_of_getElem? hk
      refine ⟨(hs.delivered k hmem).dispatch hk' (hs.registered k hmem), ?_⟩
      obtain ⟨pkg, -, rfl⟩ := ListeningClient.dispatch_cases hk'
      exact ⟨rfl, rfl⟩
  | registerListener c l =>
      obtain ⟨k, hk, rfl⟩ := Option.map_eq_some_iff.mp h
      have hfree : (s.listeners k.channel).all (· = l) = true := by
        simpa [orderly, hk] using hok
      have hset := adds_set s.clients c { k with registered := some l }
      refine ⟨hset.forall_mem hs.delivered ?_, hset.forall_mem ?_ fun l' hl' ↦ ?_⟩
      · have hdelivered := hs.delivered k (List.mem_of_getElem? hk)
        exact ⟨hdelivered.once, hdelivered.right⟩
      · exact fun j hj l' hl' ↦ listeners_insert (hs.registered j hj l' hl')
      · cases hl'
        exact listeners_insert_self hfree
  | unregisterListener channel =>
      cases h
      constructor
      · intro j hj
        obtain ⟨k, hk, rfl⟩ := List.mem_map.mp hj
        have hdelivered := hs.delivered k hk
        split
        · exact ⟨hdelivered.once, hdelivered.right⟩
        · exact hdelivered
      · intro j hj l hl
        obtain ⟨k, hk, rfl⟩ := List.mem_map.mp hj
        split at hl
        · cases hl
        · rename_i hne
          rw [if_neg hne]
          exact (Function.update_of_ne hne _ _).trans (hs.registered k hk l hl)

/-- **Messages reach the listener of their own client**, once each, along every run in which
nobody registers a listener where another one is registered, and no frame over the limit brings
an earlier message back. -/
theorem delivered_of_reachesUnder
    (hs : (process E P).ReachesUnder (fun a s ↦ orderly a s = true) s) :
    ∀ k ∈ s.clients, k.Delivered := by
  have hinv : s.Inv := by
    refine hs.invariant (I := Inv) ?_ fun a s s' hs hok h ↦ hs.step hok h
    rintro s rfl
    constructor <;> simp
  exact hinv.delivered

/-! ## Two clients of one server -/

/-- The address of a server, `127.0.0.1:13800`. -/
def serverUrl : List CChar := HostPort.defaultHost ++ HostPort.colon :: HostPort.defaultPort

def emptyHeader : Header where
  messageId := some []
  topic := some []
  messageType := some []
  expiredTime := some 0
  deliverLimit := some 0
  groupId := some []
  commit := some false
  fly := some false
  properties := []
  createTime := none

/-- The body of a `BYTES_MESSAGE` frame. -/
def bytesBody : List CChar := proto2.serialize (.bytesMessage ⟨some emptyHeader, some []⟩)

/-- A `BYTES_MESSAGE` arrives on the connection of client `c`, and is handed to a listener. -/
def bytesMessageRun (c : ℕ) : List ProcessAction :=
  [.connect c, .recv c false (BigEndian.bytes 4 (19 + bytesBody.length : CInt)),
    .recv c false (KitePacketHeader.payload ⟨7, Protocol.CMD_BYTES_MESSAGE, 0, 0⟩ bytesBody),
    .dispatch c]

/-- A client registers a listener, which gets the message. -/
theorem delivered_bytesMessage : ∃ s,
    (process .gcc proto2).ReachesUnder (fun a s ↦ orderly a s = true) s ∧
      s.clients.map (fun k ↦ k.callbacks.map fun x ↦ (x.listener, x.registered)) =
        [[(some 1, some 1)]] ∧ ∀ k ∈ s.clients, k.Delivered := by
  have hrun : (((process .gcc proto2).guard fun a s ↦ orderly a s = true).exec
      ([.create serverUrl ⟨0, 0, 0, 0⟩, .registerListener 0 1] ++ bytesMessageRun 0)
      ⟨[], fun _ ↦ none⟩).map
        (·.clients.map fun k ↦ k.callbacks.map fun x ↦ (x.listener, x.registered)) =
      some [[(some 1, some 1)]] := by decide +kernel
  obtain ⟨s, hreach, hcallbacks⟩ := System.exists_reachesUnder hrun rfl
  exact ⟨s, hreach, hcallbacks, delivered_of_reachesUnder hreach⟩

/-- Two clients of one server register a listener each, and the message for the second client goes
to the listener of the first. -/
theorem not_delivered_sameAddress : ∃ s, (process .gcc proto2).Reachable s ∧
    ¬∀ k ∈ s.clients, k.Delivered := by
  have hrun : ((process .gcc proto2).exec
      ([.create serverUrl ⟨0, 0, 0, 0⟩, .create serverUrl ⟨0, 0, 0, 0⟩, .registerListener 0 1,
        .registerListener 1 2] ++ bytesMessageRun 1) ⟨[], fun _ ↦ none⟩).map
        (·.clients.map fun k ↦ k.callbacks.map fun x ↦ (x.listener, x.registered)) =
      some [[], [(some 1, some 2)]] := by decide +kernel
  obtain ⟨s, hreach, hcallbacks⟩ := System.exists_reachable hrun rfl
  refine ⟨s, hreach, fun h ↦ ?_⟩
  obtain ⟨k, hk, hk2⟩ : ∃ k ∈ s.clients,
      (k.callbacks.map fun x ↦ (x.listener, x.registered)) = [(some 1, some 2)] :=
    List.mem_map.mp (hcallbacks ▸ by simp)
  obtain ⟨x, hx, hpair⟩ : ∃ x ∈ k.callbacks, (x.listener, x.registered) = (some 1, some 2) :=
    List.mem_map.mp (hk2 ▸ List.mem_singleton_self _)
  obtain ⟨hlistener, hregistered⟩ := Prod.mk.inj hpair
  have hright := (h k hk).right x hx 2 hregistered
  rw [hlistener] at hright
  cases hright

end Process

end

end Kiteq

import Kiteq.Lib.Machine
import Kiteq.Protocol.Packet

/-!
# The read side of a session

`asioSession` reads a length prefix into `pkglen`, then that many bytes into `read_buffer_`,
and hands the buffer to `parseFrom`; `handle_read_pkg`, which every read of the client is
started with, dispatches the packet and starts the next read.

The callbacks below are the source's, one definition each, on the state they share.  What they
do to the outside is a list of `Event`s, in order.  `readLoop` is the loop they form with the
socket: it completes the pending read as long as the input lasts, and with an error where the
peer has closed the connection first.
-/

namespace Kiteq

/-- `KiteResponse`. -/
structure KiteResponse where
  requestId : CInt
  message : Option MessageLite
deriving DecidableEq

/-! ## Dispatch -/

/-- Where `handle_read_pkg` takes a packet: to the registry of requests, or to a method of the
registered listener. -/
inductive Delivery where
  | receiveResponse (resp : KiteResponse)
  | txAckReceived (opaqueId : CInt) (message : Option MessageLite)
  | bytesMessageReceived (opaqueId : CInt) (message : Option MessageLite)
  | stringMessageReceived (opaqueId : CInt) (message : Option MessageLite)
deriving DecidableEq

/-- The commands whose packets answer a request. -/
def isResponse (cmdType : CChar) : Bool :=
  cmdType = Protocol.CMD_CONN_AUTH || cmdType = Protocol.CMD_MESSAGE_STORE_ACK ||
    cmdType = Protocol.CMD_HEARTBEAT

/-- The dispatch of `handle_read_pkg`. -/
def KitePacket.dispatch (pkg : KitePacket) : Option Delivery :=
  if isResponse pkg.cmdType then some (.receiveResponse ⟨pkg.opaqueId, pkg.message⟩)
  else if pkg.cmdType = Protocol.CMD_TX_ACK then some (.txAckReceived pkg.opaqueId pkg.message)
  else if pkg.cmdType = Protocol.CMD_BYTES_MESSAGE then
    some (.bytesMessageReceived pkg.opaqueId pkg.message)
  else if pkg.cmdType = Protocol.CMD_STRING_MESSAGE then
    some (.stringMessageReceived pkg.opaqueId pkg.message)
  else none

/-- A packet that nothing has been parsed into. -/
def blankPacket : KitePacket := ⟨⟨0, 0, 0, 0⟩, none, .empty⟩

/-! ## The callbacks -/

/-- The `async_read` a session waits for. -/
inductive Wait where
  /-- Four bytes into `pkglen`. -/
  | pkglen
  /-- Into the area `prepare` returned. -/
  | pkgdata (size : ℕ)
deriving DecidableEq, Repr

/-- The number of bytes the read completes with. -/
def Wait.size : Wait → ℕ
  | .pkglen => 4
  | .pkgdata n => n

/-- The read side of `asioSession`, with the packet the client reads into. -/
structure Session where
  /-- The bytes committed to `read_buffer_` and not consumed. -/
  readBuffer : List CChar
  pkglen : List CChar
  readPkg : KitePacket
  /-- The outstanding read, `none` when the loop has ended. -/
  pending : Option Wait

/-- What the callbacks do, in order. -/
inductive Event where
  /-- `read_buffer_.prepare(len)` is called while `held` bytes are in the buffer. -/
  | prepare (len : CInt) (held : ℕ)
  /-- `prepare` has thrown `std::length_error`. -/
  | lengthError
  /-- `parseFrom(pkg, data, len)`: its accesses and its result. -/
  | parse (data : List CChar) (len : CInt) (trace : List Access) (ok : Bool)
  /-- The handler is called without an error. -/
  | deliver (pkg : KitePacket)
  /-- The handler is called with an error. -/
  | failed
deriving DecidableEq

/-- The sizes passed to `prepare`, with what the buffer held at the time. -/
def prepares (es : List Event) : List (CInt × ℕ) := es.filterMap fun
  | .prepare len held => some (len, held)
  | _ => none

/-- What `parseFrom` is given. -/
def parses (es : List Event) : List (List CChar × CInt) := es.filterMap fun
  | .parse data len _ _ => some (data, len)
  | _ => none

/-- The calls of the handler, `none` for one with an error. -/
def handled (es : List Event) : List (Option KitePacket) := es.filterMap fun
  | .deliver pkg => some (some pkg)
  | .failed => some none
  | _ => none

/-- `pkglen[0]<<24 | pkglen[1]<<16 | pkglen[2]<<8 | pkglen[3]`, on signed `char`s. -/
def lengthOf (pkglen : List CChar) : CInt :=
  (pkglen.getD 0 0).signExtend 32 <<< 24 ||| (pkglen.getD 1 0).signExtend 32 <<< 16 |||
    (pkglen.getD 2 0).signExtend 32 <<< 8 ||| (pkglen.getD 3 0).signExtend 32

namespace Session

variable (E : Platform) (P : Protobuf)

def asyncSetupReadVarint (s : Session) : Session := { s with pending := some .pkglen }

/-- `async_read(pkg, handle)`. -/
def asyncRead (s : Session) : Session := s.asyncSetupReadVarint

/-- `handle_read_pkg`: the packet is dispatched and the next read is started. -/
def handleReadPkg (err : Bool) (s : Session) : Session × List Event :=
  if err then ({ s with pending := none }, [.failed])
  else (s.asyncRead, [.deliver s.readPkg])

/-- `async_read_pkglen`. -/
def asyncReadPkglen (e : Bool) (bytes : List CChar) (s : Session) : Session × List Event :=
  if e then s.handleReadPkg true
  else
    let s := { s with pkglen := bytes, pending := none }
    let len := lengthOf s.pkglen
    -- a negative `int` becomes a `size_t` no buffer can have
    if len.toInt < 0 then (s, [.prepare len s.readBuffer.length, .lengthError])
    else ({ s with pending := some (.pkgdata len.toNat) }, [.prepare len s.readBuffer.length])

/-- `async_read_pkgdata`. -/
def asyncReadPkgdata (e : Bool) (bytes : List CChar) (s : Session) : Session × List Event :=
  if e then s.handleReadPkg true
  else
    let s := { s with readBuffer := s.readBuffer ++ bytes }
    let len := lengthOf s.pkglen
    if KitePacket.getMaxFrameLength.toInt ≤ len.toInt then s.handleReadPkg false
    else
      let data := E.memory s.readBuffer
      let b := (KitePacket.parsed E P s.readPkg data len).1
      let event := .parse s.readBuffer len (KitePacket.accesses E P s.readPkg data len) b
      let s := { s with readPkg := (KitePacket.parsed E P s.readPkg data len).2 }
      if b then
        let (s, events) := s.handleReadPkg false
        ({ s with readBuffer := s.readBuffer.drop len.toNat }, event :: events)
      else
        let s := { s with readBuffer := s.readBuffer.drop bytes.length }
        (s.asyncSetupReadVarint, [event])

/-- The callback of the outstanding read. -/
def complete (e : Bool) (bytes : List CChar) (s : Session) : Session × List Event :=
  match s.pending with
  | none => (s, [])
  | some .pkglen => s.asyncReadPkglen e bytes
  | some (.pkgdata _) => s.asyncReadPkgdata E P e bytes

/-- A session whose first read has been started, with nothing in its buffer. -/
def start (readPkg : KitePacket) : Session :=
  asyncRead { readBuffer := [], pkglen := [], readPkg, pending := none }

/-! ## What the callbacks do -/

variable {E P} {s : Session} {bytes : List CChar}

theorem complete_true {w : Wait} (h : s.pending = some w) :
    s.complete E P true bytes = ({ s with pending := none }, [.failed]) := by
  cases w <;> simp [complete, h, asyncReadPkglen, asyncReadPkgdata, handleReadPkg]

theorem asyncReadPkglen_of_neg (h : (lengthOf bytes).toInt < 0) :
    s.asyncReadPkglen false bytes = ({ s with pkglen := bytes, pending := none },
      [.prepare (lengthOf bytes) s.readBuffer.length, .lengthError]) := by
  simp [asyncReadPkglen, h]

theorem asyncReadPkglen_of_nonneg (h : 0 ≤ (lengthOf bytes).toInt) :
    s.asyncReadPkglen false bytes =
      ({ s with pkglen := bytes, pending := some (.pkgdata (lengthOf bytes).toNat) },
        [.prepare (lengthOf bytes) s.readBuffer.length]) := by
  simp [asyncReadPkglen, Int.not_lt.mpr h]

/-- A frame that is too long stays in the buffer, and the packet of an earlier frame is
delivered. -/
theorem asyncReadPkgdata_of_oversized
    (h : KitePacket.getMaxFrameLength.toInt ≤ (lengthOf s.pkglen).toInt) :
    s.asyncReadPkgdata E P false bytes =
      ({ s with readBuffer := s.readBuffer ++ bytes, pending := some .pkglen },
        [.deliver s.readPkg]) := by
  simp [asyncReadPkgdata, h, handleReadPkg, asyncRead, asyncSetupReadVarint]

/-- Any other frame is parsed, whatever is in the buffer; what is consumed is its length if
`parseFrom` accepts it, and what was read if not. -/
theorem asyncReadPkgdata_parses {r : Bool × KitePacket}
    (h : (lengthOf s.pkglen).toInt < KitePacket.getMaxFrameLength.toInt)
    (hr : r = KitePacket.parsed E P s.readPkg (E.memory (s.readBuffer ++ bytes))
      (lengthOf s.pkglen)) :
    s.asyncReadPkgdata E P false bytes =
      ({ s with
          readBuffer := (s.readBuffer ++ bytes).drop
            (if r.1 then (lengthOf s.pkglen).toNat else bytes.length)
          readPkg := r.2
          pending := some .pkglen },
        .parse (s.readBuffer ++ bytes) (lengthOf s.pkglen)
          (KitePacket.accesses E P s.readPkg (E.memory (s.readBuffer ++ bytes))
            (lengthOf s.pkglen)) r.1 ::
            if r.1 then [.deliver r.2] else []) := by
  subst hr
  rw [asyncReadPkgdata, if_neg (by simp), if_neg (by simpa using h)]
  cases hb : (KitePacket.parsed E P s.readPkg (E.memory (s.readBuffer ++ bytes))
      (lengthOf s.pkglen)).1 <;>
    simp [hb, handleReadPkg, asyncRead, asyncSetupReadVarint]

/-- As many bytes are consumed as were read. -/
theorem asyncReadPkgdata_of_lt {data : Mem} {r : Bool × KitePacket}
    (h : (lengthOf s.pkglen).toInt < KitePacket.getMaxFrameLength.toInt)
    (hbytes : bytes.length = (lengthOf s.pkglen).toNat)
    (hdata : data = E.memory (s.readBuffer ++ bytes))
    (hr : r = KitePacket.parsed E P s.readPkg data (lengthOf s.pkglen)) :
    s.asyncReadPkgdata E P false bytes =
      ({ s with
          readBuffer := (s.readBuffer ++ bytes).drop bytes.length
          readPkg := r.2
          pending := some .pkglen },
        .parse (s.readBuffer ++ bytes) (lengthOf s.pkglen)
          (KitePacket.accesses E P s.readPkg data (lengthOf s.pkglen)) r.1 ::
            if r.1 then [.deliver r.2] else []) := by
  subst hdata
  rw [asyncReadPkgdata_parses h hr, ← hbytes, ite_self]

/-- What the callback of a read does: the session it leaves, and its events. -/
inductive Completion (E : Platform) (P : Protobuf) (e : Bool) (bytes : List CChar) (s : Session) :
    Session × List Event → Prop
  | failed : e = true → Completion E P e bytes s ({ s with pending := none }, [.failed])
  | negative : e = false → s.pending = some .pkglen → (lengthOf bytes).toInt < 0 →
      Completion E P e bytes s ({ s with pkglen := bytes, pending := none },
        [.prepare (lengthOf bytes) s.readBuffer.length, .lengthError])
  | length : e = false → s.pending = some .pkglen → 0 ≤ (lengthOf bytes).toInt →
      Completion E P e bytes s
        ({ s with pkglen := bytes, pending := some (.pkgdata (lengthOf bytes).toNat) },
          [.prepare (lengthOf bytes) s.readBuffer.length])
  /-- The packet of an earlier frame is delivered again. -/
  | oversized {n : ℕ} : e = false → s.pending = some (.pkgdata n) →
      KitePacket.getMaxFrameLength.toInt ≤ (lengthOf s.pkglen).toInt →
      Completion E P e bytes s
        ({ s with readBuffer := s.readBuffer ++ bytes, pending := some .pkglen },
          [.deliver s.readPkg])
  | parsed {n : ℕ} {r : Bool × KitePacket} : e = false → s.pending = some (.pkgdata n) →
      (lengthOf s.pkglen).toInt < KitePacket.getMaxFrameLength.toInt →
      r = KitePacket.parsed E P s.readPkg (E.memory (s.readBuffer ++ bytes)) (lengthOf s.pkglen) →
      Completion E P e bytes s
        ({ s with
            readBuffer := (s.readBuffer ++ bytes).drop
              (if r.1 then (lengthOf s.pkglen).toNat else bytes.length)
            readPkg := r.2
            pending := some .pkglen },
          .parse (s.readBuffer ++ bytes) (lengthOf s.pkglen)
            (KitePacket.accesses E P s.readPkg (E.memory (s.readBuffer ++ bytes))
              (lengthOf s.pkglen)) r.1 ::
              if r.1 then [.deliver r.2] else [])

/-- **Inversion.** The callback of the outstanding read does what one of the rules says. -/
theorem completion_complete {w : Wait} (hw : s.pending = some w) (e : Bool)
    (bytes : List CChar) : Completion E P e bytes s (s.complete E P e bytes) := by
  cases e with
  | true =>
      rw [complete_true hw]
      exact .failed rfl
  | false =>
      cases w with
      | pkglen =>
          have hcomplete : s.complete E P false bytes = s.asyncReadPkglen false bytes := by
            simp [complete, hw]
          rw [hcomplete]
          rcases lt_or_ge (lengthOf bytes).toInt 0 with hneg | hnonneg
          · rw [asyncReadPkglen_of_neg hneg]
            exact .negative rfl hw hneg
          · rw [asyncReadPkglen_of_nonneg hnonneg]
            exact .length rfl hw hnonneg
      | pkgdata n =>
          have hcomplete : s.complete E P false bytes = s.asyncReadPkgdata E P false bytes := by
            simp [complete, hw]
          rw [hcomplete]
          rcases lt_or_ge (lengthOf s.pkglen).toInt KitePacket.getMaxFrameLength.toInt with
            hlt | hover
          · rw [asyncReadPkgdata_parses hlt rfl]
            exact .parsed rfl hw hlt rfl
          · rw [asyncReadPkgdata_of_oversized hover]
            exact .oversized rfl hw hover

@[simp] theorem pending_start (readPkg : KitePacket) :
    (start readPkg).pending = some .pkglen := rfl

@[simp] theorem readBuffer_start (readPkg : KitePacket) : (start readPkg).readBuffer = [] := rfl

end Session

end Kiteq

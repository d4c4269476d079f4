import Kiteq.Lib.System
import Kiteq.Lib.Table
import Kiteq.Protocol.Frame
import Kiteq.Protocol.Proto2

/-!
# Frames on the wire

Every sending function of the client builds a packet on its stack, encodes it into the packet's
own buffer, and starts an `async_write` of that buffer.  Nothing orders the writes of one
connection: each outstanding one may transmit some of what it has left at any time.  And nothing
keeps the packet alive: the buffer a write transmits from is gone when the sending function has
returned.

`connection` is the transition system of one connection.  Frames reach the peer whole along
every run in which a write transmits only while no other is under way and while its packet is
still there (`framed_of_reachesUnder`), and not in general.
-/

namespace Kiteq

open Lib

/-! ## The sending functions -/

/-- What the constructors of `KitePacketHeader` make, given the number of packets built so
far. -/
structure HeaderClass where
  ofCmd : ℕ → CChar → KitePacketHeader
  ofOpaque : CInt → CChar → KitePacketHeader

/-- The calls that send a packet, with their arguments. -/
inductive Call where
  | send (cmdType : CInt) (message : Option MessageLite)
  | sendAck (o cmdType : CInt) (message : Option MessageLite)
  | sendHeartBeatAndGet (cmdType : CInt) (message : Option MessageLite)
  | sendConnAndGet (cmdType : CInt) (message : Option MessageLite)
  | sendMessageAndGet (cmdType : CInt) (message : Option MessageLite)
deriving DecidableEq

variable (E : Platform) (P : Protobuf) (H : HeaderClass)

/-- The `reqPacket` of a call: four of the five build it from the command, `sendAck` from the
opaque of the packet it acknowledges, too. -/
def Call.reqPacket (n : ℕ) : Call → KitePacket
  | .sendAck o cmdType message =>
    { H.ofOpaque o (cmdType.setWidth 8) with message, buff := .empty }
  | .send cmdType message | .sendHeartBeatAndGet cmdType message
  | .sendConnAndGet cmdType message | .sendMessageAndGet cmdType message =>
    { H.ofCmd n (cmdType.setWidth 8) with message, buff := .empty }

/-! ## The connection -/

/-- A write that has been started, and maybe finished. -/
structure Write where
  /-- The packet before it was encoded. -/
  pkg : KitePacket
  /-- The `total_output_size` bytes `toByteBuf` returned. -/
  bytes : List CChar
  /-- How many of them have been transmitted. -/
  sent : ℕ
  /-- The call has not returned, and the packet still owns the bytes. -/
  live : Bool
deriving DecidableEq

/-- Either nothing of the write is on the wire, or all of it. -/
def Write.Idle (w : Write) : Prop := w.sent = 0 ∨ w.sent = w.bytes.length

instance (w : Write) : Decidable w.Idle := inferInstanceAs (Decidable (_ ∨ _))

/-- What `n` more bytes of a write are, with `junk` in place of a buffer that is gone. -/
def Write.transmit (w : Write) (n : ℕ) (junk : ℕ → CChar) : List CChar :=
  if w.live then (w.bytes.drop w.sent).take n else (List.range n).map junk

/-- The writes of a connection, and the bytes sent so far. -/
structure Wire where
  writes : List Write
  sent : List CChar
deriving DecidableEq

/-- What happens on a connection. -/
inductive WireAction where
  /-- A call reaches its `async_write`, `toByteBuf` having taken some fuel. -/
  | call (c : Call) (fuel : ℕ)
  /-- A write transmits `n` bytes. -/
  | advance (i n : ℕ) (junk : ℕ → CChar)
  /-- A call returns and destroys its packet. -/
  | ret (i : ℕ)

namespace Wire

/-- `session_.async_write(reqPacket, …)`. -/
def asyncWrite (fuel : ℕ) (pkg : KitePacket) (s : Wire) : Option Wire :=
  match KitePacket.toByteBuf E P fuel pkg with
  | .error _ => none
  | .ok (totalOutputSize, encoded) =>
    if 0 < totalOutputSize.toInt then
      some { s with writes := s.writes ++ [{
        pkg, bytes := (encoded.buff.getBuffPtr E).slice 0 totalOutputSize.toNat
        sent := 0, live := true }] }
    else some s

/-- One step of the connection. -/
def step : WireAction → Wire → Option Wire
  | .call c fuel, s => s.asyncWrite E P fuel (c.reqPacket H s.writes.length)
  | .advance i n junk, s =>
    match s.writes[i]? with
    | none => none
    | some w =>
      if 0 < n ∧ w.sent + n ≤ w.bytes.length then
        some {
          writes := s.writes.set i { w with sent := w.sent + n }
          sent := s.sent ++ w.transmit n junk }
      else none
  | .ret i, s =>
    match s.writes[i]? with
    | none => none
    | some w => some { s with writes := s.writes.set i { w with live := false } }

end Wire

/-- A connection on which nothing has been sent. -/
def connection : System WireAction Wire where
  init s := s = ⟨[], []⟩
  step := Wire.step E P H

/-- A write transmits only while its packet is there and no other write is under way. -/
def Exclusive : WireAction → Wire → Prop
  | .advance i _ _, s =>
    (s.writes[i]?).any (·.live) = true ∧ ∀ w ∈ s.writes.eraseIdx i, w.Idle
  | _, _ => True

instance : ∀ a s, Decidable (Exclusive a s)
  | .advance _ _ _, _ => inferInstanceAs (Decidable (_ ∧ _))
  | .call _ _, _ => inferInstanceAs (Decidable True)
  | .ret _, _ => inferInstanceAs (Decidable True)

/-- The bytes of a write. -/
def Wire.frame (s : Wire) (i : ℕ) : List CChar := (s.writes[i]?).elim [] (·.bytes)

/-- The bytes sent are complete frames, one for each of some calls, followed by the beginning
of at most one more; and a frame is what `toByteBuf` yields for the packet of its call. -/
def Wire.Framed (s : Wire) : Prop :=
  (∀ w ∈ s.writes, KitePacket.Yields E P w.pkg w.bytes) ∧
    ∃ (done : List ℕ) (rest : List CChar),
      done.Nodup ∧ (∀ i ∈ done, i < s.writes.length) ∧
      s.sent = done.flatMap s.frame ++ rest ∧
      (rest = [] ∨ ∃ i, i < s.writes.length ∧ i ∉ done ∧ rest <+: s.frame i)

/-! ## What one step does -/

namespace Wire

variable {E P H} {s s' : Wire}

theorem asyncWrite_cases {fuel : ℕ} {pkg : KitePacket}
    (h : s.asyncWrite E P fuel pkg = some s') :
    s' = s ∨ ∃ w : Write, s' = { s with writes := s.writes ++ [w] } ∧ w.sent = 0 ∧
      0 < w.bytes.length ∧ KitePacket.Yields E P w.pkg w.bytes := by
  unfold asyncWrite at h
  split at h
  · cases h
  · rename_i num encoded hok
    split at h
    · rename_i hpos
      have hnum : num.toInt = num.toNat := toInt_eq_toNat_of_nonneg (by omega)
      cases h
      exact .inr ⟨_, rfl, rfl, by simp; omega, fuel, num, encoded, hok, by simpa using hnum,
        Mem.holds_slice _ _⟩
    · cases h
      exact .inl rfl

theorem step_advance_cases {i n : ℕ} {junk : ℕ → CChar}
    (h : step E P H (.advance i n junk) s = some s') :
    ∃ w, s.writes[i]? = some w ∧ 0 < n ∧ w.sent + n ≤ w.bytes.length ∧
      s' = ⟨s.writes.set i { w with sent := w.sent + n }, s.sent ++ w.transmit n junk⟩ := by
  simp only [step] at h
  split at h
  · cases h
  · rename_i w hw
    split at h
    · rename_i hn
      cases h
      exact ⟨w, hw, hn.1, hn.2, rfl⟩
    · cases h

theorem step_ret_cases {i : ℕ} (h : step E P H (.ret i) s = some s') :
    ∃ w, s.writes[i]? = some w ∧
      s' = { s with writes := s.writes.set i { w with live := false } } := by
  simp only [step] at h
  split at h
  · cases h
  · rename_i w hw
    cases h
    exact ⟨w, hw, rfl⟩

theorem frame_of_getElem? {i : ℕ} {w : Write} (h : s.writes[i]? = some w) :
    s.frame i = w.bytes := by
  rw [frame, h, Option.elim_some]

/-- A write keeps its bytes when its other fields change. -/
theorem frame_set {i : ℕ} {w : Write} (h : s.writes[i]? = some w) (w' : Write)
    (hb : w'.bytes = w.bytes) (sent : List CChar) (j : ℕ) :
    (⟨s.writes.set i w', sent⟩ : Wire).frame j = s.frame j := by
  by_cases hj : i = j
  · subst hj
    have hlt := (List.getElem?_eq_some_iff.mp h).1
    rw [frame_of_getElem? h, frame_of_getElem? (w := w') (by simp [hlt]), hb]
  · rw [frame, frame, List.getElem?_set_ne hj]

/-! ## The invariant -/

/-- `done` lists the finished writes in the order they finished, and `rest` is what the one
write under way, if there is one, has transmitted. -/
structure Inv (E : Platform) (P : Protobuf) (s : Wire) (done : List ℕ) (rest : List CChar) :
    Prop where
  yields : ∀ w ∈ s.writes, KitePacket.Yields E P w.pkg w.bytes ∧ 0 < w.bytes.length
  nodup : done.Nodup
  mem_done : ∀ i, i ∈ done ↔ ∃ w, s.writes[i]? = some w ∧ w.sent = w.bytes.length
  sent : s.sent = done.flatMap s.frame ++ rest
  rest : (rest = [] ∧ ∀ w ∈ s.writes, w.Idle) ∨
    ∃ (i : ℕ) (w : Write), s.writes[i]? = some w ∧ ¬w.Idle ∧ rest = w.bytes.take w.sent ∧
      ∀ (j : ℕ) (v : Write), s.writes[j]? = some v → j ≠ i → v.Idle

variable {done : List ℕ} {rest : List CChar}

theorem inv_init : Inv E P ⟨[], []⟩ [] [] :=
  ⟨by simp, .nil, by simp, rfl, .inl ⟨rfl, by simp⟩⟩

/-- A new write has transmitted nothing yet. -/
theorem Inv.call (hs : Inv E P s done rest) {w : Write} (h0 : w.sent = 0)
    (hpos : 0 < w.bytes.length) (hy : KitePacket.Yields E P w.pkg w.bytes) :
    Inv E P { s with writes := s.writes ++ [w] } done rest := by
  have hlt : ∀ i ∈ done, i < s.writes.length := by
    intro i hi
    obtain ⟨v, hv, -⟩ := (hs.mem_done i).mp hi
    exact (List.getElem?_eq_some_iff.mp hv).1
  have hget (i : ℕ) (v : Write) := getElem?_concat_iff (l := s.writes) (a := w) (i := i) (b := v)
  have hadd := adds_concat s.writes w
  refine ⟨hadd.forall_mem hs.yields ⟨hy, hpos⟩, hs.nodup, ?_, ?_, ?_⟩
  · intro i
    rw [hs.mem_done]
    constructor
    · rintro ⟨v, hv, hfull⟩
      exact ⟨v, (hget i v).mpr (.inl hv), hfull⟩
    · rintro ⟨v, hv, hfull⟩
      rcases (hget i v).mp hv with hv | ⟨-, rfl⟩
      · exact ⟨v, hv, hfull⟩
      · omega
  · have hframe : done.flatMap s.frame =
        done.flatMap ({ s with writes := s.writes ++ [w] } : Wire).frame := by
      refine List.flatMap_congr fun i hi ↦ ?_
      rw [frame, frame, List.getElem?_append_left (hlt i hi)]
    exact hs.sent.trans (congrArg (· ++ rest) hframe)
  · rcases hs.rest with ⟨hrest, hidle⟩ | ⟨i, v, hv, hbusy, hrest, hidle⟩
    · exact .inl ⟨hrest, hadd.forall_mem hidle (.inl h0)⟩
    · refine .inr ⟨i, v, (hget i v).mpr (.inl hv), hbusy, hrest, fun j u hu hj ↦ ?_⟩
      rcases (hget j u).mp hu with hu | ⟨-, rfl⟩
      · exact hidle j u hu hj
      · exact .inl h0

/-- The destruction of a packet changes nothing on the wire. -/
theorem Inv.ret (hs : Inv E P s done rest) {i : ℕ} {w : Write} (hw : s.writes[i]? = some w) :
    Inv E P { s with writes := s.writes.set i { w with live := false } } done rest := by
  have hset (j : ℕ) (v : Write) := getElem?_set_iff (j := j) (b := v)
    (c := { w with live := false }) hw
  have hmem := List.mem_of_getElem? hw
  have hadd := adds_set s.writes i { w with live := false }
  refine ⟨hadd.forall_mem hs.yields (hs.yields w hmem), hs.nodup, ?_, ?_, ?_⟩
  · intro j
    rw [hs.mem_done]
    constructor
    · rintro ⟨v, hv, hfull⟩
      by_cases hj : j = i
      · subst hj
        cases hw.symm.trans hv
        exact ⟨_, (hset j _).mpr (.inl ⟨rfl, rfl⟩), hfull⟩
      · exact ⟨v, (hset j v).mpr (.inr ⟨hj, hv⟩), hfull⟩
    · rintro ⟨v, hv, hfull⟩
      rcases (hset j v).mp hv with ⟨rfl, rfl⟩ | ⟨-, hv⟩
      · exact ⟨w, hw, hfull⟩
      · exact ⟨v, hv, hfull⟩
  · refine hs.sent.trans (congrArg (· ++ rest) (List.flatMap_congr fun j _ ↦ ?_))
    exact (frame_set hw { w with live := false } rfl s.sent j).symm
  · rcases hs.rest with ⟨hrest, hidle⟩ | ⟨k, v, hv, hbusy, hrest, hidle⟩
    · exact .inl ⟨hrest, hadd.forall_mem hidle (hidle w hmem)⟩
    · have hothers (j : ℕ) (u : Write)
          (hu : (s.writes.set i { w with live := false })[j]? = some u) (hj : j ≠ k) :
          u.Idle := by
        rcases (hset j u).mp hu with ⟨rfl, rfl⟩ | ⟨-, hu⟩
        · exact hidle j w hw hj
        · exact hidle j u hu hj
      by_cases hk : k = i
      · subst hk
        cases hw.symm.trans hv
        exact .inr ⟨k, _, (hset k _).mpr (.inl ⟨rfl, rfl⟩), hbusy, hrest, hothers⟩
      · exact .inr ⟨k, v, (hset k v).mpr (.inr ⟨hk, hv⟩), hbusy, hrest, hothers⟩

/-- A write that transmits alone either had not begun or is the one under way. -/
theorem Inv.rest_eq (hs : Inv E P s done rest) {i : ℕ} {w : Write} (hw : s.writes[i]? = some w)
    (hlt : w.sent < w.bytes.length) (hidle : ∀ v ∈ s.writes.eraseIdx i, v.Idle) :
    i ∉ done ∧ rest = w.bytes.take w.sent := by
  have hothers (j : ℕ) (v : Write) (hv : s.writes[j]? = some v) (hj : j ≠ i) : v.Idle :=
    hidle v (List.mem_eraseIdx_iff_getElem?.mpr ⟨j, hj, hv⟩)
  constructor
  · intro hi
    obtain ⟨v, hv, hfull⟩ := (hs.mem_done i).mp hi
    cases hw.symm.trans hv
    omega
  · rcases hs.rest with ⟨hrest, hall⟩ | ⟨k, v, hv, hbusy, hrest, -⟩
    · rcases hall w (List.mem_of_getElem? hw) with h0 | hfull
      · rw [hrest, h0, List.take_zero]
      · omega
    · have hk : k = i := by
        by_contra hne
        exact hbusy (hothers k v hv hne)
      subst hk
      cases hw.symm.trans hv
      exact hrest

/-- **Step lemma.** A write that transmits alone, from its own buffer, continues its frame, and
adds it to the finished ones when it has transmitted the last byte. -/
theorem Inv.advance (hs : Inv E P s done rest) {i n : ℕ} {junk : ℕ → CChar} {w : Write}
    (hw : s.writes[i]? = some w) (hn : 0 < n) (hle : w.sent + n ≤ w.bytes.length)
    (hlive : w.live = true) (hidle : ∀ v ∈ s.writes.eraseIdx i, v.Idle) :
    ∃ done rest, Inv E P ⟨s.writes.set i { w with sent := w.sent + n },
      s.sent ++ w.transmit n junk⟩ done rest := by
  obtain ⟨hi, hrest⟩ := hs.rest_eq hw (by omega) hidle
  have hset (j : ℕ) (v : Write) := getElem?_set_iff (j := j) (b := v)
    (c := { w with sent := w.sent + n }) hw
  have hothers (j : ℕ) (v : Write)
      (hv : (s.writes.set i { w with sent := w.sent + n })[j]? = some v) (hj : j ≠ i) :
      v.Idle := by
    rcases (hset j v).mp hv with ⟨h, -⟩ | ⟨-, hv⟩
    · exact absurd h hj
    · exact hidle v (List.mem_eraseIdx_iff_getElem?.mpr ⟨j, hj, hv⟩)
  have hyields : ∀ v ∈ s.writes.set i { w with sent := w.sent + n },
      KitePacket.Yields E P v.pkg v.bytes ∧ 0 < v.bytes.length :=
    (adds_set _ _ _).forall_mem hs.yields (hs.yields w (List.mem_of_getElem? hw))
  have hsent : s.sent ++ w.transmit n junk =
      done.flatMap s.frame ++ w.bytes.take (w.sent + n) := by
    rw [hs.sent, hrest, Write.transmit, if_pos hlive, List.append_assoc, ← List.take_add]
  have hframe : (⟨s.writes.set i { w with sent := w.sent + n }, s.sent ++ w.transmit n junk⟩ :
      Wire).frame = s.frame := funext (frame_set hw { w with sent := w.sent + n } rfl _)
  have hdone (j : ℕ) (hj : j ≠ i) : j ∈ done ↔
      ∃ v, (s.writes.set i { w with sent := w.sent + n })[j]? = some v ∧
        v.sent = v.bytes.length := by
    rw [hs.mem_done, List.getElem?_set_ne (Ne.symm hj)]
  by_cases hfull : w.sent + n = w.bytes.length
  · refine ⟨done ++ [i], [], hyields, ?_, ?_, ?_, ?_⟩
    · simpa using hs.nodup.concat hi
    · intro j
      by_cases hj : j = i
      · subst hj
        exact iff_of_true (by simp) ⟨_, (hset j _).mpr (.inl ⟨rfl, rfl⟩), hfull⟩
      · rw [← hdone j hj]
        simp [hj]
    · rw [hframe, hsent, hfull, List.take_length]
      simp [frame_of_getElem? hw]
    · refine .inl ⟨rfl, fun v hv ↦ ?_⟩
      obtain ⟨j, hj⟩ := List.mem_iff_getElem?.mp hv
      rcases (hset j v).mp hj with ⟨-, rfl⟩ | ⟨hne, -⟩
      · exact .inr hfull
      · exact hothers j v hj hne
  · refine ⟨done, _, hyields, hs.nodup, ?_, by rw [hframe]; exact hsent, ?_⟩
    · intro j
      by_cases hj : j = i
      · subst hj
        refine iff_of_false hi ?_
        rintro ⟨v, hv, hv'⟩
        rcases (hset j v).mp hv with ⟨-, rfl⟩ | ⟨h, -⟩
        · exact hfull hv'
        · exact h rfl
      · exact hdone j hj
    · refine .inr ⟨i, _, (hset i _).mpr (.inl ⟨rfl, rfl⟩), ?_, rfl, hothers⟩
      rintro (h | h)
      · exact absurd h (by simp; omega)
      · exact hfull h

theorem Inv.framed (hs : Inv E P s done rest) : s.Framed E P := by
  refine ⟨fun w hw ↦ (hs.yields w hw).1, done, rest, hs.nodup, ?_, hs.sent, ?_⟩
  · intro i hi
    obtain ⟨w, hw, -⟩ := (hs.mem_done i).mp hi
    exact (List.getElem?_eq_some_iff.mp hw).1
  · rcases hs.rest with ⟨hrest, -⟩ | ⟨i, w, hw, hbusy, hrest, -⟩
    · exact .inl hrest
    · refine .inr ⟨i, (List.getElem?_eq_some_iff.mp hw).1, fun hi ↦ ?_, ?_⟩
      · obtain ⟨v, hv, hfull⟩ := (hs.mem_done i).mp hi
        cases hw.symm.trans hv
        exact hbusy (.inr hfull)
      · rw [hrest, frame_of_getElem? hw]
        exact List.take_prefix _ _

/-- **Frames on the wire.** Along a run in which a write transmits only from a packet that is
still there and while no other write is under way, the bytes sent are complete frames, one for
each of some calls, and the beginning of at most one more. -/
theorem framed_of_reachesUnder (hs : (connection E P H).ReachesUnder Exclusive s) :
    s.Framed E P := by
  have hinv : ∃ done rest, Inv E P s done rest := by
    refine hs.invariant (I := fun s ↦ ∃ done rest, Inv E P s done rest) ?_ ?_
    · rintro s rfl
      exact ⟨[], [], inv_init⟩
    · rintro a s s' ⟨done, rest, hs⟩ hok hstep
      cases a with
      | call c fuel =>
          rcases asyncWrite_cases hstep with rfl | ⟨w, rfl, h0, hpos, hy⟩
          · exact ⟨done, rest, hs⟩
          · exact ⟨done, rest, hs.call h0 hpos hy⟩
      | advance i n junk =>
          obtain ⟨w, hw, hn, hle, rfl⟩ := step_advance_cases (E := E) (P := P) (H := H) hstep
          exact hs.advance hw hn hle (by simpa [hw] using hok.1) hok.2
      | ret i =>
          obtain ⟨w, hw, rfl⟩ := step_ret_cases (E := E) (P := P) (H := H) hstep
          exact ⟨done, rest, hs.ret hw⟩
  obtain ⟨done, rest, hinv⟩ := hinv
  exact hinv.framed

/-- A header class that counts the packets. -/
def countingHeaders : HeaderClass where
  ofCmd n cmdType := ⟨BitVec.ofNat 32 (n + 1), cmdType, 0, Protocol.HEAD_EXTENSION⟩
  ofOpaque o cmdType := ⟨o, cmdType, 0, Protocol.HEAD_EXTENSION⟩

/-- A heartbeat sent by `send`. -/
def sendHeartBeat : WireAction := .call (.send 1 (some (.heartBeat ⟨some 1⟩))) 1

/-- A frame that is transmitted in two parts before its call returns, and another call. -/
theorem framed_two_parts :
    ∃ s, (connection .gcc proto2 countingHeaders).ReachesUnder Exclusive s ∧
      s.sent.length = 25 ∧ s.Framed .gcc proto2 := by
  have hrun : (((connection .gcc proto2 countingHeaders).guard Exclusive).exec
      [sendHeartBeat, .advance 0 5 fun _ ↦ 0, .advance 0 20 fun _ ↦ 0, .ret 0, sendHeartBeat]
      ⟨[], []⟩).map (·.sent.length) = some 25 := by decide +kernel
  obtain ⟨s, hreach, hlen⟩ := System.exists_reachesUnder hrun rfl
  exact ⟨s, hreach, hlen, framed_of_reachesUnder hreach⟩

/-- Two calls whose writes take turns desynchronise the stream. -/
theorem not_framed_taking_turns :
    ∃ s, (connection .gcc proto2 countingHeaders).Reachable s ∧ ¬s.Framed .gcc proto2 := by
  have hrun : ((connection .gcc proto2 countingHeaders).exec
      [sendHeartBeat, sendHeartBeat, .advance 0 5 fun _ ↦ 0, .advance 1 5 fun _ ↦ 0]
      ⟨[], []⟩).map (fun s ↦ (s.sent, s.writes.length, s.frame 0, s.frame 1)) =
      some ([0, 0, 0, 21, 0, 0, 0, 0, 21, 0], 2,
        [0, 0, 0, 21, 0, 0, 0, 1, 1, 0, 0, 0, 0, 0, 0, 0, 0, 0, 0, 0, 0, 0, 2, 8, 1],
        [0, 0, 0, 21, 0, 0, 0, 2, 1, 0, 0, 0, 0, 0, 0, 0, 0, 0, 0, 0, 0, 0, 2, 8, 1]) := by
    decide +kernel
  obtain ⟨s, hreach, heq⟩ := System.exists_reachable hrun rfl
  simp only [Prod.mk.injEq] at heq
  obtain ⟨hsent, hlen, h0, h1⟩ := heq
  have hframe {i : ℕ} (hi : i < s.writes.length) :
      (s.frame i).length = 25 ∧ ¬s.sent <+: s.frame i := by
    have : i = 0 ∨ i = 1 := by omega
    rcases this with rfl | rfl
    · rw [h0, hsent]; decide
    · rw [h1, hsent]; decide
  refine ⟨s, hreach, ?_⟩
  rintro ⟨-, done, rest, -, hdone, hbytes, hrest⟩
  cases done with
  | cons i done =>
      have hi := (hframe (hdone i List.mem_cons_self)).1
      have htotal := congrArg List.length hbytes
      rw [hsent] at htotal
      simp [hi] at htotal
      omega
  | nil =>
      rw [List.flatMap_nil, List.nil_append] at hbytes
      rcases hrest with rfl | ⟨i, hi, -, hpre⟩
      · rw [hsent] at hbytes
        cases hbytes
      · exact (hframe hi).2 (hbytes ▸ hpre)

end Wire

end Kiteq

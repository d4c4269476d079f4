import Kiteq.Protocol.RoundTrip

/-!
# The grammar of `parseFrom`

`InGrammar` says which byte strings are a packet: a decoded command, a body length that is not
negative and lies within the frame, and behind the header a complete encoding of the message
class of that command.  `parseFrom` is exact when it accepts these and nothing else, fills in
the packet from them and leaves it alone otherwise.

It looks at the command and at the upper bound of the body length only.  `exact_iff` is the
condition under which nothing else mattered.
-/

namespace Kiteq

open Lib.BigEndian

namespace KitePacket

variable (E : Platform) (P : Protobuf)

/-- The frames of the grammar that carry a message of class `k`. -/
structure InGrammar (buf : Mem) (pkglen : CInt) (k : MessageKind) : Prop where
  command : messageKind (buf 4) = some k
  nonneg : 0 ≤ (bodyLength buf).toInt
  fits : (bodyLength buf).toInt ≤ pkglen.toInt - 19
  valid : (P.parseFromArray k (buf.shift 19) (bodyLength buf)).1 = true

/-- What a packet holds after a frame of class `k` was parsed into it. -/
structure Holding (buf : Mem) (k : MessageKind) (pkg : KitePacket) : Prop where
  opaqueId : pkg.opaqueId = BitVec.ofNat 32 (value (buf.slice 0 4))
  cmdType : pkg.cmdType = buf 4
  version : pkg.version = BitVec.ofNat 16 (value (buf.slice 5 2))
  message : pkg.message = some (P.parseFromArray k (buf.shift 19) (bodyLength buf)).2

/-- `parseFrom` accepts the grammar, decodes what it accepts and fails atomically. -/
structure Exact (pkg : KitePacket) (buf : Mem) (pkglen : CInt) : Prop where
  accepts_iff : (parsed E P pkg buf pkglen).1 = true ↔ ∃ k, InGrammar P buf pkglen k
  decodes : (parsed E P pkg buf pkglen).1 = true →
    ∃ k, messageKind (buf 4) = some k ∧ Holding P buf k (parsed E P pkg buf pkglen).2
  atomic : (parsed E P pkg buf pkglen).1 = false → (parsed E P pkg buf pkglen).2 = pkg

/-- A frame of a decoded command whose body is not longer than the frame declares a body length
that is not negative, and `ParseFromArray` is content with the body. -/
def BodySound (buf : Mem) (pkglen : CInt) : Prop :=
  ∀ k, messageKind (buf 4) = some k → (bodyLength buf).toInt ≤ pkglen.toInt - 19 →
    0 ≤ (bodyLength buf).toInt ∧ (P.parseFromArray k (buf.shift 19) (bodyLength buf)).1 = true

variable {E P} {pkg : KitePacket} {buf : Mem} {pkglen : CInt} {k : MessageKind}

/-- All that `parseFrom` asks of a frame: a decoded command and a body that is not too long. -/
theorem accepted_eq_some_iff (hlen : 19 ≤ pkglen.toInt) : accepted buf pkglen = some k ↔
    messageKind (buf 4) = some k ∧ (bodyLength buf).toInt ≤ pkglen.toInt - 19 := by
  rw [accepted, toInt_sub_getHeaderLen (by omega)]
  split
  · constructor
    · intro h
      cases h
    · rintro ⟨-, hle⟩
      omega
  · constructor
    · exact fun h ↦ ⟨h, by omega⟩
    · exact fun h ↦ h.1

theorem parsed_fst_iff :
    (parsed E P pkg buf pkglen).1 = true ↔ ∃ k, accepted buf pkglen = some k := by
  cases hacc : accepted buf pkglen with
  | none => simp [parsed_of_rejected hacc]
  | some k => simp [parsed_of_accepted hacc]

/-- What is accepted is decoded, sound or not. -/
theorem holding_of_accepted (h : accepted buf pkglen = some k) :
    Holding P buf k (parsed E P pkg buf pkglen).2 := by
  rw [parsed_of_accepted h]
  exact ⟨rfl, rfl, rfl, rfl⟩

/-- **Exactness.** `parseFrom` is exact on a frame just when no decoded command comes with a
body that is too short to exist or that `ParseFromArray` refuses. -/
theorem exact_iff (hlen : 19 ≤ pkglen.toInt) :
    Exact E P pkg buf pkglen ↔ BodySound P buf pkglen := by
  constructor
  · intro hexact k hk hle
    have hacc : accepted buf pkglen = some k := (accepted_eq_some_iff hlen).mpr ⟨hk, hle⟩
    obtain ⟨k', hgrammar⟩ := hexact.accepts_iff.mp (parsed_fst_iff.mpr ⟨k, hacc⟩)
    have hkk : k' = k := Option.some.inj (hgrammar.command.symm.trans hk)
    exact hkk ▸ ⟨hgrammar.nonneg, hgrammar.valid⟩
  · intro hsound
    refine ⟨parsed_fst_iff.trans ⟨?_, ?_⟩, ?_, ?_⟩
    · rintro ⟨k, hacc⟩
      obtain ⟨hk, hle⟩ := (accepted_eq_some_iff hlen).mp hacc
      obtain ⟨hnonneg, hvalid⟩ := hsound k hk hle
      exact ⟨k, hk, hnonneg, hle, hvalid⟩
    · rintro ⟨k, hgrammar⟩
      exact ⟨k, (accepted_eq_some_iff hlen).mpr ⟨hgrammar.command, hgrammar.fits⟩⟩
    · intro htrue
      obtain ⟨k, hacc⟩ := parsed_fst_iff.mp htrue
      exact ⟨k, ((accepted_eq_some_iff hlen).mp hacc).1, holding_of_accepted hacc⟩
    · intro hfalse
      cases hacc : accepted buf pkglen with
      | none => rw [parsed_of_rejected hacc]
      | some k => simp [parsed_of_accepted hacc] at hfalse

/-- A frame of the `CONN_AUTH` command without a body. -/
def bareConnAuth : Mem :=
  Platform.gcc.memory (KitePacketHeader.payload ⟨7, Protocol.CMD_CONN_AUTH, 0, 0⟩ [])

/-- The payload of a heartbeat is parsed exactly. -/
theorem exact_iff_heartBeat :
    Exact .gcc proto2 (heartBeatOf 0) (Platform.gcc.memory ((heartBeatOf 5).payload
      (proto2.serialize (.heartBeat ⟨some 1⟩)))) 21 := by
  refine (exact_iff (by decide)).mpr ?_
  intro k hk _
  have hkind : k = .heartBeat := Option.some.inj (hk.symm.trans (by decide))
  subst hkind
  decide

/-- An empty body is no `ConnAuthAck`, and is accepted as one. -/
theorem not_exact_bareConnAuth : ¬ Exact .gcc proto2 (heartBeatOf 0) bareConnAuth 19 := by
  intro hexact
  obtain ⟨k, hgrammar⟩ := hexact.accepts_iff.mp (by decide)
  have hkind : k = .connAuthAck := Option.some.inj (hgrammar.command.symm.trans (by decide))
  exact absurd (hkind ▸ hgrammar.valid) (by decide)

end KitePacket

end Kiteq

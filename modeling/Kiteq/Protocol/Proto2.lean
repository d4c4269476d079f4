import Kiteq.Lib.Proto2
import Kiteq.Protocol.Message

/-!
# A protobuf runtime for `kite_remoting.proto`

`Protobuf` is a parameter of the development.  Here is one runtime that fits it: the messages
of the schema in the proto2 wire format of `Kiteq.Lib.Proto2`, fields in the order of their
numbers, unknown fields skipped, a body that does not end well or lacks a required field
refused with the fields read so far kept.  `encodes_proto2` shows that the assumption
`Protobuf.Encodes` is met by every complete message of representable size.
-/

namespace Kiteq

open Lib.Proto2

namespace Proto2

/-- The field of a set optional. -/
def opt {α : Type} (o : Option α) (f : α → Field) : List Field := o.toList.map f

/-- `int64` on the wire. -/
def ofLong (number : ℕ) (x : CLong) : Field := .varint number x.toNat

/-- `int32` on the wire: sign-extended to 64 bits. -/
def ofInt (number : ℕ) (x : CInt) : Field := .varint number (x.signExtend 64).toNat

def ofBool (number : ℕ) (x : Bool) : Field := .varint number x.toNat

def toLong (n : ℕ) : CLong := BitVec.ofNat 64 n
def toInt (n : ℕ) : CInt := (BitVec.ofNat 64 n).setWidth 32
def toBool (n : ℕ) : Bool := n != 0

@[simp] theorem toLong_toNat (x : CLong) : toLong x.toNat = x := by simp [toLong]

@[simp] theorem toInt_toNat (x : CInt) : toInt (x.signExtend 64).toNat = x := by
  apply BitVec.eq_of_getLsbD_eq
  intro i hi
  simp [toInt, BitVec.getElem_signExtend, hi, show i < 64 by omega]

@[simp] theorem toBool_toNat (x : Bool) : toBool x.toNat = x := by cases x <;> rfl

/-! ## Submessages -/

def entryFields (m : Entry) : List Field := opt m.key (.bytes 1) ++ opt m.value (.bytes 2)

def entryStep (m : Entry) : Field → Entry × Bool
  | .bytes 1 s => ({ m with key := some s }, true)
  | .bytes 2 s => ({ m with value := some s }, true)
  | _ => (m, true)

def headerFields (m : Header) : List Field :=
  opt m.messageId (.bytes 1) ++ (opt m.topic (.bytes 2) ++ (opt m.messageType (.bytes 3) ++
    (opt m.expiredTime (ofLong 4) ++ (opt m.deliverLimit (ofInt 5) ++
    (opt m.groupId (.bytes 6) ++ (opt m.commit (ofBool 7) ++ (opt m.fly (ofBool 8) ++
    (m.properties.map (fun e ↦ .bytes 9 (encode (entryFields e))) ++
      opt m.createTime (ofLong 10)))))))))

def headerStep (m : Header) : Field → Header × Bool
  | .bytes 1 s => ({ m with messageId := some s }, true)
  | .bytes 2 s => ({ m with topic := some s }, true)
  | .bytes 3 s => ({ m with messageType := some s }, true)
  | .varint 4 n => ({ m with expiredTime := some (toLong n) }, true)
  | .varint 5 n => ({ m with deliverLimit := some (toInt n) }, true)
  | .bytes 6 s => ({ m with groupId := some s }, true)
  | .varint 7 n => ({ m with commit := some (toBool n) }, true)
  | .varint 8 n => ({ m with fly := some (toBool n) }, true)
  | .bytes 9 s => ({ m with properties := m.properties ++ [(merge entryStep ⟨none, none⟩ s).1] },
      (merge entryStep ⟨none, none⟩ s).2)
  | .varint 10 n => ({ m with createTime := some (toLong n) }, true)
  | _ => (m, true)

def newHeader : Header := ⟨none, none, none, none, none, none, none, none, [], none⟩

/-- A `header` field merged into the one already there. -/
def mergeHeader (o : Option Header) (s : Bytes) : Header × Bool :=
  merge headerStep (o.getD newHeader) s

/-! ## Messages -/

def fields : MessageLite → List Field
  | .heartBeat m => opt m.version (ofLong 1)
  | .connMeta m => opt m.groupId (.bytes 1) ++ (opt m.secretKey (.bytes 2) ++
      opt m.warmingupSec (ofInt 3))
  | .connAuthAck m => opt m.status (ofBool 1) ++ opt m.feedback (.bytes 2)
  | .messageStoreAck m => opt m.messageId (.bytes 1) ++ (opt m.status (ofBool 2) ++
      opt m.feedback (.bytes 3))
  | .deliverAck m => opt m.messageId (.bytes 1) ++ (opt m.topic (.bytes 2) ++
      (opt m.messageType (.bytes 3) ++ (opt m.groupId (.bytes 4) ++
      (opt m.status (ofBool 5) ++ opt m.feedback (.bytes 6)))))
  | .txACKPacket m => opt m.header (fun h ↦ .bytes 1 (encode (headerFields h))) ++
      (opt m.status (ofInt 2) ++ opt m.feedback (.bytes 3))
  | .bytesMessage m => opt m.header (fun h ↦ .bytes 1 (encode (headerFields h))) ++
      opt m.body (.bytes 2)
  | .stringMessage m => opt m.header (fun h ↦ .bytes 1 (encode (headerFields h))) ++
      opt m.body (.bytes 2)

def new : MessageKind → MessageLite
  | .heartBeat => .heartBeat ⟨none⟩
  | .connMeta => .connMeta ⟨none, none, none⟩
  | .connAuthAck => .connAuthAck ⟨none, none⟩
  | .messageStoreAck => .messageStoreAck ⟨none, none, none⟩
  | .deliverAck => .deliverAck ⟨none, none, none, none, none, none⟩
  | .txACKPacket => .txACKPacket ⟨none, none, none⟩
  | .bytesMessage => .bytesMessage ⟨none, none⟩
  | .stringMessage => .stringMessage ⟨none, none⟩

/-- What one field does to a message: a known field of the declared wire type is stored,
anything else is skipped. -/
def step : MessageLite → Field → MessageLite × Bool
  | .heartBeat m, .varint 1 n => (.heartBeat { m with version := some (toLong n) }, true)
  | .connMeta m, .bytes 1 s => (.connMeta { m with groupId := some s }, true)
  | .connMeta m, .bytes 2 s => (.connMeta { m with secretKey := some s }, true)
  | .connMeta m, .varint 3 n => (.connMeta { m with warmingupSec := some (toInt n) }, true)
  | .connAuthAck m, .varint 1 n => (.connAuthAck { m with status := some (toBool n) }, true)
  | .connAuthAck m, .bytes 2 s => (.connAuthAck { m with feedback := some s }, true)
  | .messageStoreAck m, .bytes 1 s => (.messageStoreAck { m with messageId := some s }, true)
  | .messageStoreAck m, .varint 2 n =>
      (.messageStoreAck { m with status := some (toBool n) }, true)
  | .messageStoreAck m, .bytes 3 s => (.messageStoreAck { m with feedback := some s }, true)
  | .deliverAck m, .bytes 1 s => (.deliverAck { m with messageId := some s }, true)
  | .deliverAck m, .bytes 2 s => (.deliverAck { m with topic := some s }, true)
  | .deliverAck m, .bytes 3 s => (.deliverAck { m with messageType := some s }, true)
  | .deliverAck m, .bytes 4 s => (.deliverAck { m with groupId := some s }, true)
  | .deliverAck m, .varint 5 n => (.deliverAck { m with status := some (toBool n) }, true)
  | .deliverAck m, .bytes 6 s => (.deliverAck { m with feedback := some s }, true)
  | .txACKPacket m, .bytes 1 s =>
      (.txACKPacket { m with header := some (mergeHeader m.header s).1 },
        (mergeHeader m.header s).2)
  | .txACKPacket m, .varint 2 n => (.txACKPacket { m with status := some (toInt n) }, true)
  | .txACKPacket m, .bytes 3 s => (.txACKPacket { m with feedback := some s }, true)
  | .bytesMessage m, .bytes 1 s =>
      (.bytesMessage { m with header := some (mergeHeader m.header s).1 },
        (mergeHeader m.header s).2)
  | .bytesMessage m, .bytes 2 s => (.bytesMessage { m with body := some s }, true)
  | .stringMessage m, .bytes 1 s =>
      (.stringMessage { m with header := some (mergeHeader m.header s).1 },
        (mergeHeader m.header s).2)
  | .stringMessage m, .bytes 2 s => (.stringMessage { m with body := some s }, true)
  | m, _ => (m, true)

theorem kind_new (k : MessageKind) : (new k).kind = k := by cases k <;> rfl

theorem kind_step (m : MessageLite) (f : Field) : (step m f).1.kind = m.kind := by
  unfold step; split <;> rfl

theorem kind_absorb (m : MessageLite) (fs : List Field) : (absorb step m fs).1.kind = m.kind := by
  induction fs generalizing m with
  | nil => rfl
  | cons f fs ih =>
      unfold absorb
      split
      · rw [ih, kind_step]
      · exact kind_step m f

end Proto2

open Proto2 in
/-- The runtime: `ParseFromArray` succeeds when the fields end well and none that is required
is missing. -/
def proto2 : Protobuf where
  byteSize m := BitVec.ofNat 32 (encode (fields m)).length
  serialize m := encode (fields m)
  parseFromArray k p n :=
    let r := merge step (new k) (p.slice 0 n.toInt.toNat)
    (r.2 && r.1.isInitialized, r.1)
  kind_parseFromArray k _ _ := (kind_absorb (new k) _).trans (kind_new k)

namespace Proto2

/-! ## The runtime encodes every complete message -/

theorem absorb_entry {m : Entry} (h : m.isInitialized) :
    absorb entryStep ⟨none, none⟩ (entryFields m) = (m, true) := by
  obtain ⟨key, value⟩ := m
  cases key <;> cases value <;> simp [Entry.isInitialized] at h
  rfl

theorem absorb_properties (m : Header) {ps : List Entry} (hps : ∀ e ∈ ps, e.isInitialized)
    (hvalid : ∀ e ∈ ps, ∀ f ∈ entryFields e, f.Valid) :
    absorb headerStep m (ps.map fun e ↦ .bytes 9 (encode (entryFields e))) =
      ({ m with properties := m.properties ++ ps }, true) := by
  induction ps generalizing m with
  | nil => simp [absorb]
  | cons e ps ih =>
      have he := merge_encode (hvalid e (by simp)) (absorb_entry (hps e (by simp)))
      have hstep : headerStep m (.bytes 9 (encode (entryFields e))) =
          ({ m with properties := m.properties ++ [e] }, true) := by simp [headerStep, he]
      rw [List.map_cons, absorb_cons_of_ok hstep,
        ih _ (fun e he ↦ hps e (by simp [he])) (fun e he ↦ hvalid e (by simp [he]))]
      simp

theorem absorb_header {m : Header} (h : m.isInitialized)
    (hvalid : ∀ e ∈ m.properties, ∀ f ∈ entryFields e, f.Valid) :
    absorb headerStep newHeader (headerFields m) = (m, true) := by
  obtain ⟨messageId, topic, messageType, expiredTime, deliverLimit, groupId, commit, fly,
    properties, createTime⟩ := m
  simp only [Header.isInitialized, Bool.and_eq_true, Option.isSome_iff_exists,
    List.all_eq_true] at h
  obtain ⟨⟨⟨⟨⟨⟨⟨⟨⟨a, rfl⟩, b, rfl⟩, c, rfl⟩, d, rfl⟩, e, rfl⟩, f, rfl⟩, g, rfl⟩, i, rfl⟩, hps⟩ := h
  have hps' := absorb_properties ⟨some a, some b, some c, some d, some e, some f, some g, some i,
    [], none⟩ hps hvalid
  simp only [headerFields, opt, ofLong, ofInt, ofBool, Option.toList_some, List.map_cons,
    List.map_nil, List.cons_append, List.nil_append]
  iterate 8 rw [absorb_cons_of_ok rfl]
  simp only [newHeader, toLong_toNat, toInt_toNat, toBool_toNat]
  rw [absorb_append hps']
  cases createTime <;> simp [absorb, headerStep, ofLong]

theorem sound_opt {α : Type} {o : Option α} {f : α → Field} (h : ∀ a, (f a).Sound) :
    ∀ g ∈ opt o f, g.Sound := by
  intro g hg
  obtain ⟨a, -, rfl⟩ := List.mem_map.mp hg
  exact h a

theorem sound_ofLong {number : ℕ} (h : 0 < number ∧ number < 2 ^ 29) (x : CLong) :
    (ofLong number x).Sound := ⟨h.1, h.2, x.isLt⟩

theorem sound_ofInt {number : ℕ} (h : 0 < number ∧ number < 2 ^ 29) (x : CInt) :
    (ofInt number x).Sound := ⟨h.1, h.2, (x.signExtend 64).isLt⟩

theorem sound_ofBool {number : ℕ} (h : 0 < number ∧ number < 2 ^ 29) (x : Bool) :
    (ofBool number x).Sound := ⟨h.1, h.2, by cases x <;> decide⟩

theorem sound_bytes {number : ℕ} (h : 0 < number ∧ number < 2 ^ 29) (s : Bytes) :
    (Field.bytes number s).Sound := h

theorem sound_entryFields (m : Entry) : ∀ f ∈ entryFields m, f.Sound := by
  simp only [entryFields, List.forall_mem_append]
  exact ⟨sound_opt (sound_bytes (by omega)), sound_opt (sound_bytes (by omega))⟩

theorem sound_headerFields (m : Header) : ∀ f ∈ headerFields m, f.Sound := by
  simp only [headerFields, List.forall_mem_append]
  refine ⟨sound_opt (sound_bytes (by omega)), sound_opt (sound_bytes (by omega)),
    sound_opt (sound_bytes (by omega)), sound_opt (sound_ofLong (by omega)),
    sound_opt (sound_ofInt (by omega)), sound_opt (sound_bytes (by omega)),
    sound_opt (sound_ofBool (by omega)), sound_opt (sound_ofBool (by omega)), ?_,
    sound_opt (sound_ofLong (by omega))⟩
  intro f hf
  obtain ⟨e, -, rfl⟩ := List.mem_map.mp hf
  exact sound_bytes (by omega) _

theorem sound_fields (m : MessageLite) : ∀ f ∈ fields m, f.Sound := by
  have hb {n : ℕ} (h : 0 < n ∧ n < 2 ^ 29) {o : Option Bytes} :
      ∀ f ∈ opt o (.bytes n), f.Sound := sound_opt (sound_bytes h)
  have hi {n : ℕ} (h : 0 < n ∧ n < 2 ^ 29) {o : Option CInt} :
      ∀ f ∈ opt o (ofInt n), f.Sound := sound_opt (sound_ofInt h)
  have hs {n : ℕ} (h : 0 < n ∧ n < 2 ^ 29) {o : Option Bool} :
      ∀ f ∈ opt o (ofBool n), f.Sound := sound_opt (sound_ofBool h)
  have hh {o : Option Header} :
      ∀ f ∈ opt o (fun h ↦ .bytes 1 (encode (headerFields h))), f.Sound :=
    sound_opt fun h ↦ sound_bytes (by omega) _
  cases m <;> simp only [fields, List.forall_mem_append]
  case heartBeat => exact sound_opt (sound_ofLong (by omega))
  case connMeta => exact ⟨hb (by omega), hb (by omega), hi (by omega)⟩
  case connAuthAck => exact ⟨hs (by omega), hb (by omega)⟩
  case messageStoreAck => exact ⟨hb (by omega), hs (by omega), hb (by omega)⟩
  case deliverAck =>
    exact ⟨hb (by omega), hb (by omega), hb (by omega), hb (by omega), hs (by omega),
      hb (by omega)⟩
  case txACKPacket => exact ⟨hh, hi (by omega), hb (by omega)⟩
  case bytesMessage => exact ⟨hh, hb (by omega)⟩
  case stringMessage => exact ⟨hh, hb (by omega)⟩

/-- A header inside a message of representable size is merged back. -/
theorem mergeHeader_encode {h : Header} (hinit : h.isInitialized)
    (hlen : (encode (headerFields h)).length < 2 ^ 64) :
    mergeHeader none (encode (headerFields h)) = (h, true) := by
  refine merge_encode (valid_of_sound hlen (sound_headerFields h)) (absorb_header hinit ?_)
  intro e he
  have hmem : .bytes 9 (encode (entryFields e)) ∈ headerFields h := by
    simp only [headerFields, List.mem_append, List.mem_map]
    exact .inr (.inr (.inr (.inr (.inr (.inr (.inr (.inr (.inl ⟨e, he, rfl⟩))))))))
  exact valid_of_sound (Nat.lt_of_le_of_lt (length_le_of_bytes_mem hmem) hlen)
    (sound_entryFields e)

theorem absorb_fields {m : MessageLite} (h : m.isInitialized)
    (hlen : (encode (fields m)).length < 2 ^ 64) :
    absorb step (new m.kind) (fields m) = (m, true) := by
  have hheader {h : Header} {fs : List Field} (hinit : h.isInitialized)
      (hmem : .bytes 1 (encode (headerFields h)) ∈ fs) (hfs : (encode fs).length < 2 ^ 64) :
      mergeHeader none (encode (headerFields h)) = (h, true) :=
    mergeHeader_encode hinit (Nat.lt_of_le_of_lt (length_le_of_bytes_mem hmem) hfs)
  cases m <;> simp only [MessageLite.isInitialized, Bool.and_eq_true, Option.isSome_iff_exists,
    Option.any_eq_true] at h
  case heartBeat m =>
    obtain ⟨version⟩ := m
    obtain ⟨a, rfl⟩ := h
    simp [fields, opt, ofLong, absorb, step, new, MessageLite.kind]
  case connMeta m =>
    obtain ⟨groupId, secretKey, warmingupSec⟩ := m
    obtain ⟨⟨a, rfl⟩, b, rfl⟩ := h
    cases warmingupSec <;>
      simp [fields, opt, ofInt, absorb, step, new, MessageLite.kind]
  case connAuthAck m =>
    obtain ⟨status, feedback⟩ := m
    obtain ⟨⟨a, rfl⟩, b, rfl⟩ := h
    simp [fields, opt, ofBool, absorb, step, new, MessageLite.kind]
  case messageStoreAck m =>
    obtain ⟨messageId, status, feedback⟩ := m
    obtain ⟨⟨⟨a, rfl⟩, b, rfl⟩, c, rfl⟩ := h
    simp [fields, opt, ofBool, absorb, step, new, MessageLite.kind]
  case deliverAck m =>
    obtain ⟨messageId, topic, messageType, groupId, status, feedback⟩ := m
    obtain ⟨⟨⟨⟨⟨a, rfl⟩, b, rfl⟩, c, rfl⟩, d, rfl⟩, e, rfl⟩ := h
    cases feedback <;>
      simp [fields, opt, ofBool, absorb, step, new, MessageLite.kind]
  case txACKPacket m =>
    obtain ⟨header, status, feedback⟩ := m
    obtain ⟨⟨⟨a, rfl, ha⟩, b, rfl⟩, c, rfl⟩ := h
    have hh := hheader ha (by simp [fields, opt]) hlen
    simp [fields, opt, ofInt, absorb, step, new, MessageLite.kind, hh]
  case bytesMessage m =>
    obtain ⟨header, body⟩ := m
    obtain ⟨⟨a, rfl, ha⟩, b, rfl⟩ := h
    have hh := hheader ha (by simp [fields, opt]) hlen
    simp [fields, opt, absorb, step, new, MessageLite.kind, hh]
  case stringMessage m =>
    obtain ⟨header, body⟩ := m
    obtain ⟨⟨a, rfl, ha⟩, b, rfl⟩ := h
    have hh := hheader ha (by simp [fields, opt]) hlen
    simp [fields, opt, absorb, step, new, MessageLite.kind, hh]

end Proto2

/-- The runtime carries every complete message whose size an `int` can hold. -/
theorem encodes_proto2 {m : MessageLite} (h : m.isInitialized)
    (hlen : (proto2.serialize m).length < 2 ^ 31) : proto2.Encodes m where
  complete := h
  toInt_byteSize := toInt_ofNat_of_lt hlen
  parse_serialize p hp := by
    have hlen' : (encode (Proto2.fields m)).length < 2 ^ 64 :=
      Nat.lt_trans hlen (by decide)
    have hmerge := merge_encode (valid_of_sound hlen' (Proto2.sound_fields m))
      (Proto2.absorb_fields h hlen')
    have hsize : (proto2.byteSize m).toInt.toNat = (encode (Proto2.fields m)).length := by
      rw [show (proto2.byteSize m).toInt = _ from toInt_ofNat_of_lt hlen]; rfl
    have hslice : p.slice 0 (proto2.byteSize m).toInt.toNat = encode (Proto2.fields m) := by
      rw [hsize]; exact hp.slice_zero
    simp only [proto2] at hslice ⊢
    simp only [hslice, hmerge, h, Bool.and_self]

end Kiteq

import Kiteq.Protocol.GeneratedRuntime
import Kiteq.Protocol.Proto2

/-!
# What the generated classes write

`Kiteq.Protocol.Proto2` says what a message is on the wire from the numbers and types of its
fields.  Over a runtime that writes proto2 the generated classes write these very bytes, with the
tags that the compiler has put into the code and the lengths that `ByteSize` has left in the
objects, as long as an `int` can hold the lengths.
-/

namespace Kiteq.Generated

open Lib Lib.Proto2 Proto2

variable {W : WireFormat}

/-! ## Fields -/

theorem encode_append (fs gs : List Lib.Proto2.Field) :
    encode (fs ++ gs) = encode fs ++ encode gs := List.flatMap_append

theorem encode_opt {α : Type} (o : Option α) (f : α → Lib.Proto2.Field) :
    encode (opt o f) = o.elim [] fun v ↦ (f v).encode := by
  cases o <;> simp [encode, opt]

section

variable (h2 : W.WritesProto2) {n : ℕ}

include h2

theorem encode_long (hn : 8 * n < 2 ^ 32) (o : Option CLong) :
    encode (opt o (ofLong n)) = o.elim [] fun v ↦ W.writeTag (8 * n) ++ W.int64.write v := by
  simp only [encode_opt, ofLong, Field.encode, h2.writeTag _ hn, h2.int64]

theorem encode_int (hn : 8 * n < 2 ^ 32) (o : Option CInt) :
    encode (opt o (ofInt n)) = o.elim [] fun v ↦ W.writeTag (8 * n) ++ W.int32.write v := by
  simp only [encode_opt, ofInt, Field.encode, h2.writeTag _ hn, h2.int32]

theorem encode_bool (hn : 8 * n < 2 ^ 32) (o : Option Bool) :
    encode (opt o (ofBool n)) = o.elim [] fun v ↦ W.writeTag (8 * n) ++ W.bool.write v := by
  simp only [encode_opt, ofBool, Field.encode, h2.writeTag _ hn, h2.bool]

theorem encode_string (hn : 8 * n + 2 < 2 ^ 32) {o : Option Bytes}
    (hlen : (encode (opt o (.bytes n))).length < 2 ^ 31) :
    encode (opt o (.bytes n)) =
      o.elim [] fun v ↦ W.writeTag (8 * n + 2) ++ W.string.write v := by
  rw [encode_opt] at hlen ⊢
  cases o with
  | none => rfl
  | some v =>
      simp only [Option.elim_some, Field.encode, List.length_append] at hlen ⊢
      rw [h2.writeTag _ hn, h2.string v (by omega)]

end

/-! ## Submessages -/

namespace Entry

theorem serialize_ofRecord (h2 : W.WritesProto2) {r : Kiteq.Entry}
    (hlen : (encode (entryFields r)).length < 2 ^ 31) :
    (messageClass W).serialize (ofRecord W r) = encode (entryFields r) := by
  refine (Schema.serialize_ofFields wellFormed (by rintro (_ | _) h <;> cases h)).trans ?_
  simp only [entryFields, encode_append, List.length_append] at hlen ⊢
  simp (disch := omega) only [encode_string h2]
  simp only [schema, List.flatMap_cons, List.flatMap_nil, List.append_nil]
  rfl

/-- The length in front of an entry is the length of the entry. -/
theorem write_ofRecord (hW : W.Lawful) (h2 : W.WritesProto2) {r : Kiteq.Entry}
    (hlen : (encode (entryFields r)).length < 2 ^ 31) :
    (messageClass W).write W (ofRecord W r) =
      encodeVarint 10 (encode (entryFields r)).length ++ encode (entryFields r) := by
  have hinv := inv_ofRecord hW r
  rw [MessageClass.write, (model hW).byteSize_eq hinv, serialize_ofRecord h2 hlen,
    h2.writeLength, toNat_ofNat_length hlen]

end Entry

namespace Header

theorem encode_properties (hW : W.Lawful) (h2 : W.WritesProto2) {es : List Kiteq.Entry}
    (hlen : (encode (es.map fun e ↦ .bytes 9 (encode (entryFields e)))).length < 2 ^ 31) :
    encode (es.map fun e ↦ .bytes 9 (encode (entryFields e))) =
      ((es.map (Entry.ofRecord W)).map ((Entry.messageClass W).write W)).flatMap
        (schema.writeField W .properties) := by
  induction es with
  | nil => rfl
  | cons e es ih =>
      have hcons (f : Lib.Proto2.Field) (fs : List Lib.Proto2.Field) :
          encode (f :: fs) = f.encode ++ encode fs := rfl
      simp only [List.map_cons, hcons, List.flatMap_cons, Field.encode, List.length_append]
        at hlen ⊢
      rw [ih (by omega), Entry.write_ofRecord hW h2 (by omega), Schema.writeField]
      exact congrArg (· ++ (encodeVarint 10 _ ++ _) ++ _) (h2.writeTag 74 (by decide)).symm

theorem serialize_ofRecord (hW : W.Lawful) (h2 : W.WritesProto2) {r : Kiteq.Header}
    (hlen : (encode (headerFields r)).length < 2 ^ 31) :
    (messageClass W).serialize (ofRecord W r) = encode (headerFields r) := by
  refine (Schema.serialize_ofFields wellFormed (isSome_toFields r)).trans ?_
  simp only [headerFields, encode_append, List.length_append] at hlen ⊢
  simp (disch := omega) only [encode_string h2, encode_long h2, encode_int h2, encode_bool h2,
    encode_properties hW h2]
  simp only [schema, List.flatMap_cons, List.flatMap_nil, List.append_nil]
  rfl

theorem write_ofRecord (hW : W.Lawful) (h2 : W.WritesProto2) {r : Kiteq.Header}
    (hlen : (encode (headerFields r)).length < 2 ^ 31) :
    (messageClass W).write W (ofRecord W r) =
      encodeVarint 10 (encode (headerFields r)).length ++ encode (headerFields r) := by
  have hinv := inv_ofRecord hW r
  rw [MessageClass.write, (model hW).byteSize_eq hinv, serialize_ofRecord hW h2 hlen,
    h2.writeLength, toNat_ofNat_length hlen]

end Header

/-- A header behind its tag. -/
theorem encode_header (hW : W.Lawful) (h2 : W.WritesProto2) {o : Option Kiteq.Header}
    (hlen : (encode (opt o fun h ↦ .bytes 1 (encode (headerFields h)))).length < 2 ^ 31) :
    encode (opt o fun h ↦ .bytes 1 (encode (headerFields h))) =
      (o.map fun h ↦ some (Header.ofRecord W h)).elim [] fun v ↦
        W.writeTag 10 ++ (Header.messageClass W).write W
          (v.getD (Header.messageClass W).new) := by
  rw [encode_opt] at hlen ⊢
  cases o with
  | none => rfl
  | some h =>
      simp only [Option.elim_some, Field.encode, List.length_append] at hlen
      have hwrite := Header.write_ofRecord hW h2 (r := h) (by omega)
      have htag := h2.writeTag 10 (by decide)
      simp only [Option.map_some, Option.elim_some, Option.getD_some, htag, hwrite, Field.encode]

/-! ## Messages -/

/-- **The generated classes write proto2.** -/
theorem serialize_generated (hW : W.Lawful) (h2 : W.WritesProto2) {m : MessageLite}
    (hlen : (proto2.serialize m).length < 2 ^ 31) :
    (generated W).serialize m = proto2.serialize m := by
  cases m with
  | heartBeat r =>
      refine (Schema.serialize_ofFields HeartBeat.wellFormed (by rintro ⟨⟩ h; cases h)).trans ?_
      simp only [proto2, fields]
      rw [encode_long h2 (by decide)]
      simp only [HeartBeat.schema, List.flatMap_cons, List.flatMap_nil, List.append_nil]
      rfl
  | connMeta r =>
      refine (Schema.serialize_ofFields ConnMeta.wellFormed
        (by rintro (_ | _) h <;> cases h)).trans ?_
      simp only [proto2, fields, encode_append, List.length_append] at hlen ⊢
      simp (disch := omega) only [encode_string h2, encode_int h2]
      simp only [ConnMeta.schema, List.flatMap_cons, List.flatMap_nil, List.append_nil]
      rfl
  | connAuthAck r =>
      refine (Schema.serialize_ofFields ConnAuthAck.wellFormed
        (by rintro (_ | _) h <;> cases h)).trans ?_
      simp only [proto2, fields, encode_append, List.length_append] at hlen ⊢
      simp (disch := omega) only [encode_string h2, encode_bool h2]
      simp only [ConnAuthAck.schema, List.flatMap_cons, List.flatMap_nil, List.append_nil]
      rfl
  | messageStoreAck r =>
      refine (Schema.serialize_ofFields MessageStoreAck.wellFormed
        (by rintro (_ | _) h <;> cases h)).trans ?_
      simp only [proto2, fields, encode_append, List.length_append] at hlen ⊢
      simp (disch := omega) only [encode_string h2, encode_bool h2]
      simp only [MessageStoreAck.schema, List.flatMap_cons, List.flatMap_nil, List.append_nil]
      rfl
  | deliverAck r =>
      refine (Schema.serialize_ofFields DeliverAck.wellFormed
        (by rintro (_ | _) h <;> cases h)).trans ?_
      simp only [proto2, fields, encode_append, List.length_append] at hlen ⊢
      simp (disch := omega) only [encode_string h2, encode_bool h2]
      simp only [DeliverAck.schema, List.flatMap_cons, List.flatMap_nil, List.append_nil]
      rfl
  | txACKPacket r =>
      refine (Schema.serialize_ofFields TxACKPacket.wellFormed
        (by rintro (_ | _) h <;> cases h)).trans ?_
      simp only [proto2, fields, encode_append, List.length_append] at hlen ⊢
      simp (disch := omega) only [encode_string h2, encode_int h2, encode_header hW h2]
      simp only [TxACKPacket.schema, List.flatMap_cons, List.flatMap_nil, List.append_nil]
      rfl
  | bytesMessage r =>
      refine (Schema.serialize_ofFields BytesMessage.wellFormed
        (by rintro (_ | _) h <;> cases h)).trans ?_
      simp only [proto2, fields, encode_append, List.length_append] at hlen ⊢
      simp (disch := omega) only [encode_string h2, encode_header hW h2]
      simp only [BytesMessage.schema, List.flatMap_cons, List.flatMap_nil, List.append_nil]
      rfl
  | stringMessage r =>
      refine (Schema.serialize_ofFields StringMessage.wellFormed
        (by rintro (_ | _) h <;> cases h)).trans ?_
      simp only [proto2, fields, encode_append, List.length_append] at hlen ⊢
      simp (disch := omega) only [encode_string h2, encode_header hW h2]
      simp only [StringMessage.schema, List.flatMap_cons, List.flatMap_nil, List.append_nil]
      rfl

theorem serialize_generated_sample :
    (generated ArrayStream.runtime).serialize sample = proto2.serialize sample :=
  serialize_generated ArrayStream.lawful_runtime ArrayStream.writesProto2_runtime
    (by decide +kernel)

end Kiteq.Generated

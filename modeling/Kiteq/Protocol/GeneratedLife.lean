import Kiteq.Protocol.GeneratedRuntime

/-!
# Objects of the generated classes

`Reachable` are the objects a program can make of a generated class: it calls constructors,
setters, `mutable_`, `add_`, `clear_`, `release_` and `set_allocated_` of the fields, `MergeFrom`,
`CopyFrom` and `Clear`, and it parses any bytes into an object, whether or not the parser accepts
them.  A program sees an object through its accessors (`viewOf`), its getters (`getters`) and the
bytes it writes; objects of which it sees the same are `Alike`.  Getters go through pointers: they
also show the fields of the headers and entries in an object.
-/

namespace Kiteq.Generated

open Lib

variable {W : WireFormat}

/-! ## Objects -/

namespace Entry

def Reachable : (messageClass W).Carrier → Prop := schema.Built W fun _ _ ↦ True

theorem inv_of_reachable (hW : W.Lawful) {m : (messageClass W).Carrier} (h : Reachable m) :
    schema.Inv (models hW) m :=
  Schema.Built.inv hW wellFormed (by rintro (_ | _) v - <;> exact nofun) h

end Entry

namespace Header

/-- The elements of `properties` are objects of their own. -/
def Settable : (f : Field) → (types W (Entry.messageClass W) f).Value → Prop
  | .properties, es => ∀ e ∈ es, Entry.Reachable e
  | _, _ => True

def Reachable : (messageClass W).Carrier → Prop := schema.Built W Settable

theorem inv_of_reachable (hW : W.Lawful) {m : (messageClass W).Carrier} (h : Reachable m) :
    schema.Inv (models hW) m := by
  refine Schema.Built.inv hW wellFormed (fun f v hv ↦ ?_) h
  cases f
  case properties => exact ⟨rfl, fun e he ↦ Entry.inv_of_reachable hW (hv e he)⟩
  all_goals exact nofun

/-- What `mutable_header` returns, and what `set_allocated_header` takes unless it is null. -/
def SettablePtr (o : Option (messageClass W).Carrier) : Prop := ∃ h, o = some h ∧ Reachable h

theorem valid_of_settablePtr (hW : W.Lawful) {o : Option (messageClass W).Carrier}
    (h : SettablePtr o) : (FieldType.messageModel W (model hW) hW).Valid ⟨true, o⟩ := by
  obtain ⟨m, rfl, hm⟩ := h
  exact ⟨inv_of_reachable hW hm, rfl⟩

end Header

/-- The objects that a program can make. -/
def Reachable : (k : ClassKind) → (classOf W k).Carrier → Prop
  | .message .heartBeat => HeartBeat.schema.Built W fun _ _ ↦ True
  | .message .connMeta => ConnMeta.schema.Built W fun _ _ ↦ True
  | .message .connAuthAck => ConnAuthAck.schema.Built W fun _ _ ↦ True
  | .message .messageStoreAck => MessageStoreAck.schema.Built W fun _ _ ↦ True
  | .message .deliverAck => DeliverAck.schema.Built W fun _ _ ↦ True
  | .message .txACKPacket => TxACKPacket.schema.Built W fun
    | .header, o => Header.SettablePtr o
    | .status, _ | .feedback, _ => True
  | .message .bytesMessage => BytesMessage.schema.Built W fun
    | .header, o => Header.SettablePtr o
    | .body, _ => True
  | .message .stringMessage => StringMessage.schema.Built W fun
    | .header, o => Header.SettablePtr o
    | .body, _ => True
  | .header => Header.Reachable
  | .entry => Entry.Reachable

/-- Every object is consistent, also one on which the parser has failed. -/
theorem inv_of_reachable (hW : W.Lawful) {k : ClassKind} {m : (classOf W k).Carrier}
    (h : Reachable k m) : (modelOf hW k).Inv m := by
  cases k with
  | header => exact Header.inv_of_reachable hW h
  | entry => exact Entry.inv_of_reachable hW h
  | message k =>
      cases k with
      | heartBeat =>
          exact Schema.Built.inv hW HeartBeat.wellFormed (fun f v _ ↦ by cases f; exact nofun) h
      | connMeta =>
          exact Schema.Built.inv hW ConnMeta.wellFormed (fun f v _ ↦ by cases f <;> exact nofun) h
      | connAuthAck =>
          exact Schema.Built.inv hW ConnAuthAck.wellFormed
            (fun f v _ ↦ by cases f <;> exact nofun) h
      | messageStoreAck =>
          exact Schema.Built.inv hW MessageStoreAck.wellFormed
            (fun f v _ ↦ by cases f <;> exact nofun) h
      | deliverAck =>
          exact Schema.Built.inv hW DeliverAck.wellFormed
            (fun f v _ ↦ by cases f <;> exact nofun) h
      | txACKPacket =>
          refine Schema.Built.inv hW TxACKPacket.wellFormed (fun f v hv ↦ ?_) h
          cases f with
          | header => exact Header.valid_of_settablePtr hW hv
          | status | feedback => exact nofun
      | bytesMessage =>
          refine Schema.Built.inv hW BytesMessage.wellFormed (fun f v hv ↦ ?_) h
          cases f with
          | header => exact Header.valid_of_settablePtr hW hv
          | body => exact nofun
      | stringMessage =>
          refine Schema.Built.inv hW StringMessage.wellFormed (fun f v hv ↦ ?_) h
          cases f with
          | header => exact Header.valid_of_settablePtr hW hv
          | body => exact nofun

/-! ## What a program sees of an object -/

/-- A header pointer is null although the header is set. -/
def nullHeader : (k : ClassKind) → (classOf W k).Carrier → Bool
  | .message .txACKPacket, m =>
    m.has TxACKPacket.schema .header && Option.isNone (m.value .header)
  | .message .bytesMessage, m =>
    m.has BytesMessage.schema .header && Option.isNone (m.value .header)
  | .message .stringMessage, m =>
    m.has StringMessage.schema .header && Option.isNone (m.value .header)
  | .message .heartBeat, _ | .message .connMeta, _ | .message .connAuthAck, _
  | .message .messageStoreAck, _ | .message .deliverAck, _ | .header, _ | .entry, _ => false

/-- What the accessors show of the header that `header()` returns, whether or not it is set. -/
def headerView : (k : ClassKind) → (classOf W k).Carrier → Option Kiteq.Header
  | .message .txACKPacket, m => some (Header.viewPtr (m.value .header))
  | .message .bytesMessage, m => some (Header.viewPtr (m.value .header))
  | .message .stringMessage, m => some (Header.viewPtr (m.value .header))
  | .message .heartBeat, _ | .message .connMeta, _ | .message .connAuthAck, _
  | .message .messageStoreAck, _ | .message .deliverAck, _ | .header, _ | .entry, _ => none

/-! ### Getters -/

def Entry.getters (m : (Entry.messageClass W).Carrier) : Kiteq.Entry :=
  Entry.ofFields fun f ↦ some (m.value f)

def Header.getters (m : (Header.messageClass W).Carrier) : Kiteq.Header :=
  { Header.ofFields fun f ↦ some (m.value f) with
    properties := List.map Entry.getters (m.value .properties) }

/-- The getters of the header behind a pointer, the default instance if it is null. -/
def Header.gettersPtr (o : Option (Header.messageClass W).Carrier) : Kiteq.Header :=
  Header.getters (o.getD (Header.messageClass W).new)

/-- What the getters return, whether or not the fields are set. -/
def getters : (k : ClassKind) → (classOf W k).Carrier → Shown k
  | .message .heartBeat, m => .heartBeat (HeartBeat.ofFields fun f ↦ some (m.value f))
  | .message .connMeta, m => .connMeta (ConnMeta.ofFields fun f ↦ some (m.value f))
  | .message .connAuthAck, m => .connAuthAck (ConnAuthAck.ofFields fun f ↦ some (m.value f))
  | .message .messageStoreAck, m =>
    .messageStoreAck (MessageStoreAck.ofFields fun f ↦ some (m.value f))
  | .message .deliverAck, m => .deliverAck (DeliverAck.ofFields fun f ↦ some (m.value f))
  | .message .txACKPacket, m => .txACKPacket
    { TxACKPacket.ofFields fun f ↦ some (m.value f) with
      header := some (Header.gettersPtr (m.value .header)) }
  | .message .bytesMessage, m => .bytesMessage
    { BytesMessage.ofFields fun f ↦ some (m.value f) with
      header := some (Header.gettersPtr (m.value .header)) }
  | .message .stringMessage, m => .stringMessage
    { StringMessage.ofFields fun f ↦ some (m.value f) with
      header := some (Header.gettersPtr (m.value .header)) }
  | .header, m => Header.getters m
  | .entry, m => Entry.getters m

end Kiteq.Generated

namespace Kiteq

/-! ### Defaults -/

/-- The header of which nothing is set. -/
def Header.unset : Header := ⟨none, none, none, none, none, none, none, none, [], none⟩

/-- An entry with the declared defaults in place of what is not set. -/
def Entry.withDefaults (m : Entry) : Entry := ⟨some (m.key.getD []), some (m.value.getD [])⟩

def Header.withDefaults (m : Header) : Header where
  messageId := some (m.messageId.getD [])
  topic := some (m.topic.getD [])
  messageType := some (m.messageType.getD [])
  expiredTime := some (m.expiredTime.getD (-1))
  deliverLimit := some (m.deliverLimit.getD 100)
  groupId := some (m.groupId.getD [])
  commit := some (m.commit.getD false)
  fly := some (m.fly.getD false)
  properties := m.properties.map Entry.withDefaults
  createTime := some (m.createTime.getD 0)

namespace MessageLite

def withDefaults : MessageLite → MessageLite
  | .heartBeat m => .heartBeat ⟨some m.getVersion⟩
  | .connMeta m =>
    .connMeta ⟨some (m.groupId.getD []), some (m.secretKey.getD []), some (m.warmingupSec.getD 0)⟩
  | .connAuthAck m => .connAuthAck ⟨some m.getStatus, some (m.feedback.getD [])⟩
  | .messageStoreAck m =>
    .messageStoreAck ⟨some (m.messageId.getD []), some m.getStatus, some (m.feedback.getD [])⟩
  | .deliverAck m =>
    .deliverAck ⟨some (m.messageId.getD []), some (m.topic.getD []), some (m.messageType.getD []),
      some (m.groupId.getD []), some (m.status.getD true), some (m.feedback.getD [])⟩
  | .txACKPacket m =>
    .txACKPacket ⟨some (m.header.getD .unset).withDefaults, some (m.status.getD 0),
      some (m.feedback.getD [])⟩
  | .bytesMessage m =>
    .bytesMessage ⟨some (m.header.getD .unset).withDefaults, some (m.body.getD [])⟩
  | .stringMessage m =>
    .stringMessage ⟨some (m.header.getD .unset).withDefaults, some (m.body.getD [])⟩

/-- The header of a message, the empty one if it is not set. -/
def headerOrUnset : MessageLite → Option Header
  | .txACKPacket m => some (m.header.getD .unset)
  | .bytesMessage m => some (m.header.getD .unset)
  | .stringMessage m => some (m.header.getD .unset)
  | .heartBeat _ | .connMeta _ | .connAuthAck _ | .messageStoreAck _ | .deliverAck _ => none

end MessageLite

end Kiteq

namespace Kiteq.Generated

open Lib

variable {W : WireFormat}

def withDefaults : (k : ClassKind) → Shown k → Shown k
  | .message _, m => MessageLite.withDefaults m
  | .header, m => Kiteq.Header.withDefaults m
  | .entry, m => Kiteq.Entry.withDefaults m

def headerOrUnset : (k : ClassKind) → Shown k → Option Kiteq.Header
  | .message _, m => MessageLite.headerOrUnset m
  | .header, _ | .entry, _ => none

/-- Objects that look the same through accessors and getters, and on the wire. -/
structure Alike {k : ClassKind} (m m' : (classOf W k).Carrier) : Prop where
  view_eq : viewOf W k m = viewOf W k m'
  headerView_eq : headerView k m = headerView k m'
  getters_eq : getters k m = getters k m'
  serialize_eq : (classOf W k).serialize m = (classOf W k).serialize m'
  byteSize_eq : (classOf W k).byteSize m = (classOf W k).byteSize m'

/-! ## Getters and defaults -/

theorem Header.view_new : Header.view (Header.messageClass W).new = .unset := by
  exact congrArg ofFields (funext Schema.get_new)

/-- The header behind a pointer is the one that was set, or an empty one. -/
theorem viewPtr_eq (hW : W.Lawful) {s : Slot (Option (Header.messageClass W).Carrier)}
    (h : (FieldType.messageModel W (Header.model hW) hW).Valid s) :
    Header.viewPtr s.value =
      ((if s.has then some s.value else none).map Header.viewPtr).getD .unset := by
  obtain ⟨has, o⟩ := s
  cases has with
  | true => rfl
  | false =>
      have hone : (Header.model hW).content (o.getD (Header.messageClass W).new) =
          (Header.model hW).content (Header.messageClass W).new :=
        h.2.trans (Header.model hW).content_new.symm
      exact (Header.view_congr h.1 (Header.model hW).inv_new hone).trans Header.view_new

theorem headerView_eq (hW : W.Lawful) {k : ClassKind} {m : (classOf W k).Carrier}
    (hm : (modelOf hW k).Inv m) : headerView k m = headerOrUnset k (viewOf W k m) := by
  cases k with
  | header | entry => rfl
  | message k =>
      cases k with
      | txACKPacket =>
          exact congrArg some (viewPtr_eq hW (s := m.slot TxACKPacket.schema .header) (hm .header))
      | bytesMessage =>
          exact congrArg some
            (viewPtr_eq hW (s := m.slot BytesMessage.schema .header) (hm .header))
      | stringMessage =>
          exact congrArg some
            (viewPtr_eq hW (s := m.slot StringMessage.schema .header) (hm .header))
      | heartBeat | connMeta | connAuthAck | messageStoreAck | deliverAck => rfl

/-- What has its default while it is not set: the field as it is kept, against what was set. -/
theorem some_value_eq {α : Type} {s : Slot α} {d : α} (h : s.has = false → s.value = d) :
    some s.value = some ((if s.has then some s.value else none).getD d) := by
  obtain ⟨has, v⟩ := s
  cases has with
  | true => rfl
  | false => exact congrArg some (h rfl)

theorem Entry.getters_eq_withDefaults (hW : W.Lawful) {m : (Entry.messageClass W).Carrier}
    (hm : (Entry.model hW).Inv m) : Entry.getters m = (Entry.view m).withDefaults :=
  (Entry.mk.injEq ..).mpr ⟨some_value_eq (hm .key), some_value_eq (hm .value)⟩

theorem Header.getters_eq_withDefaults (hW : W.Lawful) {m : (Header.messageClass W).Carrier}
    (hm : (Header.model hW).Inv m) : Header.getters m = (Header.view m).withDefaults := by
  have hproperties : List.map Entry.getters (m.value .properties) =
      (List.map Entry.view (m.value .properties)).map Kiteq.Entry.withDefaults := by
    rw [List.map_map]
    exact List.map_congr_left fun e he ↦
      Entry.getters_eq_withDefaults hW ((hm .properties).2 e he)
  exact (Header.mk.injEq ..).mpr ⟨some_value_eq (hm .messageId), some_value_eq (hm .topic),
    some_value_eq (hm .messageType), some_value_eq (hm .expiredTime),
    some_value_eq (hm .deliverLimit), some_value_eq (hm .groupId), some_value_eq (hm .commit),
    some_value_eq (hm .fly), hproperties, some_value_eq (hm .createTime)⟩

/-- Behind a pointer that is null there is the default instance. -/
theorem gettersPtr_eq (hW : W.Lawful) {s : Slot (Option (Header.messageClass W).Carrier)}
    (h : (FieldType.messageModel W (Header.model hW) hW).Valid s) :
    some (Header.gettersPtr s.value) =
      some (((if s.has then some s.value else none).map Header.viewPtr).getD
        .unset).withDefaults := by
  rw [← viewPtr_eq hW h]
  exact congrArg some (Header.getters_eq_withDefaults hW h.1)

example : Header.gettersPtr (W := ArrayStream.runtime) none =
    ⟨some [], some [], some [], some (-1), some 100, some [], some false, some false, [], some 0⟩ :=
  rfl

/-- **A getter returns what was set, or else the declared default.** -/
theorem getters_eq_withDefaults (hW : W.Lawful) {k : ClassKind} {m : (classOf W k).Carrier}
    (hm : (modelOf hW k).Inv m) : getters k m = withDefaults k (viewOf W k m) := by
  cases k with
  | header => exact Header.getters_eq_withDefaults hW hm
  | entry => exact Entry.getters_eq_withDefaults hW hm
  | message k =>
      cases k with
      | heartBeat =>
          exact congrArg (fun v ↦ MessageLite.heartBeat ⟨v⟩) (some_value_eq (hm .version))
      | connMeta =>
          exact congrArg MessageLite.connMeta ((ConnMeta.mk.injEq ..).mpr
            ⟨some_value_eq (hm .groupId), some_value_eq (hm .secretKey),
              some_value_eq (hm .warmingupSec)⟩)
      | connAuthAck =>
          exact congrArg MessageLite.connAuthAck ((ConnAuthAck.mk.injEq ..).mpr
            ⟨some_value_eq (hm .status), some_value_eq (hm .feedback)⟩)
      | messageStoreAck =>
          exact congrArg MessageLite.messageStoreAck ((MessageStoreAck.mk.injEq ..).mpr
            ⟨some_value_eq (hm .messageId), some_value_eq (hm .status),
              some_value_eq (hm .feedback)⟩)
      | deliverAck =>
          exact congrArg MessageLite.deliverAck ((DeliverAck.mk.injEq ..).mpr
            ⟨some_value_eq (hm .messageId), some_value_eq (hm .topic),
              some_value_eq (hm .messageType), some_value_eq (hm .groupId),
              some_value_eq (hm .status), some_value_eq (hm .feedback)⟩)
      | txACKPacket =>
          exact congrArg MessageLite.txACKPacket ((TxACKPacket.mk.injEq ..).mpr
            ⟨gettersPtr_eq hW (hm .header), some_value_eq (hm .status),
              some_value_eq (hm .feedback)⟩)
      | bytesMessage =>
          exact congrArg MessageLite.bytesMessage ((BytesMessage.mk.injEq ..).mpr
            ⟨gettersPtr_eq hW (hm .header), some_value_eq (hm .body)⟩)
      | stringMessage =>
          exact congrArg MessageLite.stringMessage ((StringMessage.mk.injEq ..).mpr
            ⟨gettersPtr_eq hW (hm .header), some_value_eq (hm .body)⟩)

/-- A getter of any object returns what was set, or else the declared default, and so do the
getters of the headers and entries in it; and what was set of the header that `header()` returns is
what was set in the object. -/
theorem getters_of_reachable (hW : W.Lawful) {k : ClassKind} {m : (classOf W k).Carrier}
    (h : Reachable k m) : getters k m = withDefaults k (viewOf W k m) ∧
      headerView k m = headerOrUnset k (viewOf W k m) :=
  ⟨getters_eq_withDefaults hW (inv_of_reachable hW h), headerView_eq hW (inv_of_reachable hW h)⟩

/-- A message into which half a header was parsed. -/
def halfRead : (classOf ArrayStream.runtime (.message .bytesMessage)).Carrier :=
  ((classOf ArrayStream.runtime (.message .bytesMessage)).mergePartial recursionLimit
    (classOf ArrayStream.runtime (.message .bytesMessage)).new [10, 5, 10, 1, 65, 18, 7]).1

theorem reachable_halfRead : Reachable (.message .bytesMessage) halfRead := .mergePartial _ _ .new

theorem getters_of_reachable_halfRead :
    getters (.message .bytesMessage) halfRead = withDefaults (.message .bytesMessage)
      (viewOf ArrayStream.runtime (.message .bytesMessage) halfRead) :=
  (getters_of_reachable ArrayStream.lawful_runtime reachable_halfRead).1

/-- **No header that is set is null.** `IsInitialized`, `ByteSize` and
`SerializeWithCachedSizes` go through the pointer without a test. -/
theorem nullHeader_of_reachable (hW : W.Lawful) {k : ClassKind}
    {m : (classOf W k).Carrier} (h : Reachable k m) : nullHeader k m = false := by
  have hm := inv_of_reachable hW h
  have hheader {s : Slot (Option (Header.messageClass W).Carrier)}
      (hs : (FieldType.messageModel W (Header.model hW) hW).Valid s) :
      (s.has && s.value.isNone) = false := by
    obtain ⟨has, o⟩ := s
    cases has with
    | false => rfl
    | true =>
        have hsome : o.isSome = true := hs.2
        rw [Bool.true_and, Option.isNone_eq_false_iff, hsome]
  cases k with
  | header | entry => rfl
  | message k =>
      cases k with
      | txACKPacket => exact hheader (hm .header)
      | bytesMessage => exact hheader (hm .header)
      | stringMessage => exact hheader (hm .header)
      | heartBeat | connMeta | connAuthAck | messageStoreAck | deliverAck => rfl

theorem nullHeader_of_reachable_halfRead : nullHeader (.message .bytesMessage) halfRead = false :=
  nullHeader_of_reachable ArrayStream.lawful_runtime reachable_halfRead

/-! ## Objects of the same content -/

section

variable {k : ClassKind} {m m' : (classOf W k).Carrier}

theorem alike_of_content (hW : W.Lawful) (hm : (modelOf hW k).Inv m) (hm' : (modelOf hW k).Inv m')
    (h : (modelOf hW k).content m = (modelOf hW k).content m') : Alike m m' := by
  have hview := viewOf_congr hm hm' h
  have hserialize := (modelOf hW k).serialize_congr hm hm' h
  exact {
    view_eq := hview
    headerView_eq := by rw [headerView_eq hW hm, headerView_eq hW hm', hview]
    getters_eq := by rw [getters_eq_withDefaults hW hm, getters_eq_withDefaults hW hm', hview]
    serialize_eq := hserialize
    byteSize_eq := by
      rw [(modelOf hW k).byteSize_eq hm, (modelOf hW k).byteSize_eq hm', hserialize] }

/-- **Parsing is merging.** Whether an object can be parsed does not depend on what the bytes are
parsed into, and to parse into an object is to parse into a new one and merge. -/
theorem alike_mergePartial (hW : W.Lawful) (h : Reachable k m) (b : ℕ) (bs : Octets) :
    ((classOf W k).mergePartial b m bs).2 =
        ((classOf W k).mergePartial b (classOf W k).new bs).2 ∧
      (((classOf W k).mergePartial b m bs).2 = true →
        Alike ((classOf W k).mergePartial b m bs).1 ((classOf W k).mergeFrom m
          ((classOf W k).mergePartial b (classOf W k).new bs).1)) := by
  have hm := inv_of_reachable hW h
  have hnew := (modelOf hW k).inv_mergePartial b bs (modelOf hW k).inv_new
  refine ⟨(modelOf hW k).mergePartial_snd b _ _ bs, fun hok ↦ ?_⟩
  exact alike_of_content hW ((modelOf hW k).inv_mergePartial b bs hm)
    ((modelOf hW k).inv_mergeFrom hm hnew) ((modelOf hW k).content_mergePartial_eq_mergeFrom hm hok)

theorem alike_mergePartial_halfRead :
    Alike ((classOf ArrayStream.runtime (.message .bytesMessage)).mergePartial recursionLimit
        halfRead [18, 1, 66]).1
      ((classOf ArrayStream.runtime (.message .bytesMessage)).mergeFrom halfRead
        ((classOf ArrayStream.runtime (.message .bytesMessage)).mergePartial recursionLimit
          (classOf ArrayStream.runtime (.message .bytesMessage)).new [18, 1, 66]).1) :=
  (alike_mergePartial ArrayStream.lawful_runtime reachable_halfRead recursionLimit [18, 1, 66]).2
    (by decide +kernel)

/-- **A used object is as good as a new one**, once it is cleared: parsing into it and copying to
it give what they give with a new object. -/
theorem alike_clear (hW : W.Lawful) (h : Reachable k m) :
    Alike ((classOf W k).clear m) (classOf W k).new ∧
      (∀ b bs, ((classOf W k).mergePartial b ((classOf W k).clear m) bs).2 = true →
        Alike ((classOf W k).mergePartial b ((classOf W k).clear m) bs).1
          ((classOf W k).mergePartial b (classOf W k).new bs).1) ∧
      ∀ m', Reachable k m' →
        Alike ((classOf W k).mergeFrom ((classOf W k).clear m) m') m' := by
  have hm := inv_of_reachable hW h
  have hclear := (modelOf hW k).inv_clear hm
  refine ⟨?_, fun b bs hok ↦ ?_, fun m' h' ↦ ?_⟩
  · refine alike_of_content hW hclear (modelOf hW k).inv_new ?_
    rw [(modelOf hW k).content_clear hm, (modelOf hW k).content_new]
  · exact alike_of_content hW ((modelOf hW k).inv_mergePartial b bs hclear)
      ((modelOf hW k).inv_mergePartial b bs (modelOf hW k).inv_new)
      ((modelOf hW k).content_mergePartial_clear hm hok)
  · have hm' := inv_of_reachable hW h'
    exact alike_of_content hW ((modelOf hW k).inv_mergeFrom hclear hm') hm'
      ((modelOf hW k).content_copyFrom hm hm')

theorem alike_clear_halfRead :
    Alike ((classOf ArrayStream.runtime (.message .bytesMessage)).clear halfRead)
      (classOf ArrayStream.runtime (.message .bytesMessage)).new :=
  (alike_clear ArrayStream.lawful_runtime reachable_halfRead).1

/-- **`ByteSize` is exact**, as far as an `int` goes, with all required fields set and without. -/
theorem byteSize_of_reachable (hW : W.Lawful) (h : Reachable k m) :
    (classOf W k).byteSize m = BitVec.ofNat 32 ((classOf W k).serialize m).length :=
  (modelOf hW k).byteSize_eq (inv_of_reachable hW h)

theorem byteSize_of_reachable_halfRead :
    (classOf ArrayStream.runtime (.message .bytesMessage)).byteSize halfRead =
      BitVec.ofNat 32
        ((classOf ArrayStream.runtime (.message .bytesMessage)).serialize halfRead).length :=
  byteSize_of_reachable ArrayStream.lawful_runtime reachable_halfRead

/-- **What was accepted is stable.** Whatever bytes the parser has accepted, the object writes
bytes that are accepted too, and that are parsed to an object like it. -/
theorem alike_serialize (hW : W.Lawful) {b : ℕ} {bs : Octets}
    (h : ((classOf W k).mergePartial b (classOf W k).new bs) = (m, true))
    (hlen : ((classOf W k).serialize m).length < 2 ^ 31) :
    ((classOf W k).mergePartial b (classOf W k).new ((classOf W k).serialize m)).2 =
        true ∧
      Alike ((classOf W k).mergePartial b (classOf W k).new
        ((classOf W k).serialize m)).1 m := by
  have hm : m = ((classOf W k).mergePartial b (classOf W k).new bs).1 := by rw [h]
  have hok : ((classOf W k).mergePartial b (classOf W k).new bs).2 = true := by rw [h]
  subst hm
  have hinv := (modelOf hW k).inv_mergePartial b bs (modelOf hW k).inv_new
  obtain ⟨hok', hcontent⟩ := (modelOf hW k).mergePartial_serialize_mergePartial hok hlen
  exact ⟨hok', alike_of_content hW ((modelOf hW k).inv_mergePartial b _ (modelOf hW k).inv_new) hinv
    hcontent⟩

/-- Fields out of order, one of them twice and one that nobody knows. -/
theorem alike_serialize_unordered :
    ∃ m, (classOf ArrayStream.runtime (.message .connMeta)).mergePartial recursionLimit
        (classOf ArrayStream.runtime (.message .connMeta)).new
          [18, 1, 65, 40, 7, 10, 0, 18, 1, 66] = (m, true) ∧
      Alike ((classOf ArrayStream.runtime (.message .connMeta)).mergePartial recursionLimit
        (classOf ArrayStream.runtime (.message .connMeta)).new
        ((classOf ArrayStream.runtime (.message .connMeta)).serialize m)).1 m :=
  have hparsed : (classOf ArrayStream.runtime (.message .connMeta)).mergePartial recursionLimit
      (classOf ArrayStream.runtime (.message .connMeta)).new [18, 1, 65, 40, 7, 10, 0, 18, 1, 66] =
        (_, true) := Prod.ext rfl (by decide +kernel)
  ⟨_, hparsed, (alike_serialize ArrayStream.lawful_runtime hparsed (by decide +kernel)).2⟩

/-- **Concatenation is merging.** Messages that were parsed from bytes are written one behind the
other; into any object these bytes are parsed as if the messages were merged one by one. -/
theorem alike_flatMap_serialize (hW : W.Lawful) (h : Reachable k m) {b : ℕ}
    {ms : List (classOf W k).Carrier}
    (hms : ∀ n ∈ ms, ((classOf W k).serialize n).length < 2 ^ 31 ∧
      ∃ bs, (classOf W k).mergePartial b (classOf W k).new bs = (n, true)) :
    ((classOf W k).mergePartial b m (ms.flatMap (classOf W k).serialize)).2 = true ∧
      Alike ((classOf W k).mergePartial b m (ms.flatMap (classOf W k).serialize)).1
        (ms.foldl (classOf W k).mergeFrom m) := by
  have hm := inv_of_reachable hW h
  have hparsed : ∀ n ∈ ms, (modelOf hW k).Inv n ∧ (modelOf hW k).content n ∈ (modelOf hW k).Fits b ∧
      ((classOf W k).serialize n).length < 2 ^ 31 := by
    intro n hn
    obtain ⟨hlen, bs, hbs⟩ := hms n hn
    have hinv := (modelOf hW k).inv_mergePartial b bs (modelOf hW k).inv_new
    have hfits := (modelOf hW k).fits_mergePartial (congrArg Prod.snd hbs)
    rw [hbs] at hinv hfits
    exact ⟨hinv, hfits, hlen⟩
  obtain ⟨hok, hcontent⟩ := (modelOf hW k).mergePartial_flatMap_serialize hm hparsed
  exact ⟨hok, alike_of_content hW ((modelOf hW k).inv_mergePartial b _ hm)
    ((modelOf hW k).inv_foldl_mergeFrom hm fun n hn ↦ (hparsed n hn).1) hcontent⟩

end

/-- The heartbeat that was parsed from a version. -/
def heartBeatOf (version : BitVec 8) :
    (classOf ArrayStream.runtime (.message .heartBeat)).Carrier :=
  ((classOf ArrayStream.runtime (.message .heartBeat)).mergePartial recursionLimit
    (classOf ArrayStream.runtime (.message .heartBeat)).new [8, version]).1

theorem alike_flatMap_serialize_heartBeats :
    Alike ((classOf ArrayStream.runtime (.message .heartBeat)).mergePartial recursionLimit
        (classOf ArrayStream.runtime (.message .heartBeat)).new
        ([heartBeatOf 1, heartBeatOf 2].flatMap
          (classOf ArrayStream.runtime (.message .heartBeat)).serialize)).1
      ([heartBeatOf 1, heartBeatOf 2].foldl
        (classOf ArrayStream.runtime (.message .heartBeat)).mergeFrom
        (classOf ArrayStream.runtime (.message .heartBeat)).new) := by
  refine (alike_flatMap_serialize ArrayStream.lawful_runtime (k := .message .heartBeat) .new ?_).2
  intro n hn
  simp only [List.mem_cons, List.not_mem_nil, or_false] at hn
  obtain rfl | rfl := hn
  · exact ⟨by decide +kernel, [8, 1], Prod.ext rfl (by decide +kernel)⟩
  · exact ⟨by decide +kernel, [8, 2], Prod.ext rfl (by decide +kernel)⟩

end Kiteq.Generated

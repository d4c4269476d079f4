import Kiteq.Lib.ArrayStream
import Kiteq.Protocol.Generated

/-!
# The generated classes as a protobuf runtime

The records of `Kiteq.Protocol.Message` are what the accessors of the generated classes show of
their objects.  `generated` is the `Protobuf` of the generated classes: an object is filled in from
its record, measured and serialized, and a new object is parsed and shown as a record.
-/

namespace Kiteq.Generated

open Lib

/-! ## Records -/

section Flat

variable (W : WireFormat)

namespace HeartBeat

def toFields (r : Kiteq.HeartBeat) : ∀ f, Option (types W f).Value
  | .version => r.version

def ofFields {W : WireFormat} (g : ∀ f, Option (types W f).Value) : Kiteq.HeartBeat :=
  ⟨g .version⟩

end HeartBeat

namespace ConnMeta

def toFields (r : Kiteq.ConnMeta) : ∀ f, Option (types W f).Value
  | .groupId => r.groupId
  | .secretKey => r.secretKey
  | .warmingupSec => r.warmingupSec

def ofFields {W : WireFormat} (g : ∀ f, Option (types W f).Value) : Kiteq.ConnMeta :=
  ⟨g .groupId, g .secretKey, g .warmingupSec⟩

end ConnMeta

namespace ConnAuthAck

def toFields (r : Kiteq.ConnAuthAck) : ∀ f, Option (types W f).Value
  | .status => r.status
  | .feedback => r.feedback

def ofFields {W : WireFormat} (g : ∀ f, Option (types W f).Value) : Kiteq.ConnAuthAck :=
  ⟨g .status, g .feedback⟩

end ConnAuthAck

namespace MessageStoreAck

def toFields (r : Kiteq.MessageStoreAck) : ∀ f, Option (types W f).Value
  | .messageId => r.messageId
  | .status => r.status
  | .feedback => r.feedback

def ofFields {W : WireFormat} (g : ∀ f, Option (types W f).Value) : Kiteq.MessageStoreAck :=
  ⟨g .messageId, g .status, g .feedback⟩

end MessageStoreAck

namespace DeliverAck

def toFields (r : Kiteq.DeliverAck) : ∀ f, Option (types W f).Value
  | .messageId => r.messageId
  | .topic => r.topic
  | .messageType => r.messageType
  | .groupId => r.groupId
  | .status => r.status
  | .feedback => r.feedback

def ofFields {W : WireFormat} (g : ∀ f, Option (types W f).Value) : Kiteq.DeliverAck :=
  ⟨g .messageId, g .topic, g .messageType, g .groupId, g .status, g .feedback⟩

end DeliverAck

namespace Entry

def toFields (r : Kiteq.Entry) : ∀ f, Option (types W f).Value
  | .key => r.key
  | .value => r.value

def ofFields {W : WireFormat} (g : ∀ f, Option (types W f).Value) : Kiteq.Entry :=
  ⟨g .key, g .value⟩

def ofRecord (r : Kiteq.Entry) : (messageClass W).Carrier :=
  schema.ofFields W.Unknown (toFields W r)

def view {W : WireFormat} (m : (messageClass W).Carrier) : Kiteq.Entry :=
  ofFields (m.get schema)

end Entry

end Flat

section Nested

variable (W : WireFormat)

namespace Header

def toFields (r : Kiteq.Header) : ∀ f, Option (types W (Entry.messageClass W) f).Value
  | .messageId => r.messageId
  | .topic => r.topic
  | .messageType => r.messageType
  | .expiredTime => r.expiredTime
  | .deliverLimit => r.deliverLimit
  | .groupId => r.groupId
  | .commit => r.commit
  | .fly => r.fly
  | .properties => some (r.properties.map (Entry.ofRecord W))
  | .createTime => r.createTime

def ofFields {W : WireFormat} (g : ∀ f, Option (types W (Entry.messageClass W) f).Value) :
    Kiteq.Header where
  messageId := g .messageId
  topic := g .topic
  messageType := g .messageType
  expiredTime := g .expiredTime
  deliverLimit := g .deliverLimit
  groupId := g .groupId
  commit := g .commit
  fly := g .fly
  properties := ((g .properties).getD []).map Entry.view
  createTime := g .createTime

def ofRecord (r : Kiteq.Header) : (messageClass W).Carrier :=
  schema.ofFields W.Unknown (toFields W r)

def view {W : WireFormat} (m : (messageClass W).Carrier) : Kiteq.Header :=
  ofFields (m.get schema)

/-- What a header pointer shows, the default instance if it is null. -/
def viewPtr {W : WireFormat} (o : Option (messageClass W).Carrier) : Kiteq.Header :=
  view (o.getD (messageClass W).new)

end Header

namespace TxACKPacket

def toFields (r : Kiteq.TxACKPacket) : ∀ f, Option (types W (Header.messageClass W) f).Value
  | .header => r.header.map fun h ↦ some (Header.ofRecord W h)
  | .status => r.status
  | .feedback => r.feedback

def ofFields {W : WireFormat} (g : ∀ f, Option (types W (Header.messageClass W) f).Value) :
    Kiteq.TxACKPacket :=
  ⟨(g .header).map Header.viewPtr, g .status, g .feedback⟩

end TxACKPacket

namespace BytesMessage

def toFields (r : Kiteq.BytesMessage) : ∀ f, Option (types W (Header.messageClass W) f).Value
  | .header => r.header.map fun h ↦ some (Header.ofRecord W h)
  | .body => r.body

def ofFields {W : WireFormat} (g : ∀ f, Option (types W (Header.messageClass W) f).Value) :
    Kiteq.BytesMessage :=
  ⟨(g .header).map Header.viewPtr, g .body⟩

end BytesMessage

namespace StringMessage

def toFields (r : Kiteq.StringMessage) : ∀ f, Option (types W (Header.messageClass W) f).Value
  | .header => r.header.map fun h ↦ some (Header.ofRecord W h)
  | .body => r.body

def ofFields {W : WireFormat} (g : ∀ f, Option (types W (Header.messageClass W) f).Value) :
    Kiteq.StringMessage :=
  ⟨(g .header).map Header.viewPtr, g .body⟩

end StringMessage

end Nested

/-! ## The runtime -/

section

variable (W : WireFormat)

/-- The class of the objects of a kind. -/
abbrev messageClass : MessageKind → MessageClass
  | .heartBeat => HeartBeat.messageClass W
  | .connMeta => ConnMeta.messageClass W
  | .connAuthAck => ConnAuthAck.messageClass W
  | .messageStoreAck => MessageStoreAck.messageClass W
  | .deliverAck => DeliverAck.messageClass W
  | .txACKPacket => TxACKPacket.messageClass W
  | .bytesMessage => BytesMessage.messageClass W
  | .stringMessage => StringMessage.messageClass W

/-- The object with the fields of a record. -/
def ofMessage : (m : MessageLite) → (messageClass W m.kind).Carrier
  | .heartBeat r => HeartBeat.schema.ofFields W.Unknown (HeartBeat.toFields W r)
  | .connMeta r => ConnMeta.schema.ofFields W.Unknown (ConnMeta.toFields W r)
  | .connAuthAck r => ConnAuthAck.schema.ofFields W.Unknown (ConnAuthAck.toFields W r)
  | .messageStoreAck r =>
    MessageStoreAck.schema.ofFields W.Unknown (MessageStoreAck.toFields W r)
  | .deliverAck r => DeliverAck.schema.ofFields W.Unknown (DeliverAck.toFields W r)
  | .txACKPacket r => TxACKPacket.schema.ofFields W.Unknown (TxACKPacket.toFields W r)
  | .bytesMessage r => BytesMessage.schema.ofFields W.Unknown (BytesMessage.toFields W r)
  | .stringMessage r => StringMessage.schema.ofFields W.Unknown (StringMessage.toFields W r)

/-- What the accessors show of an object. -/
def view : (k : MessageKind) → (messageClass W k).Carrier → MessageLite
  | .heartBeat, m => .heartBeat (HeartBeat.ofFields (m.get HeartBeat.schema))
  | .connMeta, m => .connMeta (ConnMeta.ofFields (m.get ConnMeta.schema))
  | .connAuthAck, m => .connAuthAck (ConnAuthAck.ofFields (m.get ConnAuthAck.schema))
  | .messageStoreAck, m =>
    .messageStoreAck (MessageStoreAck.ofFields (m.get MessageStoreAck.schema))
  | .deliverAck, m => .deliverAck (DeliverAck.ofFields (m.get DeliverAck.schema))
  | .txACKPacket, m => .txACKPacket (TxACKPacket.ofFields (m.get TxACKPacket.schema))
  | .bytesMessage, m => .bytesMessage (BytesMessage.ofFields (m.get BytesMessage.schema))
  | .stringMessage, m => .stringMessage (StringMessage.ofFields (m.get StringMessage.schema))

theorem kind_view (k : MessageKind) (m : (messageClass W k).Carrier) :
    (view W k m).kind = k := by
  cases k <;> rfl

/-- The generated classes: those of packet bodies, and those that occur in them only. -/
inductive ClassKind where
  | message (k : MessageKind)
  | header
  | entry
deriving DecidableEq, Repr

abbrev classOf : ClassKind → MessageClass
  | .message k => messageClass W k
  | .header => Header.messageClass W
  | .entry => Entry.messageClass W

/-- The records of a class. -/
abbrev Shown : ClassKind → Type
  | .message _ => MessageLite
  | .header => Kiteq.Header
  | .entry => Kiteq.Entry

/-- What the accessors show of an object of any class. -/
def viewOf : (k : ClassKind) → (classOf W k).Carrier → Shown k
  | .message k, m => view W k m
  | .header, m => Header.view m
  | .entry, m => Entry.view m

/-- `ParseFromArray` allows a hundred levels of nesting. -/
def recursionLimit : ℕ := 100

/-- The generated classes over a runtime. -/
def generated : Protobuf where
  byteSize m := (messageClass W m.kind).byteSize (ofMessage W m)
  serialize m := (messageClass W m.kind).serialize (ofMessage W m)
  parseFromArray k p n :=
    let r := (messageClass W k).mergePartial recursionLimit (messageClass W k).new
      (p.slice 0 n.toInt.toNat)
    (r.2 && (messageClass W k).isInitialized r.1, view W k r.1)
  kind_parseFromArray k _ _ := kind_view W k _

end

/-! ## Laws of records -/

variable {W : WireFormat}

namespace Entry

theorem view_ofRecord (r : Kiteq.Entry) : view (ofRecord W r) = r := by
  rw [view, ofRecord, Schema.get_ofFields_eq wellFormed (by rintro (_ | _) h <;> cases h)]
  rfl

theorem inv_ofRecord (hW : W.Lawful) (r : Kiteq.Entry) :
    schema.Inv (models hW) (ofRecord W r) :=
  Schema.inv_ofFields wellFormed (by rintro (_ | _) v _ <;> exact nofun)

theorem fits_ofRecord (hW : W.Lawful) (b : ℕ) (r : Kiteq.Entry) :
    schema.content (models hW) (ofRecord W r) ∈ schema.Fits W (models hW) b :=
  Schema.fits_ofFields wellFormed (by rintro (_ | _) v _ <;> exact Submonoid.mem_top _)

theorem view_congr {hW : W.Lawful} {m m' : (messageClass W).Carrier}
    (hm : schema.Inv (models hW) m) (hm' : schema.Inv (models hW) m')
    (h : schema.content (models hW) m = schema.content (models hW) m') : view m = view m' := by
  have hget : m.get schema = m'.get schema := funext fun f ↦
    Schema.get_congr hm hm' h (by cases f <;> exact stringModel_injective hW [])
  rw [view, view, hget]

theorem isInitialized_ofFields (g : ∀ f, Option (types W f).Value) :
    (ofFields g).isInitialized = schema.complete g := by
  simp [ofFields, Kiteq.Entry.isInitialized, Schema.complete, schema]

theorem isInitialized_view (m : (messageClass W).Carrier) :
    (view m).isInitialized = (messageClass W).isInitialized m :=
  (isInitialized_ofFields _).trans (Schema.isInitialized_eq wellFormed m).symm

end Entry

namespace Header

theorem isSome_toFields (r : Kiteq.Header) (f : Field) (h : (schema.row f).repeated = true) :
    (toFields W r f).isSome = true := by
  cases f <;> first | rfl | cases h

theorem view_ofRecord (r : Kiteq.Header) : view (ofRecord W r) = r := by
  rw [view, ofRecord, Schema.get_ofFields_eq wellFormed (isSome_toFields r)]
  simp [ofFields, toFields, Function.comp_def, Entry.view_ofRecord]

theorem inv_ofRecord (hW : W.Lawful) (r : Kiteq.Header) :
    schema.Inv (models hW) (ofRecord W r) := by
  refine Schema.inv_ofFields wellFormed fun f v hv ↦ ?_
  cases f
  case properties =>
    obtain rfl := Option.mem_some.mp hv
    refine ⟨rfl, fun m hm ↦ ?_⟩
    obtain ⟨e, -, rfl⟩ := List.mem_map.mp hm
    exact Entry.inv_ofRecord hW e
  all_goals exact nofun

theorem fits_ofRecord (hW : W.Lawful) (b : ℕ) (r : Kiteq.Header) :
    schema.content (models hW) (ofRecord W r) ∈ schema.Fits W (models hW) (b + 1) := by
  refine Schema.fits_ofFields wellFormed fun f v hv ↦ ?_
  cases f
  case properties =>
    obtain rfl := Option.mem_some.mp hv
    refine mem_everywhere.mpr fun c hc ↦ ?_
    obtain ⟨m, hm, rfl⟩ := List.mem_map.mp hc
    obtain ⟨e, -, rfl⟩ := List.mem_map.mp hm
    exact Entry.fits_ofRecord hW b e
  all_goals exact Submonoid.mem_top _

theorem view_congr {hW : W.Lawful} {m m' : (messageClass W).Carrier}
    (hm : schema.Inv (models hW) m) (hm' : schema.Inv (models hW) m')
    (h : schema.content (models hW) m = schema.content (models hW) m') : view m = view m' := by
  have hget {f : Field} (hinj : Function.Injective (models hW f).content) :
      m.get schema f = m'.get schema f := Schema.get_congr hm hm' h hinj
  have hproperties := Schema.map_get_congr hm hm' h .properties (φ := List.map Entry.view)
    fun hv hv' hc ↦ FieldType.map_congr_of_content (Entry.model hW) Entry.view_congr hv.2 hv'.2
      (congrArg FreeMonoid.toList hc)
  simp only [view, ofFields, Kiteq.Header.mk.injEq]
  refine ⟨hget (stringModel_injective hW []), hget (stringModel_injective hW []),
    hget (stringModel_injective hW []), hget (int64Model_injective hW (-1)),
    hget (int32Model_injective hW 100), hget (stringModel_injective hW []),
    hget (boolModel_injective hW false), hget (boolModel_injective hW false), ?_,
    hget (int64Model_injective hW 0)⟩
  have hgetD (o : Option (List (Entry.messageClass W).Carrier)) :
      (o.getD []).map Entry.view = (o.map (List.map Entry.view)).getD [] := by cases o <;> rfl
  exact (hgetD _).trans ((congrArg (Option.getD · []) hproperties).trans (hgetD _).symm)

theorem isInitialized_ofFields (g : ∀ f, Option (types W (Entry.messageClass W) f).Value) :
    (ofFields g).isInitialized = schema.complete g := by
  have hproperties : (((g .properties).getD []).map Entry.view).all Kiteq.Entry.isInitialized =
      (g .properties).all (types W (Entry.messageClass W) .properties).isInitialized := by
    cases g .properties <;> simp [Function.comp_def, Entry.isInitialized_view]
  simp [ofFields, Kiteq.Header.isInitialized, Schema.complete, schema, hproperties, Bool.and_assoc]

theorem isInitialized_view (m : (messageClass W).Carrier) :
    (view m).isInitialized = (messageClass W).isInitialized m :=
  (isInitialized_ofFields _).trans (Schema.isInitialized_eq wellFormed m).symm

end Header

/-! ## Laws of the messages -/

/-- The model of the class of a kind. -/
def model (hW : W.Lawful) : (k : MessageKind) → (messageClass W k).Model
  | .heartBeat => HeartBeat.model hW
  | .connMeta => ConnMeta.model hW
  | .connAuthAck => ConnAuthAck.model hW
  | .messageStoreAck => MessageStoreAck.model hW
  | .deliverAck => DeliverAck.model hW
  | .txACKPacket => TxACKPacket.model hW
  | .bytesMessage => BytesMessage.model hW
  | .stringMessage => StringMessage.model hW

/-- The model of any class. -/
def modelOf (hW : W.Lawful) : (k : ClassKind) → (classOf W k).Model
  | .message k => model hW k
  | .header => Header.model hW
  | .entry => Entry.model hW

/-- A header that was filled in is a submessage that may be set. -/
theorem valid_header (hW : W.Lawful) {o : Option Kiteq.Header}
    {v : Option (Header.messageClass W).Carrier}
    (hv : v ∈ o.map fun h ↦ some (Header.ofRecord W h)) :
    (FieldType.messageModel W (Header.model hW) hW).Valid ⟨true, v⟩ := by
  obtain ⟨h, -, rfl⟩ := Option.mem_map.mp hv
  exact ⟨Header.inv_ofRecord hW h, rfl⟩

/-- Two levels of nesting are enough for a header. -/
theorem fits_header (hW : W.Lawful) (b : ℕ) {o : Option Kiteq.Header}
    {v : Option (Header.messageClass W).Carrier}
    (hv : v ∈ o.map fun h ↦ some (Header.ofRecord W h)) :
    (FieldType.messageModel W (Header.model hW) hW).content v ∈
      (FieldType.messageModel W (Header.model hW) hW).Fits (b + 2) := by
  obtain ⟨h, -, rfl⟩ := Option.mem_map.mp hv
  exact coe_mem_optionally.mpr (Header.fits_ofRecord hW b h)

theorem map_viewPtr_ofRecord (o : Option Kiteq.Header) :
    (o.map fun h ↦ some (Header.ofRecord W h)).map Header.viewPtr = o := by
  cases o with
  | none => rfl
  | some h => exact congrArg some (Header.view_ofRecord h)

/-- **The accessors show what was filled in.** -/
theorem view_ofMessage (m : MessageLite) : view W m.kind (ofMessage W m) = m := by
  cases m with
  | heartBeat r =>
      exact congrArg (fun g ↦ MessageLite.heartBeat (HeartBeat.ofFields g))
        (Schema.get_ofFields_eq HeartBeat.wellFormed (by rintro ⟨⟩ h; cases h))
  | connMeta r =>
      exact congrArg (fun g ↦ MessageLite.connMeta (ConnMeta.ofFields g))
        (Schema.get_ofFields_eq ConnMeta.wellFormed (by rintro (_ | _) h <;> cases h))
  | connAuthAck r =>
      exact congrArg (fun g ↦ MessageLite.connAuthAck (ConnAuthAck.ofFields g))
        (Schema.get_ofFields_eq ConnAuthAck.wellFormed (by rintro (_ | _) h <;> cases h))
  | messageStoreAck r =>
      exact congrArg (fun g ↦ MessageLite.messageStoreAck (MessageStoreAck.ofFields g))
        (Schema.get_ofFields_eq MessageStoreAck.wellFormed (by rintro (_ | _) h <;> cases h))
  | deliverAck r =>
      exact congrArg (fun g ↦ MessageLite.deliverAck (DeliverAck.ofFields g))
        (Schema.get_ofFields_eq DeliverAck.wellFormed (by rintro (_ | _) h <;> cases h))
  | txACKPacket r =>
      refine (congrArg (fun g ↦ MessageLite.txACKPacket (TxACKPacket.ofFields g))
        (Schema.get_ofFields_eq TxACKPacket.wellFormed (by rintro (_ | _) h <;> cases h))).trans ?_
      simp [TxACKPacket.ofFields, TxACKPacket.toFields, -Option.map_map, map_viewPtr_ofRecord]
  | bytesMessage r =>
      refine (congrArg (fun g ↦ MessageLite.bytesMessage (BytesMessage.ofFields g))
        (Schema.get_ofFields_eq BytesMessage.wellFormed (by rintro (_ | _) h <;> cases h))).trans ?_
      simp [BytesMessage.ofFields, BytesMessage.toFields, -Option.map_map, map_viewPtr_ofRecord]
  | stringMessage r =>
      refine (congrArg (fun g ↦ MessageLite.stringMessage (StringMessage.ofFields g))
        (Schema.get_ofFields_eq StringMessage.wellFormed
          (by rintro (_ | _) h <;> cases h))).trans ?_
      simp [StringMessage.ofFields, StringMessage.toFields, -Option.map_map, map_viewPtr_ofRecord]

theorem inv_ofMessage (hW : W.Lawful) (m : MessageLite) :
    (model hW m.kind).Inv (ofMessage W m) := by
  cases m with
  | heartBeat r =>
      exact Schema.inv_ofFields HeartBeat.wellFormed fun f v _ ↦ by cases f; exact nofun
  | connMeta r =>
      exact Schema.inv_ofFields ConnMeta.wellFormed fun f v _ ↦ by cases f <;> exact nofun
  | connAuthAck r =>
      exact Schema.inv_ofFields ConnAuthAck.wellFormed fun f v _ ↦ by cases f <;> exact nofun
  | messageStoreAck r =>
      exact Schema.inv_ofFields MessageStoreAck.wellFormed fun f v _ ↦ by cases f <;> exact nofun
  | deliverAck r =>
      exact Schema.inv_ofFields DeliverAck.wellFormed fun f v _ ↦ by cases f <;> exact nofun
  | txACKPacket r =>
      refine Schema.inv_ofFields TxACKPacket.wellFormed fun f v hv ↦ ?_
      cases f with
      | header => exact valid_header hW hv
      | status | feedback => exact nofun
  | bytesMessage r =>
      refine Schema.inv_ofFields BytesMessage.wellFormed fun f v hv ↦ ?_
      cases f with
      | header => exact valid_header hW hv
      | body => exact nofun
  | stringMessage r =>
      refine Schema.inv_ofFields StringMessage.wellFormed fun f v hv ↦ ?_
      cases f with
      | header => exact valid_header hW hv
      | body => exact nofun

/-- Every record can be read within the recursion limit. -/
theorem fits_ofMessage (hW : W.Lawful) (b : ℕ) (m : MessageLite) :
    (model hW m.kind).content (ofMessage W m) ∈ (model hW m.kind).Fits (b + 2) := by
  cases m with
  | heartBeat r =>
      exact Schema.fits_ofFields HeartBeat.wellFormed fun f v _ ↦ by
        cases f; exact Submonoid.mem_top _
  | connMeta r =>
      exact Schema.fits_ofFields ConnMeta.wellFormed fun f v _ ↦ by
        cases f <;> exact Submonoid.mem_top _
  | connAuthAck r =>
      exact Schema.fits_ofFields ConnAuthAck.wellFormed fun f v _ ↦ by
        cases f <;> exact Submonoid.mem_top _
  | messageStoreAck r =>
      exact Schema.fits_ofFields MessageStoreAck.wellFormed fun f v _ ↦ by
        cases f <;> exact Submonoid.mem_top _
  | deliverAck r =>
      exact Schema.fits_ofFields DeliverAck.wellFormed fun f v _ ↦ by
        cases f <;> exact Submonoid.mem_top _
  | txACKPacket r =>
      refine Schema.fits_ofFields TxACKPacket.wellFormed fun f v hv ↦ ?_
      cases f with
      | header => exact fits_header hW b hv
      | status | feedback => exact Submonoid.mem_top _
  | bytesMessage r =>
      refine Schema.fits_ofFields BytesMessage.wellFormed fun f v hv ↦ ?_
      cases f with
      | header => exact fits_header hW b hv
      | body => exact Submonoid.mem_top _
  | stringMessage r =>
      refine Schema.fits_ofFields StringMessage.wellFormed fun f v hv ↦ ?_
      cases f with
      | header => exact fits_header hW b hv
      | body => exact Submonoid.mem_top _

/-- Header pointers with the same content show the same header. -/
theorem viewPtr_congr {hW : W.Lawful} {o o' : Option (Header.messageClass W).Carrier}
    (hm : (FieldType.messageModel W (Header.model hW) hW).Valid ⟨true, o⟩)
    (hm' : (FieldType.messageModel W (Header.model hW) hW).Valid ⟨true, o'⟩)
    (h : (FieldType.messageModel W (Header.model hW) hW).content o =
      (FieldType.messageModel W (Header.model hW) hW).content o') :
    Header.viewPtr o = Header.viewPtr o' :=
  Header.view_congr hm.1 hm'.1 (WithOne.coe_inj.mp h)

/-- The accessors of an object show its content. -/
theorem view_congr {hW : W.Lawful} {k : MessageKind} {m m' : (messageClass W k).Carrier}
    (hm : (model hW k).Inv m) (hm' : (model hW k).Inv m')
    (h : (model hW k).content m = (model hW k).content m') : view W k m = view W k m' := by
  cases k with
  | heartBeat =>
      exact congrArg (fun g ↦ MessageLite.heartBeat (HeartBeat.ofFields g)) (funext fun
        | .version => Schema.get_congr hm hm' h (int64Model_injective hW 0))
  | connMeta =>
      exact congrArg (fun g ↦ MessageLite.connMeta (ConnMeta.ofFields g)) (funext fun
        | .groupId | .secretKey => Schema.get_congr hm hm' h (stringModel_injective hW [])
        | .warmingupSec => Schema.get_congr hm hm' h (int32Model_injective hW 0))
  | connAuthAck =>
      exact congrArg (fun g ↦ MessageLite.connAuthAck (ConnAuthAck.ofFields g)) (funext fun
        | .status => Schema.get_congr hm hm' h (boolModel_injective hW true)
        | .feedback => Schema.get_congr hm hm' h (stringModel_injective hW []))
  | messageStoreAck =>
      exact congrArg (fun g ↦ MessageLite.messageStoreAck (MessageStoreAck.ofFields g)) (funext fun
        | .messageId | .feedback => Schema.get_congr hm hm' h (stringModel_injective hW [])
        | .status => Schema.get_congr hm hm' h (boolModel_injective hW true))
  | deliverAck =>
      exact congrArg (fun g ↦ MessageLite.deliverAck (DeliverAck.ofFields g)) (funext fun
        | .messageId | .topic | .messageType | .groupId | .feedback =>
          Schema.get_congr hm hm' h (stringModel_injective hW [])
        | .status => Schema.get_congr hm hm' h (boolModel_injective hW true))
  | txACKPacket =>
      have hheader := Schema.map_get_congr hm hm' h .header viewPtr_congr
      have hstatus := Schema.get_congr hm hm' h (f := .status) (int32Model_injective hW 0)
      have hfeedback := Schema.get_congr hm hm' h (f := .feedback) (stringModel_injective hW [])
      simp only [view, TxACKPacket.ofFields, hheader, hstatus, hfeedback]
  | bytesMessage =>
      have hheader := Schema.map_get_congr hm hm' h .header viewPtr_congr
      have hbody := Schema.get_congr hm hm' h (f := .body) (stringModel_injective hW [])
      simp only [view, BytesMessage.ofFields, hheader, hbody]
  | stringMessage =>
      have hheader := Schema.map_get_congr hm hm' h .header viewPtr_congr
      have hbody := Schema.get_congr hm hm' h (f := .body) (stringModel_injective hW [])
      simp only [view, StringMessage.ofFields, hheader, hbody]

theorem viewOf_congr {hW : W.Lawful} {k : ClassKind} {m m' : (classOf W k).Carrier}
    (hm : (modelOf hW k).Inv m) (hm' : (modelOf hW k).Inv m')
    (h : (modelOf hW k).content m = (modelOf hW k).content m') : viewOf W k m = viewOf W k m' := by
  cases k with
  | message k => exact view_congr hm hm' h
  | header => exact Header.view_congr hm hm' h
  | entry => exact Entry.view_congr hm hm' h

theorem any_map_viewPtr (o : Option (Option (Header.messageClass W).Carrier)) :
    (o.map Header.viewPtr).any Kiteq.Header.isInitialized =
      (o.isSome && o.all (FieldType.message W (Header.messageClass W)).isInitialized) := by
  cases o with
  | none => rfl
  | some v => exact Header.isInitialized_view _

/-- **`IsInitialized` is completeness of the record.** -/
theorem isInitialized_view (k : MessageKind) (m : (messageClass W k).Carrier) :
    (view W k m).isInitialized = (messageClass W k).isInitialized m := by
  cases k with
  | heartBeat =>
      refine Eq.trans ?_ (Schema.isInitialized_eq HeartBeat.wellFormed m).symm
      simp [view, HeartBeat.ofFields, MessageLite.isInitialized, Schema.complete, HeartBeat.schema]
  | connMeta =>
      refine Eq.trans ?_ (Schema.isInitialized_eq ConnMeta.wellFormed m).symm
      simp [view, ConnMeta.ofFields, MessageLite.isInitialized, Schema.complete, ConnMeta.schema]
  | connAuthAck =>
      refine Eq.trans ?_ (Schema.isInitialized_eq ConnAuthAck.wellFormed m).symm
      simp [view, ConnAuthAck.ofFields, MessageLite.isInitialized, Schema.complete,
        ConnAuthAck.schema]
  | messageStoreAck =>
      refine Eq.trans ?_ (Schema.isInitialized_eq MessageStoreAck.wellFormed m).symm
      simp [view, MessageStoreAck.ofFields, MessageLite.isInitialized, Schema.complete,
        MessageStoreAck.schema, Bool.and_assoc]
  | deliverAck =>
      refine Eq.trans ?_ (Schema.isInitialized_eq DeliverAck.wellFormed m).symm
      simp [view, DeliverAck.ofFields, MessageLite.isInitialized, Schema.complete,
        DeliverAck.schema, Bool.and_assoc]
  | txACKPacket =>
      refine Eq.trans ?_ (Schema.isInitialized_eq TxACKPacket.wellFormed m).symm
      simp [view, TxACKPacket.ofFields, MessageLite.isInitialized, Schema.complete,
        TxACKPacket.schema, any_map_viewPtr, Bool.and_assoc]
  | bytesMessage =>
      refine Eq.trans ?_ (Schema.isInitialized_eq BytesMessage.wellFormed m).symm
      simp [view, BytesMessage.ofFields, MessageLite.isInitialized, Schema.complete,
        BytesMessage.schema, any_map_viewPtr, Bool.and_assoc]
  | stringMessage =>
      refine Eq.trans ?_ (Schema.isInitialized_eq StringMessage.wellFormed m).symm
      simp [view, StringMessage.ofFields, MessageLite.isInitialized, Schema.complete,
        StringMessage.schema, any_map_viewPtr, Bool.and_assoc]

/-! ## The runtime does what the client relies on -/

theorem Entry.toClass_plain (hW : W.Lawful) :
    Entry.messageClass W = Entry.messageClass W.plain :=
  Schema.toClass_plain hW Entry.wellFormed

theorem Header.toClass_plain (hW : W.Lawful) :
    Header.messageClass W = Header.messageClass W.plain := by
  refine (Schema.toClass_plain hW Header.wellFormed).trans
    (congrArg (Header.schema.toClass · W.plain) ?_)
  rw [Entry.toClass_plain hW]
  funext f
  cases f <;> rfl

/-- **Looking ahead is an optimisation.** A class behaves as it would over a runtime in which
`ExpectTag` and `ExpectAtEnd` never see anything. -/
theorem classOf_plain (hW : W.Lawful) (k : ClassKind) : classOf W k = classOf W.plain k := by
  have hheader := Header.toClass_plain hW
  cases k with
  | entry => exact Entry.toClass_plain hW
  | header => exact hheader
  | message k =>
      cases k with
      | heartBeat => exact Schema.toClass_plain hW HeartBeat.wellFormed
      | connMeta => exact Schema.toClass_plain hW ConnMeta.wellFormed
      | connAuthAck => exact Schema.toClass_plain hW ConnAuthAck.wellFormed
      | messageStoreAck => exact Schema.toClass_plain hW MessageStoreAck.wellFormed
      | deliverAck => exact Schema.toClass_plain hW DeliverAck.wellFormed
      | txACKPacket =>
          exact (Schema.toClass_plain hW TxACKPacket.wellFormed).trans
            (congrArg (TxACKPacket.schema.toClass · W.plain)
              (by rw [hheader]; funext f; cases f <;> rfl))
      | bytesMessage =>
          exact (Schema.toClass_plain hW BytesMessage.wellFormed).trans
            (congrArg (BytesMessage.schema.toClass · W.plain)
              (by rw [hheader]; funext f; cases f <;> rfl))
      | stringMessage =>
          exact (Schema.toClass_plain hW StringMessage.wellFormed).trans
            (congrArg (StringMessage.schema.toClass · W.plain)
              (by rw [hheader]; funext f; cases f <;> rfl))

theorem classOf_plain_array :
    classOf ArrayStream.runtime (.message .bytesMessage) =
      classOf ArrayStream.runtime.plain (.message .bytesMessage) :=
  classOf_plain ArrayStream.lawful_runtime (.message .bytesMessage)

/-- **The generated classes carry every complete message** whose size an `int` can hold. -/
theorem encodes_generated (hW : W.Lawful) {m : MessageLite} (h : m.isInitialized)
    (hlen : ((generated W).serialize m).length < 2 ^ 31) : (generated W).Encodes m := by
  have hinv := inv_ofMessage hW m
  have hsize : ((generated W).byteSize m).toInt = ((generated W).serialize m).length := by
    have hbyteSize := (model hW m.kind).byteSize_eq hinv
    simp only [generated] at hlen ⊢
    rw [hbyteSize, toInt_ofNat_of_lt hlen]
  refine ⟨h, hsize, fun p hp ↦ ?_⟩
  have hslice : p.slice 0 ((generated W).byteSize m).toInt.toNat = (generated W).serialize m := by
    rw [hsize]
    exact hp.slice_zero
  obtain ⟨hok, hcontent⟩ := (model hW m.kind).mergePartial_serialize (b := recursionLimit) hinv
    (fits_ofMessage hW 98 m) hlen
  have hinv' := (model hW m.kind).inv_mergePartial recursionLimit ((generated W).serialize m)
    (model hW m.kind).inv_new
  have hview : view W m.kind _ = m :=
    (view_congr hinv' hinv hcontent).trans (view_ofMessage m)
  have hinit := (isInitialized_view m.kind _).symm.trans ((congrArg _ hview).trans h)
  change (_ && _, view W m.kind _) = _
  rw [hslice]
  exact Prod.ext (by rw [hinit, Bool.and_true]; exact hok) hview

/-- A message with all fields but the creation time. -/
def sample : MessageLite :=
  .bytesMessage ⟨some ⟨some [65], some [66], some [67], some (-1), some 3, some [], some true,
    some false, [⟨some [1], some [2]⟩, ⟨some [], some [3]⟩], none⟩, some [1, 2, 3]⟩

theorem encodes_generated_sample : (generated ArrayStream.runtime).Encodes sample :=
  encodes_generated ArrayStream.lawful_runtime (by decide) (by decide +kernel)

end Kiteq.Generated

import Kiteq.Lib.MessageLife
import Kiteq.Protocol.Message

/-!
# The generated message classes

The tables of `kite_remoting.pb.cc`: for every field its label, its number, its tag, its has-bit,
the masks behind which `Clear` and `MergeFrom` look at it, and the tag the parser expects behind it
with the field whose label it jumps to.  `GetNumber`s, getters and setters follow from the table.

All tables are well formed, so that every class has a model, for any runtime that does what is
documented of it.
-/

namespace Kiteq.Generated

open Lib

/-! ## Fields -/

section

variable {W : WireFormat}

def stringModel (d : Bytes) (hW : W.Lawful) : (FieldType.string W.string d).Model false :=
  FieldType.scalarModel true d hW.string fun h ↦ by cases h

def int64Model (d : CLong) (hW : W.Lawful) : (FieldType.primitive W.int64 d).Model false :=
  FieldType.scalarModel false d hW.int64 fun _ ↦ hW.atomic_int64

def int32Model (d : CInt) (hW : W.Lawful) : (FieldType.primitive W.int32 d).Model false :=
  FieldType.scalarModel false d hW.int32 fun _ ↦ hW.atomic_int32

def boolModel (d : Bool) (hW : W.Lawful) :
    (FieldType.primitive (W.bool.sized 1) d).Model false :=
  FieldType.scalarModel false d (hW.bool.sized fun v ↦ by rw [hW.length_bool]; rfl)
    fun _ ↦ hW.atomic_bool

variable (hW : W.Lawful)

theorem stringModel_injective (d : Bytes) : Function.Injective (stringModel d hW).content :=
  FieldType.scalarModel_injective _ _ _ _

theorem int64Model_injective (d : CLong) : Function.Injective (int64Model d hW).content :=
  FieldType.scalarModel_injective _ _ _ _

theorem int32Model_injective (d : CInt) : Function.Injective (int32Model d hW).content :=
  FieldType.scalarModel_injective _ _ _ _

theorem boolModel_injective (d : Bool) : Function.Injective (boolModel d hW).content :=
  FieldType.scalarModel_injective _ _ _ _

end

/-! ## Messages without submessages -/

namespace HeartBeat

inductive Field where
  | version
deriving DecidableEq

def schema : Schema Field where
  fields := [.version]
  row
    | .version => ⟨.required, 1, 8, 0x00000001, none, some 0xff, none⟩
  requiredMask := 0x00000001
  sizeMask := none

abbrev types (W : WireFormat) : Field → FieldType
  | .version => .primitive W.int64 0

theorem wellFormed : schema.WellFormed :=
  Schema.Checked.wellFormed (by decide +kernel) fun | .version => by decide

abbrev messageClass (W : WireFormat) : MessageClass := schema.toClass (types W) W

variable {W : WireFormat}

def models (hW : W.Lawful) : ∀ f, (types W f).Model (schema.row f).repeated
  | .version => int64Model 0 hW

def model (hW : W.Lawful) : (messageClass W).Model := schema.model (models hW) hW wellFormed

end HeartBeat

namespace ConnMeta

inductive Field where
  | groupId
  | secretKey
  | warmingupSec
deriving DecidableEq

def schema : Schema Field where
  fields := [.groupId, .secretKey, .warmingupSec]
  row
    | .groupId => ⟨.required, 1, 10, 0x00000001, some 7, some 0xff, some (18, .secretKey)⟩
    | .secretKey => ⟨.required, 2, 18, 0x00000002, some 7, some 0xff, some (24, .warmingupSec)⟩
    | .warmingupSec => ⟨.optional, 3, 24, 0x00000004, some 7, some 0xff, none⟩
  requiredMask := 0x00000003
  sizeMask := some 0x00000003

abbrev types (W : WireFormat) : Field → FieldType
  | .groupId => .string W.string []
  | .secretKey => .string W.string []
  | .warmingupSec => .primitive W.int32 0

theorem wellFormed : schema.WellFormed :=
  Schema.Checked.wellFormed (by decide +kernel) fun f ↦ by cases f <;> decide

abbrev messageClass (W : WireFormat) : MessageClass := schema.toClass (types W) W

variable {W : WireFormat}

def models (hW : W.Lawful) : ∀ f, (types W f).Model (schema.row f).repeated
  | .groupId => stringModel [] hW
  | .secretKey => stringModel [] hW
  | .warmingupSec => int32Model 0 hW

def model (hW : W.Lawful) : (messageClass W).Model := schema.model (models hW) hW wellFormed

end ConnMeta

namespace ConnAuthAck

inductive Field where
  | status
  | feedback
deriving DecidableEq

def schema : Schema Field where
  fields := [.status, .feedback]
  row
    | .status => ⟨.required, 1, 8, 0x00000001, some 3, some 0xff, some (18, .feedback)⟩
    | .feedback => ⟨.required, 2, 18, 0x00000002, some 3, some 0xff, none⟩
  requiredMask := 0x00000003
  sizeMask := some 0x00000003

abbrev types (W : WireFormat) : Field → FieldType
  | .status => .primitive (W.bool.sized 1) true
  | .feedback => .string W.string []

theorem wellFormed : schema.WellFormed :=
  Schema.Checked.wellFormed (by decide +kernel) fun f ↦ by cases f <;> decide

abbrev messageClass (W : WireFormat) : MessageClass := schema.toClass (types W) W

variable {W : WireFormat}

def models (hW : W.Lawful) : ∀ f, (types W f).Model (schema.row f).repeated
  | .status => boolModel true hW
  | .feedback => stringModel [] hW

def model (hW : W.Lawful) : (messageClass W).Model := schema.model (models hW) hW wellFormed

end ConnAuthAck

namespace MessageStoreAck

inductive Field where
  | messageId
  | status
  | feedback
deriving DecidableEq

def schema : Schema Field where
  fields := [.messageId, .status, .feedback]
  row
    | .messageId => ⟨.required, 1, 10, 0x00000001, some 7, some 0xff, some (16, .status)⟩
    | .status => ⟨.required, 2, 16, 0x00000002, some 7, some 0xff, some (26, .feedback)⟩
    | .feedback => ⟨.required, 3, 26, 0x00000004, some 7, some 0xff, none⟩
  requiredMask := 0x00000007
  sizeMask := some 0x00000007

abbrev types (W : WireFormat) : Field → FieldType
  | .messageId => .string W.string []
  | .status => .primitive (W.bool.sized 1) true
  | .feedback => .string W.string []

theorem wellFormed : schema.WellFormed :=
  Schema.Checked.wellFormed (by decide +kernel) fun f ↦ by cases f <;> decide

abbrev messageClass (W : WireFormat) : MessageClass := schema.toClass (types W) W

variable {W : WireFormat}

def models (hW : W.Lawful) : ∀ f, (types W f).Model (schema.row f).repeated
  | .messageId => stringModel [] hW
  | .status => boolModel true hW
  | .feedback => stringModel [] hW

def model (hW : W.Lawful) : (messageClass W).Model := schema.model (models hW) hW wellFormed

end MessageStoreAck

namespace DeliverAck

inductive Field where
  | messageId
  | topic
  | messageType
  | groupId
  | status
  | feedback
deriving DecidableEq

def schema : Schema Field where
  fields := [.messageId, .topic, .messageType, .groupId, .status, .feedback]
  row
    | .messageId => ⟨.required, 1, 10, 0x00000001, some 63, some 0xff, some (18, .topic)⟩
    | .topic => ⟨.required, 2, 18, 0x00000002, some 63, some 0xff, some (26, .messageType)⟩
    | .messageType => ⟨.required, 3, 26, 0x00000004, some 63, some 0xff, some (34, .groupId)⟩
    | .groupId => ⟨.required, 4, 34, 0x00000008, some 63, some 0xff, some (40, .status)⟩
    | .status => ⟨.required, 5, 40, 0x00000010, some 63, some 0xff, some (50, .feedback)⟩
    | .feedback => ⟨.optional, 6, 50, 0x00000020, some 63, some 0xff, none⟩
  requiredMask := 0x0000001f
  sizeMask := some 0x0000001f

abbrev types (W : WireFormat) : Field → FieldType
  | .messageId => .string W.string []
  | .topic => .string W.string []
  | .messageType => .string W.string []
  | .groupId => .string W.string []
  | .status => .primitive (W.bool.sized 1) true
  | .feedback => .string W.string []

theorem wellFormed : schema.WellFormed :=
  Schema.Checked.wellFormed (by decide +kernel) fun f ↦ by cases f <;> decide

abbrev messageClass (W : WireFormat) : MessageClass := schema.toClass (types W) W

variable {W : WireFormat}

def models (hW : W.Lawful) : ∀ f, (types W f).Model (schema.row f).repeated
  | .messageId => stringModel [] hW
  | .topic => stringModel [] hW
  | .messageType => stringModel [] hW
  | .groupId => stringModel [] hW
  | .status => boolModel true hW
  | .feedback => stringModel [] hW

def model (hW : W.Lawful) : (messageClass W).Model := schema.model (models hW) hW wellFormed

end DeliverAck

namespace Entry

inductive Field where
  | key
  | value
deriving DecidableEq

def schema : Schema Field where
  fields := [.key, .value]
  row
    | .key => ⟨.required, 1, 10, 0x00000001, some 3, some 0xff, some (18, .value)⟩
    | .value => ⟨.required, 2, 18, 0x00000002, some 3, some 0xff, none⟩
  requiredMask := 0x00000003
  sizeMask := some 0x00000003

abbrev types (W : WireFormat) : Field → FieldType
  | .key => .string W.string []
  | .value => .string W.string []

theorem wellFormed : schema.WellFormed :=
  Schema.Checked.wellFormed (by decide +kernel) fun f ↦ by cases f <;> decide

abbrev messageClass (W : WireFormat) : MessageClass := schema.toClass (types W) W

variable {W : WireFormat}

def models (hW : W.Lawful) : ∀ f, (types W f).Model (schema.row f).repeated
  | .key => stringModel [] hW
  | .value => stringModel [] hW

def model (hW : W.Lawful) : (messageClass W).Model := schema.model (models hW) hW wellFormed

end Entry

/-! ## Messages with submessages -/

namespace Header

inductive Field where
  | messageId
  | topic
  | messageType
  | expiredTime
  | deliverLimit
  | groupId
  | commit
  | fly
  | properties
  | createTime
deriving DecidableEq

def schema : Schema Field where
  fields := [.messageId, .topic, .messageType, .expiredTime, .deliverLimit, .groupId, .commit,
    .fly, .properties, .createTime]
  row
    | .messageId => ⟨.required, 1, 10, 0x00000001, some 255, some 0xff, some (18, .topic)⟩
    | .topic => ⟨.required, 2, 18, 0x00000002, some 255, some 0xff, some (26, .messageType)⟩
    | .messageType => ⟨.required, 3, 26, 0x00000004, some 255, some 0xff, some (32, .expiredTime)⟩
    | .expiredTime => ⟨.required, 4, 32, 0x00000008, some 255, some 0xff, some (40, .deliverLimit)⟩
    | .deliverLimit => ⟨.required, 5, 40, 0x00000010, some 255, some 0xff, some (50, .groupId)⟩
    | .groupId => ⟨.required, 6, 50, 0x00000020, some 255, some 0xff, some (56, .commit)⟩
    | .commit => ⟨.required, 7, 56, 0x00000040, some 255, some 0xff, some (64, .fly)⟩
    | .fly => ⟨.required, 8, 64, 0x00000080, some 255, some 0xff, some (74, .properties)⟩
    | .properties => ⟨.repeated, 9, 74, 0, none, none, some (80, .createTime)⟩
    | .createTime => ⟨.optional, 10, 80, 0x00000200, none, some (0xff <<< 9), none⟩
  requiredMask := 0x000000ff
  sizeMask := some 0x000000ff

abbrev types (W : WireFormat) (entry : MessageClass) : Field → FieldType
  | .messageId => .string W.string []
  | .topic => .string W.string []
  | .messageType => .string W.string []
  | .expiredTime => .primitive W.int64 (-1)
  | .deliverLimit => .primitive W.int32 100
  | .groupId => .string W.string []
  | .commit => .primitive (W.bool.sized 1) false
  | .fly => .primitive (W.bool.sized 1) false
  | .properties => .repeated W entry
  | .createTime => .primitive W.int64 0

theorem wellFormed : schema.WellFormed :=
  Schema.Checked.wellFormed (by decide +kernel) fun f ↦ by cases f <;> decide

abbrev messageClass (W : WireFormat) : MessageClass :=
  schema.toClass (types W (Entry.messageClass W)) W

variable {W : WireFormat}

def models (hW : W.Lawful) :
    ∀ f, (types W (Entry.messageClass W) f).Model (schema.row f).repeated
  | .messageId => stringModel [] hW
  | .topic => stringModel [] hW
  | .messageType => stringModel [] hW
  | .expiredTime => int64Model (-1) hW
  | .deliverLimit => int32Model 100 hW
  | .groupId => stringModel [] hW
  | .commit => boolModel false hW
  | .fly => boolModel false hW
  | .properties => FieldType.repeatedModel W (Entry.model hW) hW
  | .createTime => int64Model 0 hW

def model (hW : W.Lawful) : (messageClass W).Model := schema.model (models hW) hW wellFormed

end Header

namespace TxACKPacket

inductive Field where
  | header
  | status
  | feedback
deriving DecidableEq

def schema : Schema Field where
  fields := [.header, .status, .feedback]
  row
    | .header => ⟨.required, 1, 10, 0x00000001, some 7, some 0xff, some (16, .status)⟩
    | .status => ⟨.required, 2, 16, 0x00000002, some 7, some 0xff, some (26, .feedback)⟩
    | .feedback => ⟨.required, 3, 26, 0x00000004, some 7, some 0xff, none⟩
  requiredMask := 0x00000007
  sizeMask := some 0x00000007

abbrev types (W : WireFormat) (header : MessageClass) : Field → FieldType
  | .header => .message W header
  | .status => .primitive W.int32 0
  | .feedback => .string W.string []

theorem wellFormed : schema.WellFormed :=
  Schema.Checked.wellFormed (by decide +kernel) fun f ↦ by cases f <;> decide

abbrev messageClass (W : WireFormat) : MessageClass :=
  schema.toClass (types W (Header.messageClass W)) W

variable {W : WireFormat}

def models (hW : W.Lawful) :
    ∀ f, (types W (Header.messageClass W) f).Model (schema.row f).repeated
  | .header => FieldType.messageModel W (Header.model hW) hW
  | .status => int32Model 0 hW
  | .feedback => stringModel [] hW

def model (hW : W.Lawful) : (messageClass W).Model := schema.model (models hW) hW wellFormed

end TxACKPacket

namespace BytesMessage

inductive Field where
  | header
  | body
deriving DecidableEq

def schema : Schema Field where
  fields := [.header, .body]
  row
    | .header => ⟨.required, 1, 10, 0x00000001, some 3, some 0xff, some (18, .body)⟩
    | .body => ⟨.required, 2, 18, 0x00000002, some 3, some 0xff, none⟩
  requiredMask := 0x00000003
  sizeMask := some 0x00000003

abbrev types (W : WireFormat) (header : MessageClass) : Field → FieldType
  | .header => .message W header
  | .body => .string W.string []

theorem wellFormed : schema.WellFormed :=
  Schema.Checked.wellFormed (by decide +kernel) fun f ↦ by cases f <;> decide

abbrev messageClass (W : WireFormat) : MessageClass :=
  schema.toClass (types W (Header.messageClass W)) W

variable {W : WireFormat}

def models (hW : W.Lawful) :
    ∀ f, (types W (Header.messageClass W) f).Model (schema.row f).repeated
  | .header => FieldType.messageModel W (Header.model hW) hW
  | .body => stringModel [] hW

def model (hW : W.Lawful) : (messageClass W).Model := schema.model (models hW) hW wellFormed

end BytesMessage

namespace StringMessage

inductive Field where
  | header
  | body
deriving DecidableEq

def schema : Schema Field where
  fields := [.header, .body]
  row
    | .header => ⟨.required, 1, 10, 0x00000001, some 3, some 0xff, some (18, .body)⟩
    | .body => ⟨.required, 2, 18, 0x00000002, some 3, some 0xff, none⟩
  requiredMask := 0x00000003
  sizeMask := some 0x00000003

abbrev types (W : WireFormat) (header : MessageClass) : Field → FieldType
  | .header => .message W header
  | .body => .string W.string []

theorem wellFormed : schema.WellFormed :=
  Schema.Checked.wellFormed (by decide +kernel) fun f ↦ by cases f <;> decide

abbrev messageClass (W : WireFormat) : MessageClass :=
  schema.toClass (types W (Header.messageClass W)) W

variable {W : WireFormat}

def models (hW : W.Lawful) :
    ∀ f, (types W (Header.messageClass W) f).Model (schema.row f).repeated
  | .header => FieldType.messageModel W (Header.model hW) hW
  | .body => stringModel [] hW

def model (hW : W.Lawful) : (messageClass W).Model := schema.model (models hW) hW wellFormed

end StringMessage

end Kiteq.Generated

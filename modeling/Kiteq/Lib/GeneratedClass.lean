import Kiteq.Lib.CodedStream
import Kiteq.Lib.Machine

/-!
# Generated message classes

The code a protobuf compiler generates for a message is the same for every message up to a table
of constants.  `Schema` is the table, `FieldType` what the compiler emits for a field of a given
type, and the functions of `Message` are the generated ones: a has-bit for every singular field,
`Clear` and `MergeFrom` guarded by masks of has-bits, a `ByteSize` with a fast path for messages
with all required fields, and a parser made of labels and gotos that guesses which tag is next.

`Schema.toClass` packs them as a `MessageClass`, which is what a field of message type needs of
its class, so that the classes of a schema are built from the inside out.
-/

namespace Kiteq.Lib

/-! ## Classes -/

/-- A generated class, as far as other generated classes use it. -/
structure MessageClass where
  Carrier : Type
  new : Carrier
  /-- `MergePartialFromCodedStream` within a recursion budget on a stream that is limited to the
  message: the message, and whether the call has succeeded and consumed the entire message. -/
  mergePartial : ℕ → Carrier → Octets → Carrier × Bool
  serialize : Carrier → Octets
  byteSize : Carrier → BitVec 32
  mergeFrom : Carrier → Carrier → Carrier
  clear : Carrier → Carrier
  isInitialized : Carrier → Bool

namespace MessageClass

variable (W : WireFormat) (C : MessageClass)

/-- A submessage that was cut out of the stream, merged into `m` within a budget. -/
def read (b : ℕ) (m : C.Carrier) : Option (Octets × Option Octets) → C.Carrier × Option Octets
  | none => (m, none)
  | some (body, rest) =>
    ((C.mergePartial b m body).1, if (C.mergePartial b m body).2 then rest else none)

/-- A submessage behind its length. -/
def write (m : C.Carrier) : Octets := W.writeLength (C.byteSize m) ++ C.serialize m

/-- `MessageSizeNoVirtual`: the size of a submessage with its length. -/
def size (m : C.Carrier) : BitVec 32 := W.lengthSize (C.byteSize m) + C.byteSize m

variable {C}

theorem eq_of_read {b : ℕ} {m m' : C.Carrier} {o : Option (Octets × Option Octets)} {rest : Octets}
    (h : C.read b m o = (m', some rest)) : ∃ body, o = some (body, some rest) := by
  unfold read at h
  split at h
  · cases h
  · next body r =>
      obtain ⟨-, hrest⟩ := Prod.mk.inj h
      split at hrest
      · exact ⟨body, by rw [hrest]⟩
      · cases hrest

end MessageClass

/-! ## Types of fields -/

/-- The value of a field, and whether the field is set. -/
structure Slot (α : Type) where
  has : Bool
  value : α

/-- What is generated for a field of some type. -/
structure FieldType where
  Value : Type
  /-- The value in a new message. -/
  default : Value
  /-- What follows the tag in the parser, within a recursion budget. -/
  read : ℕ → Slot Value → Octets → Slot Value × Option Octets
  /-- What is written behind the tag: once, or once for each element. -/
  payloads : Value → List Octets
  /-- The size of what is written, with the tags. -/
  size : Value → BitVec 32
  /-- The value in `MergeFrom`, from a message in which the field is set. -/
  merge : Value → Value → Value
  /-- The value in `Clear`, which may look whether the field is set. -/
  clear : Bool → Value → Value
  isInitialized : Value → Bool
  rest_le : ∀ {b s s' bs rest}, read b s bs = (s', some rest) → rest.length ≤ bs.length

namespace FieldType

/-- An optional or required number or string.  An `eager` one is reached through `mutable_`, which
sets the has-bit before the value is read, and `Clear` resets it only if it is set. -/
abbrev scalar {α : Type} (eager : Bool) (c : Codec α) (d : α) : FieldType where
  Value := α
  default := d
  read _ s bs := (⟨eager || s.has || (c.read s.value bs).2.isSome, (c.read s.value bs).1⟩,
    (c.read s.value bs).2)
  payloads v := [c.write v]
  size v := 1 + c.size v
  merge _ w := w
  clear has v := if eager && !has then v else d
  isInitialized _ := true
  rest_le h := c.rest_le (Prod.ext rfl (Prod.mk.inj h).2)

/-- A number: the has-bit is set once the value was read. -/
abbrev primitive {α : Type} (c : Codec α) (d : α) : FieldType := scalar false c d

/-- A string. -/
abbrev string {α : Type} (c : Codec α) (d : α) : FieldType := scalar true c d

variable (W : WireFormat) (C : MessageClass)

/-- An optional or required submessage, behind a pointer that is null until `mutable_` is called.
Where the generated code goes through the pointer without a test, a new object stands in here for
one that is not there. -/
abbrev message : FieldType where
  Value := Option C.Carrier
  default := none
  -- the length is read before the recursion budget is looked at
  read b s bs := match b with
    | 0 => (⟨true, some (s.value.getD C.new)⟩, none)
    | b + 1 => (⟨true, some (C.read b (s.value.getD C.new) (W.readLimited bs)).1⟩,
        (C.read b (s.value.getD C.new) (W.readLimited bs)).2)
  payloads v := [C.write W (v.getD C.new)]
  size v := 1 + C.size W (v.getD C.new)
  merge v w := some (C.mergeFrom (v.getD C.new) (w.getD C.new))
  clear has v := if has then v.map C.clear else v
  isInitialized v := C.isInitialized (v.getD C.new)
  rest_le {b _ _ _ _} h := by
    cases b with
    | zero => cases h
    | succ b =>
        obtain ⟨body, hbody⟩ := MessageClass.eq_of_read (Prod.ext rfl (Prod.mk.inj h).2)
        exact W.readLimited_le hbody

/-- A repeated submessage: each element is read into a new object, inside the recursion level that
was entered for the first. -/
abbrev repeated : FieldType where
  Value := List C.Carrier
  default := []
  read b s bs := (⟨true, s.value ++ [(C.read b C.new (W.readElement bs)).1]⟩,
    (C.read b C.new (W.readElement bs)).2)
  payloads v := v.map (C.write W)
  size v := 1 * BitVec.ofNat 32 v.length + (v.map (C.size W)).sum
  merge v w := v ++ w.map (C.mergeFrom C.new)
  clear _ _ := []
  isInitialized v := v.all C.isInitialized
  rest_le h := by
    obtain ⟨body, hbody⟩ := MessageClass.eq_of_read (Prod.ext rfl (Prod.mk.inj h).2)
    exact W.readElement_le hbody

end FieldType

/-! ## Tables -/

inductive Label where
  | required
  | optional
  | repeated
deriving DecidableEq

/-- The constants of a field. -/
structure Row (F : Type) where
  label : Label
  number : ℕ
  tag : ℕ
  /-- The has-bit, `0` for a repeated field. -/
  mask : BitVec 32
  /-- The has-bits one of which lets `Clear` reach the field, if there is a guard. -/
  clearMask : Option (BitVec 32)
  /-- The has-bits one of which lets `MergeFrom` reach the field, if there is a guard. -/
  mergeMask : Option (BitVec 32)
  /-- The tag the parser looks for behind the field and where it goes then, or the end. -/
  next : Option (ℕ × F)

def Row.repeated {F : Type} (r : Row F) : Bool := r.label == .repeated

/-- The table of a message. -/
structure Schema (F : Type) where
  /-- In the order of their numbers. -/
  fields : List F
  row : F → Row F
  /-- The has-bits `IsInitialized` asks for. -/
  requiredMask : BitVec 32
  /-- The has-bits with which `ByteSize` takes the fast path, if it has one. -/
  sizeMask : Option (BitVec 32)

namespace Schema

variable {F : Type} (S : Schema F) (K : F → FieldType) (U : Type)

/-- The data of a generated class. -/
@[ext]
structure Message where
  hasBits : BitVec 32
  value : (f : F) → (K f).Value
  unknown : List U

variable {K U}

namespace Message

variable (m : Message K U) (f : F)

/-- `has_`. -/
def has : Bool := m.hasBits &&& (S.row f).mask != 0

/-- `set_has_`. -/
def setHas : Message K U := { m with hasBits := m.hasBits ||| (S.row f).mask }

/-- `clear_has_`. -/
def clearHas : Message K U := { m with hasBits := m.hasBits &&& ~~~(S.row f).mask }

/-- There is something in the field: it is set or repeated. -/
def present : Bool := (S.row f).repeated || m.has S f

/-- Some has-bit of a mask is set, or there is no mask. -/
def admits (mask : Option (BitVec 32)) : Bool := mask.all fun k ↦ m.hasBits &&& k != 0

variable [DecidableEq F]

def setValue (v : (K f).Value) : Message K U := { m with value := Function.update m.value f v }

/-- A field as its type sees it. -/
def slot : Slot (K f).Value := ⟨m.present S f, m.value f⟩

/-- A field as its type has left it. -/
def store (s : Slot (K f).Value) : Message K U :=
  (if s.has then m.setHas S f else m.clearHas S f).setValue f s.value

end Message

/-! ## Reading -/

variable (K U) in
/-- The state of the parser. -/
inductive Parse where
  /-- In front of `ReadTagWithCutoff`. -/
  | head (m : Message K U) (bs : Octets)
  /-- The label `parse_` of a field. -/
  | field (f : F) (m : Message K U) (bs : Octets)
  /-- The label `parse_loop_` of a repeated field. -/
  | loop (f : F) (m : Message K U) (bs : Octets)
  /-- The label `success`, and whether the entire message was consumed. -/
  | success (m : Message K U) (consumed : Bool)
  /-- The label `failure`. -/
  | failure (m : Message K U)

/-- The field a tag below the cutoff is dispatched to. -/
def dispatch (tag : ℕ) : Option F :=
  if 0 < tag ∧ tag ≤ 127 then
    (S.fields.find? fun f ↦ (S.row f).number = tag / 8).filter fun f ↦ (S.row f).tag = tag
  else none

variable (W : WireFormat)

/-- The label `handle_unusual`, with the stream before and behind the tag. -/
def handleUnusual (b : ℕ) (m : Message K W.Unknown) (bs : Octets) : Parse K W.Unknown :=
  if (W.readTag bs).1 = 0 ∨ (W.readTag bs).1 % 8 = 4 then .success m bs.isEmpty
  else match W.skipField b (W.readTag bs).1 (W.readTag bs).2 with
    | (us, none) => .failure { m with unknown := m.unknown ++ us }
    | (us, some rest) => .head { m with unknown := m.unknown ++ us } rest

/-- What follows a field: the tag that is expected next, or the end. -/
def afterField (f : F) (m : Message K W.Unknown) (bs : Octets) : Parse K W.Unknown :=
  match (S.row f).next with
  | none => if W.expectAtEnd bs then .success m true else .head m bs
  | some (tag, g) => match W.expectTag tag bs with
    | none => .head m bs
    | some rest => .field g m rest

/-- Every round consumes a tag or a look-ahead. -/
def Parse.rank : Parse K U → ℕ
  | .head _ bs => 3 * bs.length + 1
  | .field _ _ bs => 3 * bs.length + 3
  | .loop _ _ bs => 3 * bs.length + 2
  | .success _ _ => 0
  | .failure _ => 0

theorem rank_handleUnusual_lt {b : ℕ} {m : Message K W.Unknown} {bs : Octets} :
    (handleUnusual W b m bs).rank < 3 * bs.length + 1 := by
  unfold handleUnusual
  split
  · simp [Parse.rank]
  · next htag =>
      have hlt : (W.readTag bs).2.length < bs.length := W.readTag_lt fun h ↦ htag (.inl h)
      split
      · simp [Parse.rank]
      · next us rest hskip =>
          have := W.skipField_le hskip
          simp only [Parse.rank]
          omega

theorem rank_afterField_le {f : F} {m : Message K W.Unknown} {bs : Octets} :
    (S.afterField W f m bs).rank ≤ 3 * bs.length + 1 := by
  unfold afterField
  split
  · split <;> simp [Parse.rank]
  · split
    · simp [Parse.rank]
    · next rest hexpect =>
        have := W.expectTag_lt hexpect
        simp only [Parse.rank]
        omega

variable {S} in
theorem ne_zero_of_dispatch {tag : ℕ} {f : F} (h : S.dispatch tag = some f) : tag ≠ 0 := by
  unfold dispatch at h
  split at h
  · omega
  · cases h

section

variable [DecidableEq F]

/-- One step between two labels, within a recursion budget. -/
def next (b : ℕ) : Parse K W.Unknown → Option (Parse K W.Unknown)
  | .head m bs => match S.dispatch (W.readTag bs).1 with
    | some f => some (.field f m (W.readTag bs).2)
    | none => some (handleUnusual W b m bs)
  | .field f m bs =>
    if (S.row f).repeated then
      -- `IncrementRecursionDepth`
      if b = 0 then some (.failure m) else some (.loop f m bs)
    else match (K f).read b (m.slot S f) bs with
      | (s, none) => some (.failure (m.store S f s))
      | (s, some rest) => some (S.afterField W f (m.store S f s) rest)
  | .loop f m bs => match (K f).read (b - 1) (m.slot S f) bs with
    | (s, none) => some (.failure (m.store S f s))
    | (s, some rest) => match W.expectTag (S.row f).tag rest with
      | some rest => some (.loop f (m.store S f s) rest)
      -- `UnsafeDecrementRecursionDepth`
      | none => some (S.afterField W f (m.store S f s) rest)
  | .success _ _ => none
  | .failure _ => none

theorem rank_next_lt {b : ℕ} {p p' : Parse K W.Unknown} (h : S.next W b p = some p') :
    p'.rank < p.rank := by
  cases p with
  | head m bs =>
      simp only [next] at h
      split at h
      · next f hf =>
          cases h
          have := W.readTag_lt (ne_zero_of_dispatch hf)
          simp only [Parse.rank]
          omega
      · cases h
        exact rank_handleUnusual_lt W
  | field f m bs =>
      simp only [next] at h
      split at h
      · split at h <;> cases h <;> simp [Parse.rank]
      · split at h
        · cases h
          simp [Parse.rank]
        · next s rest hread =>
            cases h
            have hle := (K f).rest_le hread
            refine Nat.lt_of_le_of_lt (S.rank_afterField_le W) ?_
            simp only [Parse.rank]
            omega
  | loop f m bs =>
      simp only [next] at h
      split at h
      · cases h
        simp [Parse.rank]
      · next s rest hread =>
          have hle := (K f).rest_le hread
          split at h
          · next rest' hexpect =>
              cases h
              have := W.expectTag_lt hexpect
              simp only [Parse.rank]
              omega
          · cases h
            refine Nat.lt_of_le_of_lt (S.rank_afterField_le W) ?_
            simp only [Parse.rank]
            omega
  | success m consumed => cases h
  | failure m => cases h

/-- The parser. -/
def parser (b : ℕ) : Machine (Parse K W.Unknown) Empty where
  next p := (S.next W b p).map fun p' ↦ (p', [])
  rank := Parse.rank
  rank_lt h := by
    obtain ⟨p', hp', heq⟩ := Option.map_eq_some_iff.mp h
    cases heq
    exact S.rank_next_lt W hp'

/-- What the parser has made of the message, and whether it has returned `true` and consumed the
entire message. -/
def Parse.result : Parse K U → Message K U × Bool
  | .success m consumed => (m, consumed)
  | .head m _ | .field _ m _ | .loop _ m _ | .failure m => (m, false)

/-- `MergePartialFromCodedStream`. -/
def mergePartialFromCodedStream (b : ℕ) (m : Message K W.Unknown) (bs : Octets) :
    Message K W.Unknown × Bool :=
  ((S.parser W b).run (.head m bs)).1.result

end

/-! ## Writing -/

/-- A payload behind its tag. -/
def writeField (f : F) (payload : Octets) : Octets := W.writeTag (S.row f).tag ++ payload

/-- `SerializeWithCachedSizes`. -/
def serializeWithCachedSizes (m : Message K W.Unknown) : Octets :=
  (S.fields.flatMap fun f ↦ if m.present S f then
    ((K f).payloads (m.value f)).flatMap (S.writeField W f) else []) ++
  m.unknown.flatMap W.writeField

/-- `RequiredFieldsByteSizeFallback`. -/
def requiredFieldsByteSizeFallback (m : Message K U) : BitVec 32 :=
  ((S.fields.filter fun f ↦ (S.row f).label = .required).map fun f ↦
    if m.has S f then (K f).size (m.value f) else 0).sum

/-- `ByteSize`. -/
def byteSize (m : Message K W.Unknown) : BitVec 32 :=
  (if S.sizeMask.any fun k ↦ (m.hasBits &&& k) ^^^ k == 0 then
    ((S.fields.filter fun f ↦ (S.row f).label = .required).map fun f ↦
      (K f).size (m.value f)).sum
  else S.requiredFieldsByteSizeFallback m) +
  ((S.fields.filter fun f ↦ (S.row f).label ≠ .required).map fun f ↦
    if m.present S f then (K f).size (m.value f) else 0).sum +
  (m.unknown.map W.unknownSize).sum

/-! ## Whole messages -/

variable (K U) in
/-- A new message. -/
def new : Message K U where
  hasBits := 0
  value f := (K f).default
  unknown := []

/-- `IsInitialized`. -/
def isInitialized (m : Message K U) : Bool :=
  m.hasBits &&& S.requiredMask == S.requiredMask &&
    S.fields.all fun f ↦ !m.present S f || (K f).isInitialized (m.value f)

variable [DecidableEq F]

/-- The lines of `MergeFrom` about a field of `src`. -/
def mergeField (src m : Message K U) (f : F) : Message K U :=
  if src.admits (S.row f).mergeMask && src.present S f then
    m.store S f ⟨true, (K f).merge (m.value f) (src.value f)⟩
  else m

/-- `MergeFrom` of another message. -/
def mergeFrom (m src : Message K U) : Message K U :=
  { S.fields.foldl (S.mergeField src) m with unknown := m.unknown ++ src.unknown }

/-- The lines of `Clear` about a field of `old`; the has-bits are reset at the end. -/
def clearField (old m : Message K U) (f : F) : Message K U :=
  if old.admits (S.row f).clearMask then
    m.setValue f ((K f).clear (old.present S f) (m.value f))
  else m

/-- `Clear`. -/
def clear (m : Message K U) : Message K U :=
  { S.fields.foldl (S.clearField m) m with hasBits := 0, unknown := [] }

/-- `CopyFrom` of another message. -/
def copyFrom (m src : Message K U) : Message K U := S.mergeFrom (S.clear m) src

/-! ## Single fields -/

/-- `set_`, or `mutable_` and what is done through the pointer it returns. -/
def set (m : Message K U) (f : F) (v : (K f).Value) : Message K U := m.store S f ⟨true, v⟩

/-- `clear_`. -/
def unset (m : Message K U) (f : F) : Message K U :=
  m.store S f ⟨false, (K f).clear true (m.value f)⟩

/-- `release_`, or `set_allocated_` with a null pointer. -/
def release (m : Message K U) (f : F) : Message K U := m.store S f ⟨false, (K f).default⟩

variable (K) in
/-- The class of the messages of a table. -/
def toClass : MessageClass where
  Carrier := Message K W.Unknown
  new := new K W.Unknown
  mergePartial := S.mergePartialFromCodedStream W
  serialize := S.serializeWithCachedSizes W
  byteSize := S.byteSize W
  mergeFrom := S.mergeFrom
  clear := S.clear
  isInitialized := S.isInitialized

end Schema

end Kiteq.Lib

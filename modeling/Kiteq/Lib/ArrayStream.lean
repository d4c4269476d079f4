import Kiteq.Lib.CodedStream

/-!
# Coded streams on arrays

One runtime that does what is documented of coded streams: the input is a byte array, numbers are
varints, a string is behind its length, and looking ahead sees tags of one byte.  A submessage is
cut off at the end of what surrounds it, so that a length that is too large goes unnoticed; the two
functions that cut submessages out differ in what they make of a length that no `int` can hold.
Unknown fields are kept as they came, but for groups, which are refused.
-/

namespace Kiteq.Lib.ArrayStream

open Proto2

/-! ## Numbers and strings -/

theorem length_lt_of_decodeVarint {k n : ℕ} {bs rest : Octets}
    (h : decodeVarint k bs = some (n, rest)) : rest.length < bs.length := by
  induction k generalizing bs n with
  | zero => cases h
  | succ k ih =>
      cases bs with
      | nil => cases h
      | cons b bs =>
          rw [decodeVarint] at h
          split at h
          · cases h
            simp
          · obtain ⟨r, hr, heq⟩ := Option.map_eq_some_iff.mp h
            cases heq
            have := ih hr
            simp only [List.length_cons]
            omega

/-- What a varint is as `uint32`. -/
def uint32 (n : ℕ) : ℕ := n % 2 ^ 32

theorem uint32_of_lt {n : ℕ} (h : n < 2 ^ 32) : uint32 n = n := Nat.mod_eq_of_lt h

theorem decodeVarint_ten {n : ℕ} (h : n < 2 ^ 64) (rest : Octets) :
    decodeVarint 10 (encodeVarint 10 n ++ rest) = some (n, rest) :=
  decodeVarint_encodeVarint 9 (by norm_num; omega) rest

section

variable {α : Type} (toWire : α → ℕ) (ofWire : ℕ → α)

/-- A number that is sent as a varint. -/
def varint : Codec α where
  read v bs := match decodeVarint 10 bs with
    | none => (v, none)
    | some (n, rest) => (ofWire n, some rest)
  write v := encodeVarint 10 (toWire v)
  size v := BitVec.ofNat 32 (encodeVarint 10 (toWire v)).length
  rest_le h := by
    split at h
    · cases h
    · next hdecode =>
        cases h
        exact (length_lt_of_decodeVarint hdecode).le

variable {toWire ofWire}

theorem lawful_varint (h : ∀ v, ofWire (toWire v) = v) (hlt : ∀ v, toWire v < 2 ^ 64) :
    (varint toWire ofWire).Lawful where
  read_write v w rest _ := by simp [varint, decodeVarint_ten (hlt w), h]
  size_eq _ := rfl
  read_snd v v' bs := by
    simp only [varint]
    split <;> rfl
  read_fst v v' bs hread := by
    simp only [varint] at hread ⊢
    split at hread
    · cases hread
    · rfl

theorem atomic_varint : (varint toWire ofWire).Atomic := fun v bs hread ↦ by
  simp only [varint] at hread ⊢
  split at hread
  · rfl
  · cases hread

end

/-- A string: what there was of one that breaks off stays in the variable. -/
def string : Codec Octets where
  read v bs := match decodeVarint 10 bs with
    | none => (v, none)
    | some (n, rest) =>
      if 2 ^ 31 ≤ uint32 n then (v, none)
      else if uint32 n ≤ rest.length then
        (rest.take (uint32 n), some (rest.drop (uint32 n)))
      else (rest, none)
  write v := encodeVarint 10 (uint32 v.length) ++ v
  size v := BitVec.ofNat 32 (encodeVarint 10 (uint32 v.length) ++ v).length
  rest_le {v _ bs _} h := by
    split at h
    · cases h
    · next n rest hdecode =>
        have := length_lt_of_decodeVarint hdecode
        split_ifs at h
        · cases h
        · cases h
          rw [List.length_drop]
          omega
        · cases h

theorem lawful_string : string.Lawful where
  read_write v w rest hlen := by
    have hw : w.length < 2 ^ 31 := by
      simp only [string, List.length_append] at hlen
      omega
    have hdecode := decodeVarint_ten (n := w.length) (by omega) (w ++ rest)
    have hlength : uint32 w.length = w.length := uint32_of_lt (by omega)
    simp [string, hdecode, hlength]
    omega
  size_eq _ := rfl
  read_snd v v' bs := by
    simp only [string]
    split
    · rfl
    · split_ifs <;> rfl
  read_fst v v' bs hread := by
    simp only [string] at hread ⊢
    split at hread
    · cases hread
    · split_ifs at hread ⊢
      · cases hread
      · rfl
      · cases hread

/-! ## Submessages -/

/-- The bytes up to a limit, or up to the limit that surrounds them. -/
def pushLimit (n : ℕ) (bs : Octets) : Octets × Option Octets := (bs.take n, some (bs.drop n))

/-- `ReadVarintSizeAsInt` and `PushLimit`. -/
def readLimited (bs : Octets) : Option (Octets × Option Octets) :=
  match decodeVarint 10 bs with
  | none => none
  | some (n, rest) => if n < 2 ^ 31 then some (pushLimit n rest) else none

/-- `ReadLengthAndPushLimit`: a length that cannot be read counts as `0`, and one that an `int`
takes for negative as no limit. -/
def readElement (bs : Octets) : Option (Octets × Option Octets) :=
  match decodeVarint 10 bs with
  | none => some ([], some (if bs.length < 10 then [] else bs))
  | some (n, rest) =>
    some (if uint32 n < 2 ^ 31 then pushLimit (uint32 n) rest else (rest, some []))

theorem readLimited_le {bs body rest : Octets} (h : readLimited bs = some (body, some rest)) :
    rest.length ≤ bs.length := by
  unfold readLimited at h
  split at h
  · cases h
  · next hdecode =>
      have := length_lt_of_decodeVarint hdecode
      split_ifs at h
      cases h
      rw [List.length_drop]
      omega

theorem readElement_le {bs body rest : Octets} (h : readElement bs = some (body, some rest)) :
    rest.length ≤ bs.length := by
  unfold readElement at h
  split at h
  · split_ifs at h <;> cases h <;> simp
  · next hdecode =>
      have := length_lt_of_decodeVarint hdecode
      split_ifs at h
      · cases h
        rw [List.length_drop]
        omega
      · cases h
        simp

theorem pushLimit_append (body rest : Octets) :
    pushLimit body.length (body ++ rest) = (body, some rest) := by simp [pushLimit]

/-! ## Unknown fields -/

/-- The value of an unknown field, by its wire type. -/
inductive Value where
  | varint (n : BitVec 64)
  | fixed64 (bs : { bs : Octets // bs.length = 8 })
  | lengthDelimited (bs : { bs : Octets // bs.length < 2 ^ 31 })
  | fixed32 (bs : { bs : Octets // bs.length = 4 })

/-- The wire type. -/
def Value.wireType : Value → ℕ
  | .varint _ => 0
  | .fixed64 _ => 1
  | .lengthDelimited _ => 2
  | .fixed32 _ => 5

def Value.write : Value → Octets
  | .varint n => encodeVarint 10 n.toNat
  | .fixed64 bs => bs.1
  | .lengthDelimited bs => encodeVarint 10 bs.1.length ++ bs.1
  | .fixed32 bs => bs.1

/-- A value of a wire type, and what is behind it. -/
def readValue (wireType : ℕ) (bs : Octets) : Option (Value × Octets) :=
  match wireType with
  | 0 => (decodeVarint 10 bs).map fun r ↦ (.varint (BitVec.ofNat 64 r.1), r.2)
  | 1 => if h : 8 ≤ bs.length then some (.fixed64 ⟨bs.take 8, by simp [h]⟩, bs.drop 8) else none
  | 2 => match decodeVarint 10 bs with
    | none => none
    | some (n, rest) =>
      if h : uint32 n < 2 ^ 31 ∧ uint32 n ≤ rest.length then
        some (.lengthDelimited ⟨rest.take (uint32 n), by simp; omega⟩, rest.drop (uint32 n))
      else none
  | 5 => if h : 4 ≤ bs.length then some (.fixed32 ⟨bs.take 4, by simp [h]⟩, bs.drop 4) else none
  | _ => none

theorem readValue_write (v : Value) (rest : Octets) :
    readValue v.wireType (v.write ++ rest) = some (v, rest) := by
  cases v with
  | varint n => simp [readValue, Value.wireType, Value.write, decodeVarint_ten n.isLt]
  | fixed64 bs =>
      obtain ⟨bs, hbs⟩ := bs
      simp [readValue, Value.wireType, Value.write, ← hbs]
  | lengthDelimited bs =>
      obtain ⟨bs, hbs⟩ := bs
      have hdecode := decodeVarint_ten (n := bs.length) (by omega) (bs ++ rest)
      simp [readValue, Value.wireType, Value.write, hdecode,
        uint32_of_lt (show bs.length < 2 ^ 32 by omega)]
      omega
  | fixed32 bs =>
      obtain ⟨bs, hbs⟩ := bs
      simp [readValue, Value.wireType, Value.write, ← hbs]

theorem wireType_readValue {w : ℕ} {bs rest : Octets} {v : Value}
    (h : readValue w bs = some (v, rest)) : v.wireType = w := by
  unfold readValue at h
  split at h
  · obtain ⟨r, -, heq⟩ := Option.map_eq_some_iff.mp h
    cases heq
    rfl
  · split_ifs at h
    cases h
    rfl
  · split at h
    · cases h
    · split_ifs at h
      cases h
      rfl
  · split_ifs at h
    cases h
    rfl
  · cases h

theorem readValue_le {w : ℕ} {bs rest : Octets} {v : Value}
    (h : readValue w bs = some (v, rest)) : rest.length ≤ bs.length := by
  unfold readValue at h
  split at h
  · obtain ⟨r, hr, heq⟩ := Option.map_eq_some_iff.mp h
    cases heq
    exact (length_lt_of_decodeVarint hr).le
  · split_ifs at h
    cases h
    simp
  · split at h
    · cases h
    · next hdecode =>
        have := length_lt_of_decodeVarint hdecode
        split_ifs at h
        cases h
        rw [List.length_drop]
        omega
  · split_ifs at h
    cases h
    simp
  · cases h

/-- `SkipField`. -/
def skipField (tag : ℕ) (bs : Octets) : List (ℕ × Value) × Option Octets :=
  match readValue (tag % 8) bs with
  | none => ([], none)
  | some (v, rest) => ([(tag / 8, v)], some rest)

theorem eq_of_skipField {tag : ℕ} {bs rest : Octets} {us : List (ℕ × Value)}
    (h : skipField tag bs = (us, some rest)) :
    ∃ v, readValue (tag % 8) bs = some (v, rest) ∧ us = [(tag / 8, v)] := by
  unfold skipField at h
  split at h
  · cases h
  · next v rest' hread =>
      cases h
      exact ⟨v, hread, rfl⟩

/-- The tag of an unknown field. -/
def tagOf (u : ℕ × Value) : ℕ := 8 * u.1 + u.2.wireType

theorem tagOf_of_readValue {tag : ℕ} {bs rest : Octets} {v : Value}
    (h : readValue (tag % 8) bs = some (v, rest)) : tagOf (tag / 8, v) = tag := by
  rw [tagOf, wireType_readValue h, Nat.div_add_mod]

theorem skipField_write (u : ℕ × Value) (rest : Octets) :
    skipField (tagOf u) (u.2.write ++ rest) = ([u], some rest) := by
  obtain ⟨number, v⟩ := u
  have hlt : v.wireType < 8 := by cases v <;> simp [Value.wireType]
  have hmod : (8 * number + v.wireType) % 8 = v.wireType := by omega
  have hdiv : (8 * number + v.wireType) / 8 = number := by omega
  simp only [skipField, tagOf, hmod, hdiv, readValue_write]

/-! ## Tags -/

/-- `ReadTag`. -/
def readTag (bs : Octets) : ℕ × Octets :=
  match decodeVarint 10 bs with
  | none => (0, bs)
  | some (n, rest) => (uint32 n, rest)

/-- `ExpectTag`. -/
def expectTag (tag : ℕ) : Octets → Option Octets
  | [] => none
  | b :: rest => if tag < 128 ∧ b.toNat = tag then some rest else none

theorem expectTag_sound {tag : ℕ} {bs rest : Octets} (h : expectTag tag bs = some rest) :
    readTag bs = (tag, rest) := by
  cases bs with
  | nil => cases h
  | cons b bs =>
      rw [expectTag] at h
      split at h
      · next htag =>
          cases h
          obtain ⟨hlt, rfl⟩ := htag
          simp only [readTag, decodeVarint, hlt, if_true,
            uint32_of_lt (Nat.lt_trans hlt (by decide))]
      · cases h

/-! ## The runtime -/

def runtime : WireFormat where
  Unknown := ℕ × Value
  int64 := varint BitVec.toNat (BitVec.ofNat 64)
  int32 := varint (fun v ↦ (v.signExtend 64).toNat) (BitVec.ofNat 32)
  bool := varint Bool.toNat fun n ↦ n % 2 ^ 64 != 0
  string := string
  readTag := readTag
  expectTag := expectTag
  expectAtEnd := List.isEmpty
  readLimited := readLimited
  readElement := readElement
  skipField _ := skipField
  writeTag := encodeVarint 10
  writeLength n := encodeVarint 10 n.toNat
  lengthSize n := BitVec.ofNat 32 (encodeVarint 10 n.toNat).length
  tagOf := tagOf
  writeUnknown u := u.2.write
  unknownSize u := BitVec.ofNat 32 (encodeVarint 10 (tagOf u) ++ u.2.write).length
  readTag_lt {bs} h := by
    unfold readTag at h ⊢
    split
    · next hdecode => simp [hdecode] at h
    · next hdecode => exact length_lt_of_decodeVarint hdecode
  expectTag_lt {_ bs _} h := by
    cases bs with
    | nil => cases h
    | cons b bs =>
        rw [expectTag] at h
        split_ifs at h
        cases h
        simp
  readLimited_le := readLimited_le
  readElement_le := readElement_le
  skipField_le h := by
    obtain ⟨v, hread, -⟩ := eq_of_skipField h
    exact readValue_le hread

theorem lawful_runtime : runtime.Lawful where
  int64 := lawful_varint (fun v ↦ by simp) fun v ↦ v.isLt
  int32 := lawful_varint (fun v ↦ by
    apply BitVec.eq_of_getLsbD_eq
    intro i hi
    simp [BitVec.getElem_signExtend, hi, show i < 64 by omega]) fun v ↦ (v.signExtend 64).isLt
  bool := lawful_varint (fun v ↦ by cases v <;> rfl) fun v ↦ by cases v <;> decide
  string := lawful_string
  atomic_int64 := atomic_varint
  atomic_int32 := atomic_varint
  atomic_bool := atomic_varint
  length_bool v := by cases v <;> rfl
  readTag_nil := rfl
  readTag_lt bs := by
    simp only [runtime, readTag]
    split
    · exact Nat.two_pow_pos 32
    · exact Nat.mod_lt _ (by decide)
  readTag_writeTag t rest _ ht := by
    simp only [runtime, readTag, decodeVarint_ten (Nat.lt_trans ht (by decide)), uint32_of_lt ht]
  length_writeTag t ht := by simp [runtime, encodeVarint, ht]
  expectTag_sound _ _ _ h := expectTag_sound h
  expectAtEnd_sound bs h := List.isEmpty_iff.mp h
  lengthSize_eq _ := rfl
  readLimited_write body rest hlen := by
    simp only [runtime, readLimited, toNat_ofNat_length hlen,
      decodeVarint_ten (Nat.lt_trans hlen (by decide)), hlen, if_true, pushLimit_append]
  readElement_write body rest hlen := by
    have hlt : body.length < 2 ^ 32 := Nat.lt_trans hlen (by decide)
    simp only [runtime, readElement, toNat_ofNat_length hlen,
      decodeVarint_ten (Nat.lt_trans hlen (by decide)), uint32_of_lt hlt, hlen, if_true,
      pushLimit_append]
  tagOf_skipField _ t bs us rest h u hu := by
    obtain ⟨v, hread, rfl⟩ := eq_of_skipField h
    rw [List.mem_singleton.mp hu]
    exact tagOf_of_readValue hread
  skips_of_skipField _ t bs us rest _ u _ rest' := skipField_write u rest'
  unknownSize_eq _ := rfl

theorem writesProto2_runtime : runtime.WritesProto2 where
  writeTag _ _ := rfl
  writeLength _ := rfl
  int64 _ := rfl
  int32 _ := rfl
  bool _ := rfl
  string v hlen := by
    simp only [runtime, string, uint32_of_lt (Nat.lt_trans hlen (by decide))]

end Kiteq.Lib.ArrayStream

import Kiteq.Lib.Proto2

/-!
# Coded streams

What generated message classes call of the runtime that reads and writes the wire: tags, lengths,
values of the primitive types, and fields that nobody knows.  The runtime is a parameter
(`WireFormat`), and `WireFormat.Lawful` says what is documented of it: what was written is read
back, and the two functions that look ahead are free to say no.

A stream is the list of the bytes that are left of it, up to the innermost limit.  Sizes are `int`s,
as they are in the generated code, and wrap.
-/

namespace Kiteq.Lib

/-- Bytes on the wire. -/
abbrev Octets := List (BitVec 8)

/-- A length that an `int` can hold. -/
theorem toNat_ofNat_length {bs : Octets} (h : bs.length < 2 ^ 31) :
    (BitVec.ofNat 32 bs.length).toNat = bs.length := by
  rw [BitVec.toNat_ofNat]
  exact Nat.mod_eq_of_lt (Nat.lt_trans h (by decide))

/-- The truncated sum is the sum of the truncated numbers. -/
theorem ofNat_sum {α : Type} (l : List α) (g : α → ℕ) :
    BitVec.ofNat 32 (l.map g).sum = (l.map fun x ↦ BitVec.ofNat 32 (g x)).sum := by
  induction l with
  | nil => rfl
  | cons x l ih => rw [List.map_cons, List.sum_cons, BitVec.ofNat_add, ih, List.map_cons,
      List.sum_cons]

/-! ## Values -/

/-- How values of a type are read into a variable, written, and measured. -/
structure Codec (α : Type) where
  /-- The variable after the read, and the rest of the input if the read has succeeded. -/
  read : α → Octets → α × Option Octets
  write : α → Octets
  size : α → BitVec 32
  rest_le : ∀ {v w : α} {bs rest : Octets}, read v bs = (w, some rest) → rest.length ≤ bs.length

namespace Codec

variable {α : Type}

/-- What was written is read back; and neither whether a value can be read nor which one it is
depends on what the variable held before. -/
structure Lawful (c : Codec α) : Prop where
  read_write : ∀ v w rest, (c.write w).length < 2 ^ 31 →
    c.read v (c.write w ++ rest) = (w, some rest)
  size_eq : ∀ v, c.size v = BitVec.ofNat 32 (c.write v).length
  read_snd : ∀ v v' bs, (c.read v bs).2 = (c.read v' bs).2
  read_fst : ∀ v v' bs, (c.read v bs).2.isSome = true → (c.read v bs).1 = (c.read v' bs).1

/-- A read that fails leaves the variable alone. -/
def Atomic (c : Codec α) : Prop := ∀ v bs, (c.read v bs).2 = none → (c.read v bs).1 = v

/-- The same codec, with values of a fixed size. -/
def sized (c : Codec α) (n : BitVec 32) : Codec α := { c with size := fun _ ↦ n }

theorem Lawful.sized {c : Codec α} (h : c.Lawful) {n : BitVec 32}
    (hn : ∀ v, BitVec.ofNat 32 (c.write v).length = n) : (c.sized n).Lawful where
  read_write := h.read_write
  size_eq v := (hn v).symm
  read_snd := h.read_snd
  read_fst := h.read_fst

end Codec

/-! ## Streams -/

/-- The functions of the runtime. -/
structure WireFormat where
  /-- Fields with a tag that the reader does not know. -/
  Unknown : Type
  int64 : Codec (BitVec 64)
  int32 : Codec (BitVec 32)
  bool : Codec Bool
  string : Codec Octets
  /-- The tag in front of a stream, `0` where there is none, and what is behind it. -/
  readTag : Octets → ℕ × Octets
  /-- Looks whether a tag comes next, and reads it if so. -/
  expectTag : ℕ → Octets → Option Octets
  /-- Looks whether the stream is at its end. -/
  expectAtEnd : Octets → Bool
  /-- A length, as many of so many bytes as there are, and what is behind them if all are there. -/
  readLimited : Octets → Option (Octets × Option Octets)
  /-- The same for an element of a repeated field, which the runtime reads by another function. -/
  readElement : Octets → Option (Octets × Option Octets)
  /-- The value of a field whose tag was read, nested to at most some depth: what was kept of it,
  and what is behind it if all of it was read. -/
  skipField : ℕ → ℕ → Octets → List Unknown × Option Octets
  writeTag : ℕ → Octets
  writeLength : BitVec 32 → Octets
  lengthSize : BitVec 32 → BitVec 32
  tagOf : Unknown → ℕ
  /-- The value of an unknown field, without its tag. -/
  writeUnknown : Unknown → Octets
  /-- The size of an unknown field, with its tag. -/
  unknownSize : Unknown → BitVec 32
  readTag_lt : ∀ {bs}, (readTag bs).1 ≠ 0 → (readTag bs).2.length < bs.length
  expectTag_lt : ∀ {t bs rest}, expectTag t bs = some rest → rest.length < bs.length
  readLimited_le : ∀ {bs body rest},
    readLimited bs = some (body, some rest) → rest.length ≤ bs.length
  readElement_le : ∀ {bs body rest},
    readElement bs = some (body, some rest) → rest.length ≤ bs.length
  skipField_le : ∀ {b t bs us rest}, skipField b t bs = (us, some rest) → rest.length ≤ bs.length

namespace WireFormat

/-- An unknown field, once written, is read back by `skipField` at this depth. -/
def Skips (W : WireFormat) (b : ℕ) (u : W.Unknown) : Prop :=
  ∀ rest, W.skipField b (W.tagOf u) (W.writeUnknown u ++ rest) = ([u], some rest)

/-- What is documented of the runtime. -/
structure Lawful (W : WireFormat) : Prop where
  int64 : W.int64.Lawful
  int32 : W.int32.Lawful
  bool : W.bool.Lawful
  string : W.string.Lawful
  atomic_int64 : W.int64.Atomic
  atomic_int32 : W.int32.Atomic
  atomic_bool : W.bool.Atomic
  length_bool : ∀ v, (W.bool.write v).length = 1
  readTag_nil : (W.readTag []).1 = 0
  readTag_lt : ∀ bs, (W.readTag bs).1 < 2 ^ 32
  readTag_writeTag : ∀ t rest, 0 < t → t < 2 ^ 32 → W.readTag (W.writeTag t ++ rest) = (t, rest)
  length_writeTag : ∀ t, t < 128 → (W.writeTag t).length = 1
  /-- `expectTag` may fail to see a tag, and sees none that is not there. -/
  expectTag_sound : ∀ t bs rest, W.expectTag t bs = some rest → W.readTag bs = (t, rest)
  /-- `expectAtEnd` may fail to see the end, and sees none before it. -/
  expectAtEnd_sound : ∀ bs, W.expectAtEnd bs = true → bs = []
  lengthSize_eq : ∀ n, W.lengthSize n = BitVec.ofNat 32 (W.writeLength n).length
  readLimited_write : ∀ body rest, body.length < 2 ^ 31 →
    W.readLimited (W.writeLength (BitVec.ofNat 32 body.length) ++ (body ++ rest)) =
      some (body, some rest)
  readElement_write : ∀ body rest, body.length < 2 ^ 31 →
    W.readElement (W.writeLength (BitVec.ofNat 32 body.length) ++ (body ++ rest)) =
      some (body, some rest)
  tagOf_skipField : ∀ b t bs us rest, W.skipField b t bs = (us, some rest) → ∀ u ∈ us, W.tagOf u = t
  skips_of_skipField : ∀ b t bs us rest, W.skipField b t bs = (us, some rest) →
    ∀ u ∈ us, W.Skips b u
  unknownSize_eq : ∀ u, W.unknownSize u =
    BitVec.ofNat 32 (W.writeTag (W.tagOf u) ++ W.writeUnknown u).length

/-- The same runtime where looking ahead never sees anything. -/
abbrev plain (W : WireFormat) : WireFormat := { W with
  expectTag := fun _ _ ↦ none
  expectAtEnd := fun _ ↦ false
  expectTag_lt := by simp }

theorem Lawful.plain {W : WireFormat} (h : W.Lawful) : W.plain.Lawful where
  int64 := h.int64
  int32 := h.int32
  bool := h.bool
  string := h.string
  atomic_int64 := h.atomic_int64
  atomic_int32 := h.atomic_int32
  atomic_bool := h.atomic_bool
  length_bool := h.length_bool
  readTag_nil := h.readTag_nil
  readTag_lt := h.readTag_lt
  readTag_writeTag := h.readTag_writeTag
  length_writeTag := h.length_writeTag
  expectTag_sound := by simp
  expectAtEnd_sound := by simp
  lengthSize_eq := h.lengthSize_eq
  readLimited_write := h.readLimited_write
  readElement_write := h.readElement_write
  tagOf_skipField := h.tagOf_skipField
  skips_of_skipField := h.skips_of_skipField
  unknownSize_eq := h.unknownSize_eq

/-- The runtime writes proto2: tags, lengths and numbers are varints, a negative `int32` has all 64
bits, and a string is behind its length. -/
structure WritesProto2 (W : WireFormat) : Prop where
  writeTag : ∀ t < 2 ^ 32, W.writeTag t = Proto2.encodeVarint 10 t
  writeLength : ∀ n, W.writeLength n = Proto2.encodeVarint 10 n.toNat
  int64 : ∀ v, W.int64.write v = Proto2.encodeVarint 10 v.toNat
  int32 : ∀ v, W.int32.write v = Proto2.encodeVarint 10 (v.signExtend 64).toNat
  bool : ∀ v, W.bool.write v = Proto2.encodeVarint 10 v.toNat
  string : ∀ v, v.length < 2 ^ 31 → W.string.write v = Proto2.encodeVarint 10 v.length ++ v

/-- An unknown field with its tag. -/
def writeField (W : WireFormat) (u : W.Unknown) : Octets :=
  W.writeTag (W.tagOf u) ++ W.writeUnknown u

end WireFormat

end Kiteq.Lib

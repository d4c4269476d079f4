import Mathlib.Data.BitVec

/-!
# The C++ the client is written in

The integer types of the client on its target, where `char` is signed, `int` has 32 bits and
`long` has 64, are bit vectors under their C++ names.  Signed comparisons go through
`BitVec.toInt`, conversions are `signExtend` and `setWidth`, and arithmetic wraps.

`Platform` gathers what the language and its library leave to the implementation.  It is a
parameter of every definition that depends on it, so that no result rests on a choice one
compiler makes.

A `const char *` is the memory behind it (`Mem`), and a function that reads through one runs
in `Peek`, which records every access: staying inside a frame is then a property of the
recorded accesses.
-/

namespace Kiteq

/-- `char`, signed on this target. -/
abbrev CChar := BitVec 8

/-- `short`. -/
abbrev CShort := BitVec 16

/-- `int`. -/
abbrev CInt := BitVec 32

/-- `unsigned int`. -/
abbrev CUInt := BitVec 32

/-- `long` and `long long`. -/
abbrev CLong := BitVec 64

/-- The signed value of a word that is not negative is its unsigned value. -/
theorem toInt_eq_toNat_of_nonneg {w : ℕ} {x : BitVec w} (h : 0 ≤ x.toInt) :
    x.toInt = x.toNat := by
  have := BitVec.toInt_eq_toNat_cond x
  have := x.isLt
  split at * <;> omega

theorem toNat_eq_of_toInt_eq {w : ℕ} {x : BitVec w} {n : ℕ} (h : x.toInt = n) : x.toNat = n := by
  have := toInt_eq_toNat_of_nonneg (x := x) (by omega)
  omega

theorem eq_ofNat_of_toInt_eq {w : ℕ} {x : BitVec w} {n : ℕ} (h : x.toInt = n) :
    x = BitVec.ofNat w n := by
  rw [← toNat_eq_of_toInt_eq h, BitVec.ofNat_toNat, BitVec.setWidth_eq]

/-- An `int` holds every natural number up to `INT_MAX`. -/
theorem toInt_ofNat_of_lt {n : ℕ} (h : n < 2 ^ 31) : (BitVec.ofNat 32 n).toInt = n := by
  rw [BitVec.toInt_ofNat']
  exact Int.bmod_eq_of_le (by omega) (by omega)

/-- The truncated difference of a number and an `int` that may have wrapped is the true one,
truncated. -/
theorem ofInt_sub_toInt_ofNat {c k : ℕ} (h : k ≤ c) :
    BitVec.ofInt 32 (c - (BitVec.ofNat 32 k).toInt) = BitVec.ofNat 32 (c - k) := by
  have hsum : BitVec.ofInt 32 (c - (BitVec.ofNat 32 k).toInt) + BitVec.ofNat 32 k =
      BitVec.ofNat 32 (c - k) + BitVec.ofNat 32 k := by
    calc BitVec.ofInt 32 (c - (BitVec.ofNat 32 k).toInt) + BitVec.ofNat 32 k
        = BitVec.ofInt 32 (c - (BitVec.ofNat 32 k).toInt + (BitVec.ofNat 32 k).toInt) := by
          rw [BitVec.ofInt_add, BitVec.ofInt_toInt]
      _ = BitVec.ofNat 32 c := by rw [Int.sub_add_cancel, BitVec.ofInt_natCast]
      _ = BitVec.ofNat 32 (c - k) + BitVec.ofNat 32 k := by
          rw [← BitVec.ofNat_add, Nat.sub_add_cancel h]
  exact (BitVec.add_left_inj _).mp hsum

/-- What the language standard and the C++ library leave open. -/
structure Platform where
  /-- The value of an `unsigned int` shifted left by its width or more, which the standard
  does not define. -/
  wideShl : CUInt → ℕ → CUInt
  /-- Zero stays zero however far it is shifted. -/
  wideShl_zero : ∀ k, wideShl 0 k = 0
  /-- The capacity `push_back` gives a full vector. -/
  grow : ℕ → ℕ
  lt_grow : ∀ c, c < grow c
  /-- `push_back` at least doubles the capacity of a full vector. -/
  two_mul_le_grow : ∀ c, 2 * c ≤ grow c
  /-- The content of memory that nothing has been stored in. -/
  fresh : ℕ → CChar

/-- `x << k` on `unsigned int`. -/
def Platform.shl (E : Platform) (x : CUInt) (k : ℕ) : CUInt :=
  if k < 32 then x <<< k else E.wideShl x k

theorem Platform.shl_of_lt (E : Platform) (x : CUInt) {k : ℕ} (h : k < 32) :
    E.shl x k = x <<< k := if_pos h

@[simp] theorem Platform.shl_zero_left (E : Platform) (k : ℕ) : E.shl 0 k = 0 := by
  by_cases h : k < 32
  · rw [E.shl_of_lt 0 h]
    simp
  · rw [Platform.shl, if_neg h, E.wideShl_zero]

/-- The compiler the client is built with: a shift that is too wide gives zero, a full vector
doubles, memory starts out zeroed. -/
def Platform.gcc : Platform where
  wideShl _ _ := 0
  wideShl_zero _ := rfl
  grow c := max 1 (2 * c)
  lt_grow c := by omega
  two_mul_le_grow c := by omega
  fresh _ := 0

/-! ## Memory behind a pointer -/

/-- The memory a `const char *` points to, by offset. -/
abbrev Mem := ℕ → CChar

namespace Mem

/-- The memory at `p + k`. -/
def shift (p : Mem) (k : ℕ) : Mem := fun i ↦ p (k + i)

/-- The `n` bytes from offset `off` on. -/
def slice (p : Mem) (off n : ℕ) : List CChar := (List.range n).map fun i ↦ p (off + i)

/-- The memory begins with the given bytes. -/
def Holds (p : Mem) (bs : List CChar) : Prop := ∀ i (h : i < bs.length), p i = bs[i]

@[simp] theorem shift_apply (p : Mem) (k i : ℕ) : p.shift k i = p (k + i) := rfl

@[simp] theorem length_slice (p : Mem) (off n : ℕ) : (p.slice off n).length = n := by
  simp [slice]

theorem Holds.slice_zero {p : Mem} {bs : List CChar} (h : p.Holds bs) :
    p.slice 0 bs.length = bs := by
  apply List.ext_getElem
  · simp
  · intro i hi hi'
    simpa [slice] using h i hi'

theorem holds_slice (p : Mem) (n : ℕ) : p.Holds (p.slice 0 n) := by
  intro i hi
  simp [slice]

/-- Two strings of one length held at one place are equal. -/
theorem Holds.eq_of_length_eq {p : Mem} {bs cs : List CChar} (hb : p.Holds bs)
    (hc : p.Holds cs) (h : bs.length = cs.length) : bs = cs := by
  rw [← hb.slice_zero, ← hc.slice_zero, h]

/-- The shorter of two strings held at one place begins the longer one. -/
theorem Holds.prefix_of_le {p : Mem} {bs cs : List CChar} (hb : p.Holds bs) (hc : p.Holds cs)
    (h : bs.length ≤ cs.length) : bs <+: cs := by
  rw [List.prefix_iff_eq_take]
  apply List.ext_getElem
  · simpa using h
  · intro i hi hi'
    rw [List.getElem_take, ← hb i hi, hc i (by omega)]

theorem Holds.of_append {p : Mem} {bs cs : List CChar} (h : p.Holds (bs ++ cs)) :
    p.Holds bs := by
  intro i hi
  rw [h i (by simp; omega), List.getElem_append_left hi]

theorem Holds.shift_of_append {p : Mem} {bs cs : List CChar} (h : p.Holds (bs ++ cs)) :
    (p.shift bs.length).Holds cs := by
  intro i hi
  rw [shift_apply, h (bs.length + i) (by simp; omega), List.getElem_append_right (by omega)]
  simp

/-- The bytes of a block that follows `as` in a held string. -/
theorem Holds.slice_of_append {p : Mem} {as bs cs : List CChar} {off n : ℕ}
    (h : p.Holds (as ++ (bs ++ cs))) (hoff : as.length = off) (hn : bs.length = n) :
    p.slice off n = bs := by
  subst hoff hn
  have hbs : (p.shift as.length).Holds bs := h.shift_of_append.of_append
  simpa [slice] using hbs.slice_zero

theorem Holds.apply_of_append {p : Mem} {as cs : List CChar} {c : CChar} {off : ℕ}
    (h : p.Holds (as ++ c :: cs)) (hoff : as.length = off) : p off = c := by
  subst hoff
  simpa using h as.length (by simp)

end Mem

/-- The memory behind a pointer to the first of some bytes. -/
def Platform.memory (E : Platform) (bs : List CChar) : Mem := fun i ↦ bs.getD i (E.fresh i)

theorem Platform.holds_memory (E : Platform) (bs : List CChar) : (E.memory bs).Holds bs := by
  intro i hi
  simp [memory, hi]

theorem Platform.memory_of_lt (E : Platform) {bs : List CChar} {i : ℕ} (h : i < bs.length) :
    E.memory bs i = bs[i] := E.holds_memory bs i h

/-- An access through a pointer: one byte, or a range handed to a callee. -/
inductive Access where
  | byte (offset : ℕ)
  | slice (offset : ℕ) (size : CInt)
deriving DecidableEq, Repr

/-- A computation that reads through pointers, with the accesses it makes. -/
abbrev Peek := StateM (List Access)

/-- `p[i]`. -/
def load (p : Mem) (i : ℕ) : Peek CChar := fun log ↦ (p i, log ++ [.byte i])

theorem Peek.map_apply {α β : Type} (f : α → β) (x : Peek α) (log : List Access) :
    (f <$> x) log = (f (x log).1, (x log).2) := rfl

theorem Peek.bind_apply {α β : Type} (x : Peek α) (f : α → Peek β) (log : List Access) :
    (x >>= f) log = f (x log).1 (x log).2 := rfl

end Kiteq

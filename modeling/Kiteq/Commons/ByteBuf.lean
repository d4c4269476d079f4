import Kiteq.Commons.Vector
import Kiteq.Lib.BigEndian
import Mathlib.Tactic.IntervalCases

/-!
# `ByteBuf`

The byte buffer of `commons/ByteBuf.hpp`: static readers over foreign memory, writers that
`push_back` shifted and masked bytes, and a raw write pointer into the reserved block.  The
reader and writer indices are `int`s kept beside the vector, and the functions below move them
exactly where the source does.

The lemmas after the definitions give each function its meaning in terms of
`Kiteq.Lib.BigEndian`: a writer appends `bytes`, a reader returns `value`.  `readLong` is the
exception: it shifts 32-bit values by up to 56.
-/

namespace Kiteq

open Lib.BigEndian

structure ByteBuf where
  buff : Vec
  readerIndex : CInt
  writerIndex : CInt
deriving DecidableEq

namespace ByteBuf

variable (E : Platform)

/-! ## Static readers -/

/-- `static char readByte(const char *)`. -/
def readByteAt (p : Mem) (off : ℕ) : Peek CChar := load p off

/-- `static short readShort(const char *)`. -/
def readShortAt (p : Mem) (off : ℕ) : Peek CShort := do
  let c1 : CUInt := (← load p off).signExtend 32
  let c2 : CUInt := (← load p (off + 1)).signExtend 32
  return (E.shl (c1 &&& 0xFF#32) 8 ||| (c2 &&& 0xFF#32)).setWidth 16

/-- `static int readInt(const char *)`. -/
def readIntAt (p : Mem) (off : ℕ) : Peek CInt := do
  let c1 : CUInt := (← load p off).signExtend 32
  let c2 : CUInt := (← load p (off + 1)).signExtend 32
  let c3 : CUInt := (← load p (off + 2)).signExtend 32
  let c4 : CUInt := (← load p (off + 3)).signExtend 32
  return E.shl (c1 &&& 0xFF#32) 24 ||| E.shl (c2 &&& 0xFF#32) 16 |||
    E.shl (c3 &&& 0xFF#32) 8 ||| (c4 &&& 0xFF#32)

/-- `static long long readLong(const char *)`: the shifts are those of `unsigned int`, and the
result is widened only afterwards. -/
def readLongAt (p : Mem) (off : ℕ) : Peek CLong := do
  let c1 : CUInt := (← load p off).signExtend 32
  let c2 : CUInt := (← load p (off + 1)).signExtend 32
  let c3 : CUInt := (← load p (off + 2)).signExtend 32
  let c4 : CUInt := (← load p (off + 3)).signExtend 32
  let c5 : CUInt := (← load p (off + 4)).signExtend 32
  let c6 : CUInt := (← load p (off + 5)).signExtend 32
  let c7 : CUInt := (← load p (off + 6)).signExtend 32
  let c8 : CUInt := (← load p (off + 7)).signExtend 32
  return (E.shl (c1 &&& 0xFF#32) 56 ||| E.shl (c2 &&& 0xFF#32) 48 |||
    E.shl (c3 &&& 0xFF#32) 40 ||| E.shl (c4 &&& 0xFF#32) 32 ||| E.shl (c5 &&& 0xFF#32) 24 |||
    E.shl (c6 &&& 0xFF#32) 16 ||| E.shl (c7 &&& 0xFF#32) 8 ||| (c8 &&& 0xFF#32)).setWidth 64

/-! ## Construction, capacity and pointers -/

/-- `ByteBuf()`. -/
def empty : ByteBuf := ⟨.empty, 0, 0⟩

variable (b : ByteBuf)

/-- `buff.reserve(size + 1)`, `none` when the argument is out of range and `reserve` throws
`std::length_error`: a negative `int` becomes a huge `size_t`. -/
def resize (size : CInt) : Option ByteBuf :=
  let k := (size + 1#32).toInt
  if k < 0 then none else some { b with buff := b.buff.reserve E k.toNat }

/-- `ByteBuf(int size)`. -/
def ofSize (size : CInt) : Option ByteBuf := empty.resize E size

/-- `long size()`. -/
def size : ℤ := b.buff.size

def clear : ByteBuf := { b with buff := b.buff.clear }

/-- `char *getWritePtr(int len)`: the cell the returned pointer points to, `none` for `NULL`. -/
def getWritePtr (len : CInt) : Option ℕ :=
  if (BitVec.ofInt 32 (b.buff.capacity - b.writerIndex.toInt)).toInt < len.toInt then none
  else some b.writerIndex.toNat

def addWriterIndex (s : CInt) : ByteBuf := { b with writerIndex := b.writerIndex + s }

/-- `char *getBuffPtr()`, as the memory behind it. -/
def getBuffPtr : Mem := E.memory b.buff.block

/-- Bytes stored through a pointer obtained from `getWritePtr`. -/
def storeAt (cell : ℕ) (cs : List CChar) : ByteBuf := { b with buff := b.buff.store cell cs }

/-! ## Member readers -/

/-- `char readByte()`. -/
def readByte : CChar × ByteBuf :=
  (b.getBuffPtr E b.readerIndex.toNat, { b with readerIndex := b.readerIndex + 1 })

/-- `int readInt()`. -/
def readInt : CInt × ByteBuf :=
  let (c1, b) := b.readByte E
  let (c2, b) := b.readByte E
  let (c3, b) := b.readByte E
  let (c4, b) := b.readByte E
  (((c1.signExtend 32 &&& 0xFF#32) <<< 24) ||| ((c2.signExtend 32 &&& 0xFF#32) <<< 16) |||
    ((c3.signExtend 32 &&& 0xFF#32) <<< 8) ||| (c4.signExtend 32 &&& 0xFF#32), b)

/-- `long readableBytes()`. -/
def readableBytes : ℤ := b.buff.size - b.readerIndex.toInt

/-! ## Writers -/

def writeByte (c : CChar) : ByteBuf :=
  { b with buff := b.buff.push_back E c, writerIndex := b.writerIndex + 1 }

def writeShort (i : CShort) : ByteBuf :=
  let c1 : CChar := ((i.signExtend 32).sshiftRight 8 &&& 0xFF#32).setWidth 8
  let c2 : CChar := (i.signExtend 32 &&& 0xFF#32).setWidth 8
  { b with buff := (b.buff.push_back E c1).push_back E c2, writerIndex := b.writerIndex + 2 }

def writeInt (i : CInt) : ByteBuf :=
  let c1 : CChar := (i.sshiftRight 24 &&& 0xFF#32).setWidth 8
  let c2 : CChar := (i.sshiftRight 16 &&& 0xFF#32).setWidth 8
  let c3 : CChar := (i.sshiftRight 8 &&& 0xFF#32).setWidth 8
  let c4 : CChar := (i &&& 0xFF#32).setWidth 8
  { b with
    buff := (((b.buff.push_back E c1).push_back E c2).push_back E c3).push_back E c4
    writerIndex := b.writerIndex + 4 }

def writeLong (i : CLong) : ByteBuf :=
  let c1 : CChar := (i.sshiftRight 56 &&& 0xFF#64).setWidth 8
  let c2 : CChar := (i.sshiftRight 48 &&& 0xFF#64).setWidth 8
  let c3 : CChar := (i.sshiftRight 40 &&& 0xFF#64).setWidth 8
  let c4 : CChar := (i.sshiftRight 32 &&& 0xFF#64).setWidth 8
  let c5 : CChar := (i.sshiftRight 24 &&& 0xFF#64).setWidth 8
  let c6 : CChar := (i.sshiftRight 16 &&& 0xFF#64).setWidth 8
  let c7 : CChar := (i.sshiftRight 8 &&& 0xFF#64).setWidth 8
  let c8 : CChar := (i &&& 0xFF#64).setWidth 8
  { b with
    buff := (((((((b.buff.push_back E c1).push_back E c2).push_back E c3).push_back E c4).push_back
      E c5).push_back E c6).push_back E c7).push_back E c8
    writerIndex := b.writerIndex + 8 }

/-- `writeBytes(const char *b, int num)`. -/
def writeBytes (p : Mem) (num : CInt) : ByteBuf :=
  if num.toInt ≤ 0 then b
  else { b with
    buff := (List.range num.toNat).foldl (fun v i ↦ v.push_back E (p i)) b.buff
    writerIndex := b.writerIndex + num }

/-! ## What the writers do

Every writer appends a byte string and moves the writer index by its length. -/

/-- The buffer with a byte string appended. -/
def append (cs : List CChar) : ByteBuf :=
  { b with buff := b.buff.pushes E cs, writerIndex := b.writerIndex + BitVec.ofNat 32 cs.length }

@[simp] theorem data_append (cs : List CChar) :
    (b.append E cs).buff.data = b.buff.data ++ cs := Vec.data_pushes ..

@[simp] theorem size_append (cs : List CChar) :
    (b.append E cs).buff.size = b.buff.size + cs.length := Vec.size_pushes ..

@[simp] theorem writerIndex_append (cs : List CChar) :
    (b.append E cs).writerIndex = b.writerIndex + BitVec.ofNat 32 cs.length := rfl

theorem append_append (cs ds : List CChar) :
    (b.append E cs).append E ds = b.append E (cs ++ ds) := by
  simp only [append, Vec.pushes_append, List.length_append, BitVec.ofNat_add, BitVec.add_assoc]

theorem capacity_append {cs : List CChar} (h : b.buff.size + cs.length ≤ b.buff.capacity) :
    (b.append E cs).buff.capacity = b.buff.capacity := Vec.capacity_pushes E _ h

/-- The byte a writer extracts by an arithmetic shift and a mask is the byte at that position:
the shift brings in sign bits only above it. -/
theorem sshiftRight_and_setWidth {w : ℕ} (x : BitVec w) {k : ℕ} (h : k + 8 ≤ w) :
    (x.sshiftRight k &&& 0xFF#w).setWidth 8 = (x >>> k).setWidth 8 := by
  apply BitVec.eq_of_getLsbD_eq
  intro i hi
  have hiw : i < w := by omega
  have hki : k + i < w := by omega
  have hones : (0xFF : ℕ).testBit i = true := by interval_cases i <;> rfl
  have hmask : (0xFF#w)[i] = true := by
    rw [← BitVec.getLsbD_eq_getElem, BitVec.getLsbD_ofNat]
    simp [hiw, hones]
  simp [BitVec.getElem_sshiftRight, hi, hiw, hki, hmask]

theorem and_setWidth {w : ℕ} (x : BitVec w) (h : 8 ≤ w) :
    (x &&& 0xFF#w).setWidth 8 = x.setWidth 8 := by
  simpa using sshiftRight_and_setWidth x (k := 0) (by omega)

theorem writeByte_eq_append (c : CChar) : b.writeByte E c = b.append E [c] := rfl

theorem writeShort_eq_append (i : CShort) : b.writeShort E i = b.append E (bytes 2 i) := by
  have hhigh : ((i.signExtend 32) >>> 8).setWidth 8 = (i >>> 8).setWidth 8 := by
    apply BitVec.eq_of_getLsbD_eq
    intro j hj
    have h16 : 8 + j < 16 := by omega
    have h32 : 8 + j < 32 := by omega
    simp [BitVec.getElem_signExtend, hj, h16, h32]
  have hlow : (i.signExtend 32).setWidth 8 = i.setWidth 8 := by
    apply BitVec.eq_of_getLsbD_eq
    intro j hj
    have h16 : j < 16 := by omega
    have h32 : j < 32 := by omega
    simp [BitVec.getElem_signExtend, hj, h16, h32]
  simp only [writeShort, sshiftRight_and_setWidth (i.signExtend 32) (k := 8) (by omega),
    and_setWidth (i.signExtend 32) (by omega), hhigh, hlow]
  rfl

theorem writeInt_eq_append (i : CInt) : b.writeInt E i = b.append E (bytes 4 i) := by
  simp only [writeInt, and_setWidth i (by omega),
    sshiftRight_and_setWidth i (k := 24) (by omega),
    sshiftRight_and_setWidth i (k := 16) (by omega),
    sshiftRight_and_setWidth i (k := 8) (by omega)]
  simp [append, bytes, Vec.pushes_cons]

theorem writeLong_eq_append (i : CLong) : b.writeLong E i = b.append E (bytes 8 i) := by
  simp only [writeLong, and_setWidth i (by omega),
    sshiftRight_and_setWidth i (k := 56) (by omega),
    sshiftRight_and_setWidth i (k := 48) (by omega),
    sshiftRight_and_setWidth i (k := 40) (by omega),
    sshiftRight_and_setWidth i (k := 32) (by omega),
    sshiftRight_and_setWidth i (k := 24) (by omega),
    sshiftRight_and_setWidth i (k := 16) (by omega),
    sshiftRight_and_setWidth i (k := 8) (by omega)]
  simp [append, bytes, Vec.pushes_cons]

/-- `writeBytes` appends the bytes it is pointed at. -/
theorem writeBytes_eq_append {p : Mem} {num : CInt} {cs : List CChar} (hp : p.Holds cs)
    (hnum : num.toInt = cs.length) : b.writeBytes E p num = b.append E cs := by
  have hnat : num.toNat = cs.length := by
    have := BitVec.toInt_eq_toNat_cond num
    have := num.isLt
    split at * <;> omega
  by_cases h0 : num.toInt ≤ 0
  · have : cs = [] := List.eq_nil_of_length_eq_zero (by omega)
    subst this
    simp [writeBytes, h0, append]
  · have hmap : (List.range num.toNat).map p = cs := by
      simpa [Mem.slice, hnat] using hp.slice_zero
    have hof : BitVec.ofNat 32 cs.length = num := by
      rw [← hnat, BitVec.ofNat_toNat, BitVec.setWidth_eq]
    rw [writeBytes, if_neg h0, append, hof, Vec.pushes, ← hmap, List.foldl_map]

/-- A write pointer is handed out when the free part of the block is large enough. -/
theorem getWritePtr_of_room {len : CInt} {k w : ℕ} (hk : b.buff.capacity - w = k)
    (hwle : w ≤ b.buff.capacity) (hw : b.writerIndex.toInt = w) (hlt : k < 2 ^ 31)
    (hlen : len.toInt ≤ k) : b.getWritePtr len = some w := by
  have hroom : (b.buff.capacity : ℤ) - b.writerIndex.toInt = k := by omega
  have hk' : (BitVec.ofInt 32 (k : ℤ)).toInt = k := by
    rw [BitVec.toInt_ofInt]
    exact Int.bmod_eq_of_le (by omega) (by omega)
  have hnat : b.writerIndex.toNat = w := by
    have := BitVec.toInt_eq_toNat_cond b.writerIndex
    have := b.writerIndex.isLt
    split at * <;> omega
  rw [getWritePtr, hroom, hk', if_neg (by omega), hnat]

/-- What is stored through the pointer to the first cell is found behind `getBuffPtr`. -/
theorem holds_getBuffPtr_storeAt {cs : List CChar} (h : cs.length ≤ b.buff.capacity) :
    ((b.storeAt 0 cs).getBuffPtr E).Holds cs := by
  intro i hi
  have hblock : (b.storeAt 0 cs).buff.block = cs ++ b.buff.block.drop cs.length := by
    have hfit : 0 + cs.length ≤ b.buff.block.length := by simpa [Vec.capacity] using h
    simpa [storeAt, Vec.store] using Vec.storeFrom_eq hfit
  rw [getBuffPtr, E.memory_of_lt (by simp [hblock]; omega)]
  simp [hblock, hi]

/-- The live bytes are found behind `getBuffPtr`. -/
theorem holds_getBuffPtr_data : (b.getBuffPtr E).Holds b.buff.data := by
  intro i hi
  have hsize : i < b.buff.size := by simpa using hi
  have hblock : i < b.buff.block.length := Nat.lt_of_lt_of_le hsize b.buff.size_le
  simp [getBuffPtr, Vec.data, E.memory_of_lt hblock]

/-- `resize` with an argument that does not overflow reserves one cell more. -/
theorem resize_of_nonneg {size : CInt} {k : ℕ} (hsize : size.toInt = k) (hk : k + 1 < 2 ^ 31) :
    b.resize E size = some { b with buff := b.buff.reserve E (k + 1) } := by
  have hsucc : (size + 1#32).toInt = k + 1 := by
    rw [BitVec.toInt_add, hsize]
    exact Int.bmod_eq_of_le (by simp; omega) (by simp; omega)
  rw [resize]
  simp only [hsucc]
  rw [if_neg (by omega)]
  rfl

/-- `resize(INT_MAX)` overflows to a negative capacity and throws. -/
theorem resize_intMax {size : CInt} (hsize : size.toInt = 2 ^ 31 - 1) :
    b.resize E size = none := by
  have hsucc : (size + 1#32).toInt = -2 ^ 31 := by
    rw [BitVec.toInt_add, hsize]
    rfl
  rw [resize]
  simp only [hsucc]
  rfl

/-- `resize` changes the block and nothing else. -/
theorem resize_eq_some {size : CInt} {b' : ByteBuf} (h : b.resize E size = some b') :
    b'.buff.data = b.buff.data ∧ b'.writerIndex = b.writerIndex := by
  rw [resize] at h
  split at h
  · cases h
  · cases h
    exact ⟨Vec.data_reserve E b.buff _, rfl⟩

/-! ## What the readers return -/

/-- Masking a sign-extended `char` recovers the byte. -/
theorem signExtend_and (c : CChar) : c.signExtend 32 &&& 0xFF#32 = c.setWidth 32 := by
  revert c
  decide +kernel

theorem toNat_append_eq {v w : ℕ} (x : BitVec v) (y : BitVec w) :
    (x ++ y).toNat = x.toNat * 2 ^ w + y.toNat := by
  rw [BitVec.toNat_append, ← Nat.shiftLeft_add_eq_or_of_lt y.isLt, Nat.shiftLeft_eq]

/-- Four masked and shifted bytes, joined by `|`, spell the word of their big-endian value. -/
theorem or_shl_eq_ofNat_value (c1 c2 c3 c4 : CChar) :
    c1.setWidth 32 <<< 24 ||| c2.setWidth 32 <<< 16 ||| c3.setWidth 32 <<< 8 |||
      c4.setWidth 32 = BitVec.ofNat 32 (value [c1, c2, c3, c4]) := by
  have hcat : c1.setWidth 32 <<< 24 ||| c2.setWidth 32 <<< 16 ||| c3.setWidth 32 <<< 8 |||
      c4.setWidth 32 = c1 ++ c2 ++ c3 ++ c4 := by
    apply BitVec.eq_of_getLsbD_eq
    intro i hi
    simp only [BitVec.getLsbD_or, BitVec.getLsbD_shiftLeft, BitVec.getLsbD_setWidth,
      BitVec.getLsbD_append]
    grind
  apply BitVec.eq_of_toNat_eq
  have hlt := value_lt [c1, c2, c3, c4]
  rw [hcat, BitVec.toNat_ofNat, Nat.mod_eq_of_lt (by simpa using hlt)]
  simp only [toNat_append_eq, value_cons, value_nil, List.length_cons, List.length_nil]
  omega

/-- The accesses of a reader of `n` bytes at `off`. -/
def touched (off n : ℕ) : List Access := (List.range n).map fun i ↦ .byte (off + i)

theorem readByteAt_eq (p : Mem) (off : ℕ) :
    readByteAt p off = fun log ↦ (p off, log ++ touched off 1) := rfl

theorem readIntAt_eq (p : Mem) (off : ℕ) : readIntAt E p off = fun log ↦
    (BitVec.ofNat 32 (value (p.slice off 4)), log ++ touched off 4) := by
  have hval : value (p.slice off 4) = value [p off, p (off + 1), p (off + 2), p (off + 3)] := rfl
  funext log
  rw [hval, ← or_shl_eq_ofNat_value]
  simp only [← signExtend_and]
  simp [readIntAt, load, touched, List.range_succ, E.shl_of_lt, Peek.bind_apply,
    Peek.map_apply]

theorem readShortAt_eq (p : Mem) (off : ℕ) : readShortAt E p off = fun log ↦
    (BitVec.ofNat 16 (value (p.slice off 2)), log ++ touched off 2) := by
  have hval : BitVec.ofNat 16 (value (p.slice off 2)) =
      (BitVec.ofNat 32 (value [0, 0, p off, p (off + 1)])).setWidth 16 := by
    have : value [0, 0, p off, p (off + 1)] = value (p.slice off 2) := by
      simp [value_cons, Mem.slice, List.range_succ]
    rw [this, BitVec.setWidth_ofNat_of_le (by omega)]
  funext log
  rw [hval, ← or_shl_eq_ofNat_value]
  simp only [← signExtend_and]
  simp [readShortAt, load, touched, List.range_succ, E.shl_of_lt, Peek.bind_apply,
    Peek.map_apply]

/-- What `readLong` makes of the eight bytes at `off`. -/
def longValue (p : Mem) (off : ℕ) : CLong :=
  (E.shl ((p off).setWidth 32) 56 ||| E.shl ((p (off + 1)).setWidth 32) 48 |||
    E.shl ((p (off + 2)).setWidth 32) 40 ||| E.shl ((p (off + 3)).setWidth 32) 32 |||
    E.shl ((p (off + 4)).setWidth 32) 24 ||| E.shl ((p (off + 5)).setWidth 32) 16 |||
    E.shl ((p (off + 6)).setWidth 32) 8 ||| (p (off + 7)).setWidth 32).setWidth 64

theorem readLongAt_eq (p : Mem) (off : ℕ) : readLongAt E p off = fun log ↦
    (longValue E p off, log ++ touched off 8) := by
  funext log
  simp only [longValue, ← signExtend_and]
  simp [readLongAt, load, touched, List.range_succ, Peek.bind_apply, Peek.map_apply]

/-- `readLong` never returns more than 32 bits. -/
theorem toNat_longValue_lt (p : Mem) (off : ℕ) : (longValue E p off).toNat < 2 ^ 32 := by
  rw [longValue, BitVec.toNat_setWidth]
  exact Nat.lt_of_le_of_lt (Nat.mod_le _ _) (BitVec.isLt _)

/-- When the high four bytes are zero, no shift of `readLong` is too wide for anything but
zero, and the low four bytes are read as by `readInt`. -/
theorem longValue_of_high_eq_zero {p : Mem} {off : ℕ} (h : ∀ i < 4, p (off + i) = 0) :
    longValue E p off = BitVec.ofNat 64 (value (p.slice (off + 4) 4)) := by
  have h0 := h 0 (by omega)
  have hlow := or_shl_eq_ofNat_value (p (off + 4)) (p (off + 5)) (p (off + 6)) (p (off + 7))
  have hlt : value (p.slice (off + 4) 4) < 2 ^ 32 := by
    simpa using value_lt (p.slice (off + 4) 4)
  have hslice : [p (off + 4), p (off + 5), p (off + 6), p (off + 7)] = p.slice (off + 4) 4 := by
    simp [Mem.slice, List.range_succ, Nat.add_assoc]
  rw [hslice] at hlow
  rw [Nat.add_zero] at h0
  simp only [longValue, h0, h 1 (by omega), h 2 (by omega), h 3 (by omega)]
  simp only [BitVec.ofNat_eq_ofNat, BitVec.setWidth_zero]
  have hz (k : ℕ) : E.shl 0#32 k = 0#32 := E.shl_zero_left k
  simp only [hz, E.shl_of_lt _ (show 24 < 32 by omega), E.shl_of_lt _ (show 16 < 32 by omega),
    E.shl_of_lt _ (show 8 < 32 by omega), BitVec.zero_or, hlow]
  apply BitVec.eq_of_toNat_eq
  simp only [BitVec.toNat_setWidth, BitVec.toNat_ofNat]
  omega

end ByteBuf

end Kiteq

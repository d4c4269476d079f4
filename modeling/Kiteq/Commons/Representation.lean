import Kiteq.Commons.ByteBuf
import Kiteq.Lib.System

/-!
# The representation of a `ByteBuf`

A buffer keeps its size twice, as the size of the vector and as `writerIndex`, and measures what
can be read by the first.  The writers move both together.  Two operations do not: `clear` empties
the vector and leaves the indices, and bytes that are stored through `getWritePtr` and announced by
`addWriterIndex` never become elements of the vector.

`buffer` is the transition system of one buffer, with the bytes written and read since it was last
cleared as history.  `represented_iff_of_run` says in which runs the indices mean what the writers
and readers take them to mean.
-/

namespace Kiteq

open Lib System Lib.BigEndian

/-! ## Operations -/

inductive BufferAction where
  | writeByte (c : CChar)
  | writeShort (i : CShort)
  | writeInt (i : CInt)
  | writeLong (i : CLong)
  | writeBytes (p : Mem) (num : CInt)
  /-- `k` bytes stored through a pointer from `getWritePtr(k)`, and `addWriterIndex(k)`. -/
  | direct (cs : List CChar)
  | resize (size : CInt)
  | clear
  /-- `readByte()`, where there is a byte to read. -/
  | readByte
  /-- `readInt()`, where there are four. -/
  | readInt
  | readableBytes
  | size

/-- What an operation returns. -/
inductive Reply where
  | void
  | char (c : CChar)
  | int (i : CInt)
  | long (n : ℤ)
  /-- `std::length_error`. -/
  | threw
deriving DecidableEq

/-- The bytes an operation writes. -/
def BufferAction.written : BufferAction → List CChar
  | .writeByte c => [c]
  | .writeShort i => bytes 2 i
  | .writeInt i => bytes 4 i
  | .writeLong i => bytes 8 i
  | .writeBytes p num => p.slice 0 num.toInt.toNat
  | .direct cs => cs
  | _ => []

/-- The operations that append what they write. -/
def BufferAction.appends : BufferAction → Bool
  | .writeByte _ | .writeShort _ | .writeInt _ | .writeLong _ | .writeBytes _ _ => true
  | _ => false

/-- The bytes a reader has returned. -/
def Reply.read : Reply → List CChar
  | .char c => [c]
  | .int i => bytes 4 i
  | _ => []

namespace ByteBuf

variable (E : Platform)

/-- `k` bytes stored through a pointer that `getWritePtr(k)` has returned, and
`addWriterIndex(k)`. -/
def writeDirect (b : ByteBuf) (cs : List CChar) : Option ByteBuf :=
  (b.getWritePtr (BitVec.ofNat 32 cs.length)).map fun cell ↦
    (b.storeAt cell cs).addWriterIndex (BitVec.ofNat 32 cs.length)

/-- An operation on a buffer, `none` where it is not to be called. -/
def perform (b : ByteBuf) : BufferAction → Option (Reply × ByteBuf)
  | .writeByte c => some (.void, b.writeByte E c)
  | .writeShort i => some (.void, b.writeShort E i)
  | .writeInt i => some (.void, b.writeInt E i)
  | .writeLong i => some (.void, b.writeLong E i)
  | .writeBytes p num => some (.void, b.writeBytes E p num)
  | .direct cs =>
    if cs.length < 2 ^ 31 then (b.writeDirect cs).map fun b' ↦ (.void, b') else none
  | .resize size =>
    match b.resize E size with
    | some b' => some (.void, b')
    | none => some (.threw, b)
  | .clear => some (.void, b.clear)
  | .readByte =>
    if 1 ≤ b.readableBytes then some ((b.readByte E).map .char id) else none
  | .readInt =>
    if 4 ≤ b.readableBytes then some ((b.readInt E).map .int id) else none
  | .readableBytes => some (.long b.readableBytes, b)
  | .size => some (.long b.size, b)

/-- What an operation does, with what it returns. -/
inductive Performs (b : ByteBuf) : BufferAction → Reply → ByteBuf → Prop
  | write {a : BufferAction} (ha : a.appends = true) :
      Performs b a .void (b.append E a.written)
  | direct {cs : List CChar} {cell : ℕ} (hlt : cs.length < 2 ^ 31)
      (hcell : b.getWritePtr (BitVec.ofNat 32 cs.length) = some cell) :
      Performs b (.direct cs) .void
        ((b.storeAt cell cs).addWriterIndex (BitVec.ofNat 32 cs.length))
  | reserve {size : CInt} {k : ℕ} :
      Performs b (.resize size) .void { b with buff := b.buff.reserve E k }
  | throw {size : CInt} : Performs b (.resize size) .threw b
  | clear : Performs b .clear .void b.clear
  | readByte (hreadable : 1 ≤ b.readableBytes) :
      Performs b .readByte (.char (b.readByte E).1) (b.readByte E).2
  | readInt (hreadable : 4 ≤ b.readableBytes) :
      Performs b .readInt (.int (b.readInt E).1) (b.readInt E).2
  | readableBytes : Performs b .readableBytes (.long b.readableBytes) b
  | size : Performs b .size (.long b.size) b

variable {E}

theorem writeBytes_eq_append_slice (b : ByteBuf) (p : Mem) (num : CInt) :
    b.writeBytes E p num = b.append E (p.slice 0 num.toInt.toNat) := by
  by_cases hnum : num.toInt ≤ 0
  · rw [writeBytes, if_pos hnum, Int.toNat_eq_zero.mpr hnum]
    simp [append, Mem.slice]
  · refine writeBytes_eq_append E b (Mem.holds_slice p _) ?_
    rw [Mem.length_slice]
    omega

/-- **Inversion.** -/
theorem performs_of_perform {b b' : ByteBuf} {a : BufferAction} {r : Reply}
    (h : b.perform E a = some (r, b')) : Performs E b a r b' := by
  cases a with
  | writeByte c =>
      cases h
      exact .write rfl
  | writeShort i =>
      cases h
      rw [writeShort_eq_append]
      exact .write rfl
  | writeInt i =>
      cases h
      rw [writeInt_eq_append]
      exact .write rfl
  | writeLong i =>
      cases h
      rw [writeLong_eq_append]
      exact .write rfl
  | writeBytes p num =>
      cases h
      rw [writeBytes_eq_append_slice]
      exact .write rfl
  | direct cs =>
      simp only [perform] at h
      split at h
      · rename_i hlt
        obtain ⟨b'', hdirect, heq⟩ := Option.map_eq_some_iff.mp h
        obtain ⟨cell, hcell, rfl⟩ := Option.map_eq_some_iff.mp hdirect
        cases heq
        exact .direct hlt hcell
      · cases h
  | resize size =>
      simp only [perform, ByteBuf.resize] at h
      split at h
      · rename_i hresize
        split at hresize <;> cases hresize
        cases h
        exact .reserve
      · cases h
        exact .throw
  | clear =>
      cases h
      exact .clear
  | readByte =>
      simp only [perform] at h
      split at h
      · cases h
        exact .readByte ‹_›
      · cases h
  | readInt =>
      simp only [perform] at h
      split at h
      · cases h
        exact .readInt ‹_›
      · cases h
  | readableBytes =>
      cases h
      exact .readableBytes
  | size =>
      cases h
      exact .size

variable (E)

/-- What a sequence of operations returns. -/
def replies : List BufferAction → ByteBuf → Option (List Reply)
  | [], _ => some []
  | a :: as, b => (b.perform E a).bind fun (r, b') ↦ (replies as b').map (r :: ·)

/-- No later operations tell the two buffers apart. -/
def Indistinguishable (b b' : ByteBuf) : Prop := ∀ as, replies E as b = replies E as b'

end ByteBuf

/-- A buffer, with the bytes written and read since it was last cleared. -/
structure TracedBuf where
  buf : ByteBuf
  written : List CChar
  read : List CChar

/-- The history after an operation. -/
def TracedBuf.after (s : TracedBuf) (a : BufferAction) (r : Reply) (b : ByteBuf) : TracedBuf :=
  match a with
  | .clear => ⟨b, [], []⟩
  | a => ⟨b, s.written ++ a.written, s.read ++ r.read⟩

/-- A buffer that is empty at first. -/
def buffer (E : Platform) : System BufferAction TracedBuf where
  init s := s = ⟨.empty, [], []⟩
  step a s := (s.buf.perform E a).map fun (r, b) ↦ s.after a r b

namespace TracedBuf

/-- The indices mean what they should: the size, and the bytes read in the order written. -/
structure Represented (s : TracedBuf) : Prop where
  writerIndex : s.buf.writerIndex.toInt = s.buf.size
  readerIndex : 0 ≤ s.buf.readerIndex.toInt ∧
    s.buf.readerIndex.toInt ≤ s.buf.writerIndex.toInt
  readableBytes : s.buf.readableBytes = s.written.length - s.read.length
  inOrder : s.read <+: s.written

/-- The operation keeps the two sizes of the buffer together: what it writes fits an `int`, a
clear finds the buffer empty, and a direct write is of no bytes. -/
def keeps (a : BufferAction) (s : TracedBuf) : Bool :=
  match a with
  | .clear => s.buf.buff.size = 0
  | .direct cs => cs = []
  | a => s.buf.buff.size + a.written.length < 2 ^ 31

/-! ## What every operation does -/

/-- What the operations keep: the vector holds what was written, and both indices count. -/
structure Inv (s : TracedBuf) : Prop where
  data : s.buf.buff.data = s.written
  writerIndex : s.buf.writerIndex.toInt = s.written.length
  readerIndex : s.buf.readerIndex.toInt = s.read.length
  inOrder : s.read <+: s.written

variable {E : Platform} {s s' : TracedBuf} {b : ByteBuf} {cs : List CChar}

theorem Inv.size_eq (hs : s.Inv) : s.buf.buff.size = s.written.length := by
  rw [← hs.data, Vec.length_data]

theorem Inv.length_lt (hs : s.Inv) : s.written.length < 2 ^ 31 := by
  have := hs.writerIndex ▸ s.buf.writerIndex.toInt_lt
  omega

theorem Inv.represented (hs : s.Inv) : s.Represented := by
  have hle := hs.inOrder.length_le
  have hsize := hs.size_eq
  refine ⟨?_, ?_, ?_, hs.inOrder⟩
  · rw [hs.writerIndex, ByteBuf.size, hsize]
  · rw [hs.writerIndex, hs.readerIndex]
    omega
  · rw [ByteBuf.readableBytes, hs.readerIndex, hsize]

theorem inv_empty : Inv ⟨.empty, [], []⟩ := by
  constructor <;> simp [ByteBuf.empty]

/-- The writer index after bytes were written, as long as there are not too many. -/
theorem Inv.toInt_add_iff (hs : s.Inv) : (s.buf.writerIndex + BitVec.ofNat 32 cs.length).toInt =
    ((s.written ++ cs).length : ℤ) ↔ (s.written ++ cs).length < 2 ^ 31 := by
  rw [eq_ofNat_of_toInt_eq hs.writerIndex, ← BitVec.ofNat_add, ← List.length_append]
  constructor
  · intro h
    have := h ▸ (BitVec.ofNat 32 (s.written ++ cs).length).toInt_lt
    omega
  · exact toInt_ofNat_of_lt

/-- Bytes are appended. -/
theorem Inv.append (hs : s.Inv) (hlt : (s.written ++ cs).length < 2 ^ 31) :
    Inv ⟨s.buf.append E cs, s.written ++ cs, s.read⟩ where
  data := by rw [ByteBuf.data_append, hs.data]
  writerIndex := hs.toInt_add_iff.mpr hlt
  readerIndex := hs.readerIndex
  inOrder := hs.inOrder.trans (List.prefix_append _ _)

/-- If the indices are right after bytes were appended, there were not too many. -/
theorem Inv.of_append (hs : s.Inv)
    (h : Represented ⟨s.buf.append E cs, s.written ++ cs, s.read⟩) :
    (s.written ++ cs).length < 2 ^ 31 := by
  refine hs.toInt_add_iff.mp ?_
  have hwriter : (s.buf.writerIndex + BitVec.ofNat 32 cs.length).toInt =
      ((s.buf.append E cs).buff.size : ℤ) := h.writerIndex
  rw [hwriter, ByteBuf.size_append, hs.size_eq, List.length_append]

/-- A byte is read. -/
theorem Inv.readByte (hs : s.Inv) (h : 1 ≤ s.buf.readableBytes) :
    Inv ⟨(s.buf.readByte E).2, s.written, s.read ++ [(s.buf.readByte E).1]⟩ := by
  have hreadable := hs.represented.readableBytes
  have hlt : s.read.length < s.written.length := by omega
  have hchar : (s.buf.readByte E).1 = s.written[s.read.length] := by
    have hheld := s.buf.holds_getBuffPtr_data E s.read.length (by rwa [hs.data])
    rw [ByteBuf.readByte, toNat_eq_of_toInt_eq hs.readerIndex, hheld]
    simp only [hs.data]
  have htake : s.read ++ [s.written[s.read.length]] = s.written.take (s.read.length + 1) := by
    rw [List.take_succ_eq_append_getElem hlt, ← List.prefix_iff_eq_take.mp hs.inOrder]
  refine ⟨hs.data, hs.writerIndex, ?_, ?_⟩
  · have hnext : s.read.length + 1 < 2 ^ 31 := by
      have := hs.length_lt
      omega
    have hindex : (s.buf.readByte E).2.readerIndex = BitVec.ofNat 32 (s.read.length + 1) := by
      rw [BitVec.ofNat_add, ← eq_ofNat_of_toInt_eq hs.readerIndex]
      rfl
    rw [hindex, List.length_append, List.length_singleton]
    exact toInt_ofNat_of_lt hnext
  · rw [hchar, htake]
    exact List.take_prefix _ _

/-- A byte less can be read then. -/
theorem Inv.readableBytes_readByte (hs : s.Inv) (h : 1 ≤ s.buf.readableBytes) :
    (s.buf.readByte E).2.readableBytes = s.buf.readableBytes - 1 := by
  have hread := (hs.readByte (E := E) h).represented.readableBytes
  rw [List.length_append, List.length_singleton] at hread
  rw [hread, hs.represented.readableBytes]
  push_cast
  omega

/-- Four bytes are read, and joined to a word. -/
theorem Inv.readInt (hs : s.Inv) (h : 4 ≤ s.buf.readableBytes) :
    Inv ⟨(s.buf.readInt E).2, s.written, s.read ++ bytes 4 (s.buf.readInt E).1⟩ := by
  have h1 := hs.readByte (E := E) (by omega)
  have hreadable1 := hs.readableBytes_readByte (E := E) (by omega)
  have h2 := h1.readByte (E := E) (by rw [hreadable1]; omega)
  have hreadable2 := h1.readableBytes_readByte (E := E) (by rw [hreadable1]; omega)
  have h3 := h2.readByte (E := E) (by rw [hreadable2, hreadable1]; omega)
  have hreadable3 := h2.readableBytes_readByte (E := E) (by rw [hreadable2, hreadable1]; omega)
  have h4 := h3.readByte (E := E) (by rw [hreadable3, hreadable2, hreadable1]; omega)
  simp only [ByteBuf.readInt, ByteBuf.signExtend_and, ByteBuf.or_shl_eq_ofNat_value]
  rw [bytes_ofNat_value (n := 4) rfl]
  simpa using h4

/-! ## Steps -/

theorem after_of_appends {a : BufferAction} (ha : a.appends = true) :
    s.after a .void b = ⟨b, s.written ++ a.written, s.read⟩ := by
  cases a with
  | clear => cases ha
  | _ => simp [after, Reply.read]

theorem keeps_of_appends {a : BufferAction} (ha : a.appends = true) :
    keeps a s = true ↔ s.buf.buff.size + a.written.length < 2 ^ 31 := by
  cases a with
  | clear | direct => cases ha
  | _ => simp [keeps]

/-- **Inversion.** -/
theorem exists_of_step {a : BufferAction} (h : (buffer E).step a s = some s') :
    ∃ r b, ByteBuf.Performs E s.buf a r b ∧ s.after a r b = s' := by
  obtain ⟨⟨r, b⟩, hperform, heq⟩ := Option.map_eq_some_iff.mp h
  exact ⟨r, b, ByteBuf.performs_of_perform hperform, heq⟩

/-- A direct write of no bytes changes nothing. -/
theorem storeAt_nil (b : ByteBuf) (cell : ℕ) :
    (b.storeAt cell []).addWriterIndex (BitVec.ofNat 32 0) = b := by
  simp [ByteBuf.storeAt, ByteBuf.addWriterIndex, Vec.store, Vec.storeFrom]

/-- **Step lemma.** -/
theorem Inv.step (hs : s.Inv) {a : BufferAction} (hok : keeps a s = true)
    (h : (buffer E).step a s = some s') : s'.Inv := by
  obtain ⟨r, b, hperforms, rfl⟩ := exists_of_step h
  cases hperforms with
  | write ha =>
      rw [after_of_appends ha]
      rw [keeps_of_appends ha, hs.size_eq, ← List.length_append] at hok
      exact hs.append hok
  | @direct cs cell hlt hcell =>
      obtain rfl : cs = [] := of_decide_eq_true hok
      simpa [after, BufferAction.written, Reply.read, storeAt_nil] using hs
  | @reserve size k =>
      have hreserve : Inv ⟨{ s.buf with buff := s.buf.buff.reserve E k }, s.written, s.read⟩ :=
        ⟨by rw [Vec.data_reserve, hs.data], hs.writerIndex, hs.readerIndex, hs.inOrder⟩
      simpa [after, BufferAction.written, Reply.read] using hreserve
  | clear =>
      have hnil : s.written = [] := by
        refine List.eq_nil_of_length_eq_zero ?_
        rw [← hs.size_eq]
        exact of_decide_eq_true hok
      have hread : s.read = [] := List.prefix_nil.mp (hnil ▸ hs.inOrder)
      have hwriter := hs.writerIndex
      have hreader := hs.readerIndex
      rw [hnil] at hwriter
      rw [hread] at hreader
      exact ⟨rfl, hwriter, hreader, List.prefix_refl _⟩
  | readByte hreadable =>
      simpa [after, BufferAction.written, Reply.read] using hs.readByte hreadable
  | readInt hreadable =>
      simpa [after, BufferAction.written, Reply.read] using hs.readInt hreadable
  | throw | readableBytes | size => simpa [after, BufferAction.written, Reply.read] using hs

/-- An index that is moved by a positive number of bytes is not where it was. -/
theorem length_eq_zero_of_toInt_add {w : CInt} (hlt : cs.length < 2 ^ 31)
    (h : (w + BitVec.ofNat 32 cs.length).toInt = w.toInt) : cs.length = 0 := by
  have heq := congrArg BitVec.toNat (BitVec.eq_of_toInt_eq h)
  rw [BitVec.toNat_add, BitVec.toNat_ofNat] at heq
  have := w.isLt
  omega

/-- If the indices are right after an operation, it was one that keeps them so. -/
theorem Inv.keeps_of_represented (hs : s.Inv) (hs' : s'.Represented) {a : BufferAction}
    (h : (buffer E).step a s = some s') : keeps a s = true := by
  obtain ⟨r, b, hperforms, rfl⟩ := exists_of_step h
  have hlt := hs.length_lt
  rw [← hs.size_eq] at hlt
  cases hperforms with
  | write ha =>
      rw [after_of_appends ha] at hs'
      rw [keeps_of_appends ha, hs.size_eq, ← List.length_append]
      exact hs.of_append hs'
  | @direct cs cell hcs hcell =>
      have hmoved : (s.buf.writerIndex + BitVec.ofNat 32 cs.length).toInt =
          s.buf.writerIndex.toInt := hs'.writerIndex.trans hs.represented.writerIndex.symm
      exact decide_eq_true
        (List.eq_nil_of_length_eq_zero (length_eq_zero_of_toInt_add hcs hmoved))
  | clear =>
      have hzero : s.buf.writerIndex.toInt = 0 := hs'.writerIndex
      have hsize := hs.represented.writerIndex
      rw [hzero] at hsize
      exact decide_eq_true (Int.ofNat_eq_zero.mp hsize.symm)
  | reserve | throw | readByte | readInt | readableBytes | size =>
      simpa [keeps, BufferAction.written] using hlt

/-- **When the representation is kept.**  In every state of a run the indices are right, and no
direct write can be told from a `writeBytes` of its bytes, exactly if every operation of the run
keeps the two sizes together. -/
theorem represented_iff_of_run {t : List (Transition BufferAction TracedBuf)}
    (hrun : (buffer E).Run t s) :
    ((∀ u ∈ visited t s, u.Represented) ∧ ∀ x ∈ t, ∀ cs, x.action = .direct cs →
      ByteBuf.Indistinguishable E x.post.buf
        (x.pre.buf.writeBytes E (E.memory cs) (BitVec.ofNat 32 cs.length))) ↔
    ∀ x ∈ t, keeps x.action x.pre = true := by
  have hexact : (∀ u ∈ visited t s, u.Represented) ↔ ∀ x ∈ t, keeps x.action x.pre = true := by
    refine hrun.exact (I := Represented) (J := Inv) (fun a s ↦ keeps a s = true) ?_
      (fun s hs ↦ hs.represented) (fun a s s' _ hs hok h ↦ hs.step hok h)
      fun a s s' _ hs hs' h ↦ hs.keeps_of_represented hs' h
    rintro s rfl
    exact inv_empty
  rw [hexact]
  refine ⟨And.left, fun hok ↦ ⟨hok, fun x hx cs hcs as ↦ ?_⟩⟩
  have hstep := (hrun.step_of_mem hx).2
  have hnil := hok x hx
  rw [hcs] at hstep hnil
  obtain rfl : cs = [] := of_decide_eq_true hnil
  obtain ⟨r, b, hperforms, hafter⟩ := exists_of_step hstep
  have hbuf : x.post.buf = b := by
    rw [← hafter]
    rfl
  cases hperforms with
  | write ha => cases ha
  | direct hlt hcell =>
      rw [hbuf, List.length_nil, storeAt_nil]
      rfl

/-- Writes and reads of different widths, with the block enlarged between them. -/
theorem represented_mixed : ∃ t s, (buffer .gcc).Run t s ∧ s.read = [1, 2, 0, 0, 0] ∧
    ∀ u ∈ visited t s, u.Represented := by
  have htrace : ((buffer .gcc).trace
      [.writeShort 0x0102, .readByte, .resize 16, .writeInt 5, .readInt] [] ⟨.empty, [], []⟩).map
      (fun r ↦ (r.2.read, r.1.all fun x ↦ keeps x.action x.pre)) =
      some ([1, 2, 0, 0, 0], true) := by decide +kernel
  obtain ⟨t, s, hrun, hread, hok⟩ :=
    Run.exists_of_trace (S := buffer .gcc) (·.read) keeps htrace rfl
  exact ⟨t, s, hrun, hread, ((represented_iff_of_run hrun).mpr hok).1⟩

/-- One byte is written, and the buffer cleared: the vector is empty, and the writer index 1. -/
theorem not_represented_clear : ∃ s, (buffer .gcc).Reachable s ∧
    (buffer .gcc).exec [.writeByte 7, .clear] ⟨.empty, [], []⟩ = some s ∧ ¬s.Represented := by
  have hexec : (buffer .gcc).exec [.writeByte 7, .clear] ⟨.empty, [], []⟩ = some _ := rfl
  refine ⟨_, reachable_exec (.init rfl) hexec, hexec, fun h ↦ ?_⟩
  exact absurd h.writerIndex (by decide)

/-- One byte is written directly: it is not readable, and a `writeBytes` of it would be. -/
theorem not_represented_direct : ∃ s s' : TracedBuf, (buffer .gcc).Reachable s ∧
    (buffer .gcc).step (.direct [7]) s = some s' ∧ ¬s'.Represented ∧
      ¬ByteBuf.Indistinguishable .gcc s'.buf
        (s.buf.writeBytes .gcc (Platform.gcc.memory [7]) 1) := by
  have hexec : (buffer .gcc).exec [.resize 1] ⟨.empty, [], []⟩ = some _ := rfl
  refine ⟨_, _, reachable_exec (.init rfl) hexec, rfl, fun h ↦ ?_, fun h ↦ ?_⟩
  · exact absurd h.writerIndex (by decide)
  · exact absurd (h [.size]) (by decide)

end TracedBuf

end Kiteq

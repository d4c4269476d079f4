import Mathlib.Data.BitVec
import Mathlib.Tactic.Ring

/-!
# Big-endian bytes

Fixed-width words as byte strings, most significant byte first.  `bytes n x` lists the low
`n` bytes of the word `x`, and `value` reads a byte string back as a numeral in base `256`.

The fact a wire format rests on is `value_bytes`: a word that fits in `n` bytes is read back.
Nothing here knows of a particular protocol: a program that shifts and masks connects to this
file by one lemma for each of its readers and writers.
-/

namespace Kiteq.Lib.BigEndian

/-- The low `n` bytes of a word, most significant first. -/
def bytes : (n : ℕ) → {w : ℕ} → BitVec w → List (BitVec 8)
  | 0, _, _ => []
  | n + 1, _, x => (x >>> (8 * n)).setWidth 8 :: bytes n x

/-- A byte string read as a numeral in base `256`, most significant digit first. -/
def value : List (BitVec 8) → ℕ
  | [] => 0
  | b :: bs => b.toNat * 256 ^ bs.length + value bs

variable {w : ℕ}

@[simp] theorem length_bytes (n : ℕ) (x : BitVec w) : (bytes n x).length = n := by
  induction n with
  | zero => rfl
  | succ n ih => simp [bytes, ih]

@[simp] theorem value_nil : value [] = 0 := rfl

theorem value_cons (b : BitVec 8) (bs : List (BitVec 8)) :
    value (b :: bs) = b.toNat * 256 ^ bs.length + value bs := rfl

/-- A string of `n` bytes denotes a number below `256 ^ n`. -/
theorem value_lt (bs : List (BitVec 8)) : value bs < 256 ^ bs.length := by
  induction bs with
  | nil => simp
  | cons b bs ih =>
      have hb : b.toNat < 256 := b.isLt
      calc value (b :: bs) < b.toNat * 256 ^ bs.length + 256 ^ bs.length :=
            Nat.add_lt_add_left ih _
        _ = (b.toNat + 1) * 256 ^ bs.length := by ring
        _ ≤ 256 * 256 ^ bs.length := Nat.mul_le_mul_right _ hb
        _ = 256 ^ (b :: bs).length := by rw [List.length_cons, pow_succ]; ring

/-- Reading back the low `n` bytes of a word gives the word modulo `256 ^ n`. -/
theorem value_bytes_mod (n : ℕ) (x : BitVec w) : value (bytes n x) = x.toNat % 256 ^ n := by
  induction n with
  | zero => simp [bytes, Nat.mod_one]
  | succ n ih =>
      have hpow : (2 : ℕ) ^ (8 * n) = 256 ^ n := by rw [pow_mul]; norm_num
      have htop : ((x >>> (8 * n)).setWidth 8).toNat = x.toNat / 256 ^ n % 256 := by
        rw [BitVec.toNat_setWidth, BitVec.toNat_ushiftRight, Nat.shiftRight_eq_div_pow, hpow]
      calc value (bytes (n + 1) x)
          = x.toNat / 256 ^ n % 256 * 256 ^ n + x.toNat % 256 ^ n := by
            rw [bytes, value_cons, ih, length_bytes, htop]
        _ = x.toNat % 256 ^ n + 256 ^ n * (x.toNat / 256 ^ n % 256) := by ring
        _ = x.toNat % 256 ^ (n + 1) := by rw [pow_succ 256 n, Nat.mod_mul]

/-- Reading back the bytes of a word that fits gives the word. -/
theorem value_bytes {n : ℕ} (hw : w ≤ 8 * n) (x : BitVec w) : value (bytes n x) = x.toNat := by
  rw [value_bytes_mod, Nat.mod_eq_of_lt]
  calc x.toNat < 2 ^ w := x.isLt
    _ ≤ 2 ^ (8 * n) := Nat.pow_le_pow_right (by norm_num) hw
    _ = 256 ^ n := by rw [pow_mul]; norm_num

theorem ofNat_value_bytes {n : ℕ} (hw : w ≤ 8 * n) (x : BitVec w) :
    BitVec.ofNat w (value (bytes n x)) = x := by
  rw [value_bytes hw, BitVec.ofNat_toNat, BitVec.setWidth_eq]

/-- Strings of one length that denote one number are equal. -/
theorem value_injective {bs cs : List (BitVec 8)} (hlen : bs.length = cs.length)
    (h : value bs = value cs) : bs = cs := by
  induction bs generalizing cs with
  | nil => exact (List.eq_nil_of_length_eq_zero hlen.symm).symm
  | cons b bs ih =>
      cases cs with
      | nil => cases hlen
      | cons c cs =>
        have htail : bs.length = cs.length := Nat.succ.inj hlen
        have hbs := value_lt bs
        have hcs := value_lt cs
        rw [value_cons, value_cons, htail] at h
        rw [htail] at hbs
        have hpos : 0 < 256 ^ cs.length := Nat.pow_pos (by omega)
        have hhead : b.toNat = c.toNat := by
          have hdiv := congrArg (· / 256 ^ cs.length) h
          simpa [Nat.mul_comm _ (256 ^ cs.length), Nat.mul_add_div hpos, Nat.div_eq_of_lt hbs,
            Nat.div_eq_of_lt hcs] using hdiv
        rw [hhead] at h
        rw [BitVec.eq_of_toNat_eq hhead, ih htail (Nat.add_left_cancel h)]

/-- The bytes of the word that a string as long as the word denotes. -/
theorem bytes_ofNat_value {bs : List (BitVec 8)} {n : ℕ} (hn : bs.length = n) :
    bytes n (BitVec.ofNat (8 * n) (value bs)) = bs := by
  subst hn
  have hlt : value bs < 2 ^ (8 * bs.length) := by
    rw [pow_mul]
    exact value_lt bs
  refine value_injective (length_bytes _ _) ?_
  rw [value_bytes (Nat.le_refl _), BitVec.toNat_ofNat, Nat.mod_eq_of_lt hlt]

/-- Words that fit are equal when their bytes are. -/
theorem bytes_injective {n : ℕ} (hw : w ≤ 8 * n) {x y : BitVec w} (h : bytes n x = bytes n y) :
    x = y := by
  rw [← ofNat_value_bytes hw x, h, ofNat_value_bytes hw y]

/-- The bytes of a word are those of its high part followed by those of its low part. -/
theorem bytes_add (m n : ℕ) (x : BitVec w) :
    bytes (m + n) x = bytes m (x >>> (8 * n)) ++ bytes n x := by
  induction m with
  | zero => simp [bytes]
  | succ m ih =>
      rw [Nat.succ_add, bytes, bytes, ih, ← BitVec.shiftRight_add, List.cons_append,
        Nat.mul_add, Nat.add_comm (8 * m)]

theorem bytes_zero (n : ℕ) : bytes n (0#w) = List.replicate n 0 := by
  induction n with
  | zero => rfl
  | succ n ih => simp [bytes, ih, List.replicate_succ]

end Kiteq.Lib.BigEndian

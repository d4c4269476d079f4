import Mathlib.Data.BitVec
import Mathlib.Tactic.Ring

/-!
# The proto2 wire format

Varints, fields and the field loop of a proto2 parser, for the two wire types a schema of
integers, booleans, strings and submessages uses.  A message is a list of fields; `scan` reads
as many as it can and says whether the input ended where a field did, so that a parser built on
it keeps what it read before an error.

`scan_encode` is the round trip, and `absorb` with `merge_encode` lifts it to a message type
given by what one field does to it.
-/

namespace Kiteq.Lib.Proto2

/-! ## Varints -/

/-- The base-128 digits of a number, least significant first, in at most `fuel` bytes. -/
def encodeVarint : ℕ → ℕ → List (BitVec 8)
  | 0, _ => []
  | fuel + 1, n =>
    if n < 128 then [BitVec.ofNat 8 n]
    else BitVec.ofNat 8 (n % 128 + 128) :: encodeVarint fuel (n / 128)

/-- A varint of at most `fuel` bytes in front of a string, and the rest of the string. -/
def decodeVarint : ℕ → List (BitVec 8) → Option (ℕ × List (BitVec 8))
  | 0, _ => none
  | _ + 1, [] => none
  | fuel + 1, b :: bs =>
    if b.toNat < 128 then some (b.toNat, bs)
    else (decodeVarint fuel bs).map fun r ↦ (b.toNat - 128 + 128 * r.1, r.2)

theorem decodeVarint_encodeVarint (fuel : ℕ) {n : ℕ} (h : n < 128 ^ (fuel + 1))
    (rest : List (BitVec 8)) :
    decodeVarint (fuel + 1) (encodeVarint (fuel + 1) n ++ rest) = some (n, rest) := by
  induction fuel generalizing n with
  | zero =>
      have hn : n < 128 := by simpa using h
      have hb : (BitVec.ofNat 8 n).toNat = n := by rw [BitVec.toNat_ofNat]; omega
      simp [encodeVarint, decodeVarint, hn, hb]
  | succ fuel ih =>
      by_cases hn : n < 128
      · have hb : (BitVec.ofNat 8 n).toNat = n := by rw [BitVec.toNat_ofNat]; omega
        simp [encodeVarint, decodeVarint, hn, hb]
      · have hdiv : n / 128 < 128 ^ (fuel + 1) := by
          rw [Nat.div_lt_iff_lt_mul (by omega)]
          rwa [pow_succ] at h
        have hb : (BitVec.ofNat 8 (n % 128 + 128)).toNat = n % 128 + 128 := by
          rw [BitVec.toNat_ofNat]; omega
        rw [encodeVarint, if_neg hn, List.cons_append, decodeVarint, if_neg (by omega), ih hdiv]
        simp only [Option.map_some, hb]
        congr 2
        omega

theorem encodeVarint_ne_nil (fuel n : ℕ) : encodeVarint (fuel + 1) n ≠ [] := by
  rw [encodeVarint]; split <;> simp

/-! ## Fields -/

/-- A field: its number, and a varint or a length-delimited string. -/
inductive Field where
  | varint (number n : ℕ)
  | bytes (number : ℕ) (bs : List (BitVec 8))
deriving DecidableEq, Repr

namespace Field

/-- The tag, followed by the value. -/
def encode : Field → List (BitVec 8)
  | .varint number n => encodeVarint 10 (8 * number) ++ encodeVarint 10 n
  | .bytes number bs =>
    encodeVarint 10 (8 * number + 2) ++ (encodeVarint 10 bs.length ++ bs)

/-- Field numbers are positive and below `2 ^ 29`, values fit in 64 bits. -/
def Valid : Field → Prop
  | .varint number n => 0 < number ∧ number < 2 ^ 29 ∧ n < 2 ^ 64
  | .bytes number bs => 0 < number ∧ number < 2 ^ 29 ∧ bs.length < 2 ^ 64

/-- One field in front of a string, and the rest of the string. -/
def decode (bs : List (BitVec 8)) : Option (Field × List (BitVec 8)) :=
  (decodeVarint 10 bs).bind fun tag ↦ (decodeVarint 10 tag.2).bind fun v ↦
    if tag.1 / 8 = 0 then none
    else if tag.1 % 8 = 0 then some (.varint (tag.1 / 8) v.1, v.2)
    else if tag.1 % 8 = 2 ∧ v.1 ≤ v.2.length then
      some (.bytes (tag.1 / 8) (v.2.take v.1), v.2.drop v.1)
    else none

theorem decode_encode {f : Field} (h : f.Valid) (rest : List (BitVec 8)) :
    decode (f.encode ++ rest) = some (f, rest) := by
  cases f with
  | varint number n =>
      obtain ⟨hpos, hnum, hn⟩ := h
      have htag := decodeVarint_encodeVarint 9 (n := 8 * number) (by norm_num; omega)
        (encodeVarint 10 n ++ rest)
      have hval := decodeVarint_encodeVarint 9 (n := n) (by norm_num; omega) rest
      have hdiv : 8 * number / 8 = number := by omega
      simp [encode, decode, htag, hval, hdiv]
      omega
  | bytes number bs =>
      obtain ⟨hpos, hnum, hn⟩ := h
      have htag := decodeVarint_encodeVarint 9 (n := 8 * number + 2)
        (by norm_num; omega) (encodeVarint 10 bs.length ++ (bs ++ rest))
      have hval := decodeVarint_encodeVarint 9 (n := bs.length) (by norm_num; omega)
        (bs ++ rest)
      have hdiv : (8 * number + 2) / 8 = number := by omega
      have hmod : (8 * number + 2) % 8 = 2 := by omega
      simp [encode, decode, htag, hval, hdiv, hmod]
      omega

theorem encode_ne_nil (f : Field) : f.encode ≠ [] := by
  cases f <;> simp [encode, encodeVarint_ne_nil]

end Field

/-! ## The field loop -/

/-- Reads fields until the input is exhausted or malformed: the fields, and whether it ended
well.  Every field takes a byte, so the length of the input is enough fuel. -/
def scanFuel : ℕ → List (BitVec 8) → List Field × Bool
  | _, [] => ([], true)
  | 0, _ :: _ => ([], false)
  | fuel + 1, b :: bs =>
    match Field.decode (b :: bs) with
    | none => ([], false)
    | some (f, rest) => (f :: (scanFuel fuel rest).1, (scanFuel fuel rest).2)

def scan (bs : List (BitVec 8)) : List Field × Bool := scanFuel bs.length bs

/-- The wire form of a list of fields. -/
def encode (fs : List Field) : List (BitVec 8) := fs.flatMap Field.encode

theorem length_le_length_encode (fs : List Field) : fs.length ≤ (encode fs).length := by
  induction fs with
  | nil => simp
  | cons f fs ih =>
      have := List.length_pos_iff.mpr f.encode_ne_nil
      simp only [encode, List.flatMap_cons, List.length_append, List.length_cons] at *
      omega

theorem scanFuel_encode {fs : List Field} (hfs : ∀ f ∈ fs, f.Valid) {fuel : ℕ}
    (hfuel : fs.length ≤ fuel) : scanFuel fuel (encode fs) = (fs, true) := by
  induction fs generalizing fuel with
  | nil => cases fuel <;> rfl
  | cons f fs ih =>
      obtain ⟨fuel, rfl⟩ : ∃ k, fuel = k + 1 := ⟨fuel - 1, by simp at hfuel; omega⟩
      have hdec := Field.decode_encode (hfs f (by simp)) (encode fs)
      have hle : fs.length ≤ fuel := by simpa using hfuel
      have htail := ih (fun g hg ↦ hfs g (by simp [hg])) hle
      have hcons : encode (f :: fs) = f.encode ++ encode fs := by simp [encode]
      cases hbytes : f.encode ++ encode fs with
      | nil => exact absurd (List.append_eq_nil_iff.mp hbytes).1 f.encode_ne_nil
      | cons b bs =>
          rw [hcons, hbytes]
          rw [hbytes] at hdec
          simp only [scanFuel, hdec, htail]

/-- **Round trip of the field loop.** -/
theorem scan_encode {fs : List Field} (hfs : ∀ f ∈ fs, f.Valid) :
    scan (encode fs) = (fs, true) := scanFuel_encode hfs (length_le_length_encode fs)

/-- A string field is no longer than the message it is in. -/
theorem length_le_of_bytes_mem {fs : List Field} {number : ℕ} {bs : List (BitVec 8)}
    (h : .bytes number bs ∈ fs) : bs.length ≤ (encode fs).length := by
  obtain ⟨xs, ys, rfl⟩ := List.append_of_mem h
  simp only [encode, List.flatMap_append, List.flatMap_cons, List.length_append, Field.encode]
  omega

/-- What validity asks of a field apart from the length of its string. -/
def Field.Sound : Field → Prop
  | .varint number n => 0 < number ∧ number < 2 ^ 29 ∧ n < 2 ^ 64
  | .bytes number _ => 0 < number ∧ number < 2 ^ 29

/-- The fields of a message whose length is representable have representable lengths. -/
theorem valid_of_sound {fs : List Field} (hlen : (encode fs).length < 2 ^ 64)
    (h : ∀ f ∈ fs, f.Sound) : ∀ f ∈ fs, f.Valid := by
  intro f hf
  cases f with
  | varint number n => exact h _ hf
  | bytes number bs =>
      obtain ⟨hpos, hnum⟩ := h _ hf
      exact ⟨hpos, hnum, Nat.lt_of_le_of_lt (length_le_of_bytes_mem hf) hlen⟩

/-! ## Messages -/

variable {σ : Type*}

/-- Fields absorbed one by one, up to the first that fails. -/
def absorb (step : σ → Field → σ × Bool) : σ → List Field → σ × Bool
  | m, [] => (m, true)
  | m, f :: fs => if (step m f).2 then absorb step (step m f).1 fs else ((step m f).1, false)

/-- A wire string merged into a message: what was absorbed, and whether all of it was. -/
def merge (step : σ → Field → σ × Bool) (m : σ) (bs : List (BitVec 8)) : σ × Bool :=
  ((absorb step m (scan bs).1).1, (absorb step m (scan bs).1).2 && (scan bs).2)

theorem absorb_cons_of_ok {step : σ → Field → σ × Bool} {m m' : σ} {f : Field}
    (h : step m f = (m', true)) (fs : List Field) :
    absorb step m (f :: fs) = absorb step m' fs := by simp [absorb, h]

theorem absorb_append {step : σ → Field → σ × Bool} {m m' : σ} {fs : List Field}
    (h : absorb step m fs = (m', true)) (gs : List Field) :
    absorb step m (fs ++ gs) = absorb step m' gs := by
  induction fs generalizing m with
  | nil => cases h; rfl
  | cons f fs ih =>
      by_cases hf : (step m f).2
      · rw [absorb, if_pos hf] at h
        rw [List.cons_append, absorb, if_pos hf, ih h]
      · rw [absorb, if_neg hf] at h
        cases h

/-- **Round trip of a message** from what its fields do to it. -/
theorem merge_encode {step : σ → Field → σ × Bool} {m m' : σ} {fs : List Field}
    (hfs : ∀ f ∈ fs, f.Valid) (h : absorb step m fs = (m', true)) :
    merge step m (encode fs) = (m', true) := by
  simp [merge, scan_encode hfs, h]

end Kiteq.Lib.Proto2

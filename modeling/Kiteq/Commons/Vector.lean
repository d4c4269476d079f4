import Kiteq.Commons.Platform

/-!
# `std::vector<char>`

A vector is its allocated block and the number of live elements at the front of it, so that
memory between `size` and `capacity` exists and can be written through a raw pointer, which is
what `ByteBuf` does.  `reserve` reallocates to exactly the capacity asked for and only upwards;
how far `push_back` grows a full vector is left to the platform.  A reallocation copies the
live elements and nothing else.
-/

namespace Kiteq

/-- A vector of `char`: the allocated block, of which the first `size` cells are live. -/
structure Vec where
  block : List CChar
  size : ℕ
  size_le : size ≤ block.length
deriving DecidableEq

namespace Vec

variable (E : Platform) (v : Vec)

/-- The vector of a default construction. -/
def empty : Vec := ⟨[], 0, Nat.le_refl 0⟩

def capacity : ℕ := v.block.length

/-- The live elements. -/
def data : List CChar := v.block.take v.size

@[simp] theorem length_data : v.data.length = v.size := by
  simp [data, v.size_le]

theorem size_le_capacity : v.size ≤ v.capacity := v.size_le

@[simp] theorem size_empty : empty.size = 0 := rfl
@[simp] theorem data_empty : empty.data = [] := rfl
@[simp] theorem capacity_empty : empty.capacity = 0 := rfl

/-- The elements moved to a fresh block of the given capacity. -/
def realloc (cap : ℕ) : Vec where
  block := v.data ++ (List.range (cap - v.size)).map fun i ↦ E.fresh (v.size + i)
  size := v.size
  size_le := by simp

@[simp] theorem size_realloc (cap : ℕ) : (v.realloc E cap).size = v.size := rfl

@[simp] theorem data_realloc (cap : ℕ) : (v.realloc E cap).data = v.data := by
  simp [realloc, data, v.size_le]

theorem capacity_realloc {cap : ℕ} (h : v.size ≤ cap) : (v.realloc E cap).capacity = cap := by
  simp [realloc, capacity]; omega

/-- `reserve(k)`. -/
def reserve (k : ℕ) : Vec := if v.capacity < k then v.realloc E k else v

@[simp] theorem size_reserve (k : ℕ) : (v.reserve E k).size = v.size := by
  unfold reserve; split <;> simp

@[simp] theorem data_reserve (k : ℕ) : (v.reserve E k).data = v.data := by
  unfold reserve; split <;> simp

theorem capacity_reserve (k : ℕ) : (v.reserve E k).capacity = max v.capacity k := by
  unfold reserve
  split
  · rename_i h
    rw [capacity_realloc E v (Nat.le_trans v.size_le_capacity (Nat.le_of_lt h)),
      Nat.max_eq_right (Nat.le_of_lt h)]
  · rename_i h
    exact (Nat.max_eq_left (Nat.not_lt.mp h)).symm

/-- The vector with room for one more element. -/
def roomy : Vec := if v.size < v.capacity then v else v.realloc E (E.grow v.capacity)

@[simp] theorem size_roomy : (v.roomy E).size = v.size := by
  unfold roomy; split <;> simp

@[simp] theorem data_roomy : (v.roomy E).data = v.data := by
  unfold roomy; split <;> simp

theorem roomy_of_lt (h : v.size < v.capacity) : v.roomy E = v := if_pos h

theorem size_lt_capacity_roomy : (v.roomy E).size < (v.roomy E).capacity := by
  by_cases h : v.size < v.capacity
  · rwa [roomy_of_lt E v h]
  · have hgrow := E.lt_grow v.capacity
    have hsize := v.size_le_capacity
    rw [roomy, if_neg h, capacity_realloc E v (by omega), size_realloc]
    omega

/-- `push_back(c)`. -/
def push_back (c : CChar) : Vec where
  block := (v.roomy E).block.set v.size c
  size := v.size + 1
  size_le := by
    have h := v.size_lt_capacity_roomy E
    rw [size_roomy, capacity] at h
    simpa using Nat.succ_le_of_lt h

@[simp] theorem size_push_back (c : CChar) : (v.push_back E c).size = v.size + 1 := rfl

@[simp] theorem data_push_back (c : CChar) : (v.push_back E c).data = v.data ++ [c] := by
  have h : v.size < (v.roomy E).block.length := by
    simpa [capacity] using v.size_lt_capacity_roomy E
  have hdata : (v.roomy E).block.take v.size = v.data := by
    simpa [data] using v.data_roomy E
  rw [data, push_back, List.take_succ_eq_append_getElem (by simpa using h),
    List.take_set_of_le (Nat.le_refl _), hdata, List.getElem_set_self]

theorem capacity_push_back (c : CChar) :
    (v.push_back E c).capacity = (v.roomy E).capacity := by
  simp [push_back, capacity]

theorem capacity_push_back_of_lt (c : CChar) (h : v.size < v.capacity) :
    (v.push_back E c).capacity = v.capacity := by
  rw [capacity_push_back, roomy_of_lt E v h]

/-- A run of `push_back`s. -/
def pushes (cs : List CChar) : Vec := cs.foldl (push_back E) v

@[simp] theorem pushes_nil : v.pushes E [] = v := rfl

theorem pushes_cons (c : CChar) (cs : List CChar) :
    v.pushes E (c :: cs) = (v.push_back E c).pushes E cs := rfl

theorem pushes_append (cs ds : List CChar) :
    v.pushes E (cs ++ ds) = (v.pushes E cs).pushes E ds := List.foldl_append

@[simp] theorem data_pushes (cs : List CChar) : (v.pushes E cs).data = v.data ++ cs := by
  induction cs generalizing v with
  | nil => simp
  | cons c cs ih => simp [pushes_cons, ih]

@[simp] theorem size_pushes (cs : List CChar) : (v.pushes E cs).size = v.size + cs.length := by
  rw [← length_data, data_pushes, List.length_append, length_data]

/-- Pushing what the block has room for does not reallocate. -/
theorem capacity_pushes {cs : List CChar} (h : v.size + cs.length ≤ v.capacity) :
    (v.pushes E cs).capacity = v.capacity := by
  induction cs generalizing v with
  | nil => rfl
  | cons c cs ih =>
      simp only [List.length_cons] at h
      have hc := v.capacity_push_back_of_lt E c (by omega)
      rw [pushes_cons, ih _ (by rw [hc, size_push_back]; omega), hc]

/-- Pushing more than the block has room for reallocates, once if the new block is large
enough. -/
theorem capacity_pushes_of_full {cs : List CChar} (h : v.capacity < v.size + cs.length)
    (hgrow : v.size + cs.length ≤ E.grow v.capacity) :
    (v.pushes E cs).capacity = E.grow v.capacity := by
  induction cs generalizing v with
  | nil => exact absurd v.size_le_capacity (Nat.not_le.mpr h)
  | cons c cs ih =>
      simp only [List.length_cons] at h hgrow
      rw [pushes_cons]
      by_cases hroom : v.size < v.capacity
      · have hc := v.capacity_push_back_of_lt E c hroom
        rw [ih _ (by rw [hc, size_push_back]; omega) (by rw [hc, size_push_back]; omega), hc]
      · have hc : (v.push_back E c).capacity = E.grow v.capacity := by
          rw [capacity_push_back, roomy, if_neg hroom, capacity_realloc E v (by omega)]
        rw [capacity_pushes E _ (by rw [hc, size_push_back]; omega), hc]

/-- `clear()`, which keeps the block. -/
def clear : Vec := ⟨v.block, 0, Nat.zero_le _⟩

/-- Bytes stored in consecutive cells from `off` on. -/
def storeFrom : List CChar → ℕ → List CChar → List CChar
  | blk, _, [] => blk
  | blk, off, c :: cs => storeFrom (blk.set off c) (off + 1) cs

@[simp] theorem length_storeFrom (blk : List CChar) (off : ℕ) (cs : List CChar) :
    (storeFrom blk off cs).length = blk.length := by
  induction cs generalizing blk off with
  | nil => rfl
  | cons c cs ih => simp [storeFrom, ih]

theorem storeFrom_eq {blk : List CChar} {off : ℕ} {cs : List CChar}
    (h : off + cs.length ≤ blk.length) :
    storeFrom blk off cs = blk.take off ++ cs ++ blk.drop (off + cs.length) := by
  induction cs generalizing blk off with
  | nil => simp [storeFrom]
  | cons c cs ih =>
      simp only [List.length_cons] at h
      rw [storeFrom, ih (by simpa using by omega), List.length_cons,
        List.take_succ_eq_append_getElem (by simpa using by omega),
        List.take_set_of_le (Nat.le_refl _), List.getElem_set_self, List.drop_set_of_lt (by omega)]
      simp [Nat.add_assoc, Nat.add_comm 1]

/-- Bytes stored through a pointer to cell `off` of the block. -/
def store (off : ℕ) (cs : List CChar) : Vec where
  block := storeFrom v.block off cs
  size := v.size
  size_le := by simpa using v.size_le

end Vec

end Kiteq

import Mathlib.Data.List.Basic

/-!
# Tables

A system whose components come and never go keeps them in a list and names them by their index.
Two operations change such a table: a component is added at the end, and one component is
replaced.  The lemmas say which components there are afterwards; where their indices do not
matter, `Adds` says it of both operations at once.
-/

namespace Kiteq.Lib

universe u

variable {α : Type u} {l l' : List α} {a b c : α} {i j : ℕ}

theorem getElem?_concat : (l ++ [a])[i]? = if i = l.length then some a else l[i]? := by
  rcases Nat.lt_trichotomy i l.length with hlt | rfl | hgt
  · rw [List.getElem?_append_left hlt, if_neg (Nat.ne_of_lt hlt)]
  · simp
  · rw [List.getElem?_eq_none (by simpa using Nat.succ_le_of_lt hgt),
      List.getElem?_eq_none (Nat.le_of_lt hgt), if_neg (Nat.ne_of_gt hgt)]

/-- The components after one was added. -/
theorem getElem?_concat_iff : (l ++ [a])[i]? = some b ↔
    l[i]? = some b ∨ i = l.length ∧ b = a := by
  rw [getElem?_concat]
  split
  · rename_i hi
    simp [hi, eq_comm]
  · rename_i hi
    simp [hi]

theorem getElem?_set_of_some (h : l[i]? = some a) :
    (l.set i c)[j]? = if j = i then some c else l[j]? := by
  have hlt := (List.getElem?_eq_some_iff.mp h).1
  by_cases hj : j = i
  · subst hj
    simp [hlt]
  · rw [List.getElem?_set_ne (Ne.symm hj), if_neg hj]

/-- The components after component `i` was replaced. -/
theorem getElem?_set_iff (h : l[i]? = some a) :
    (l.set i c)[j]? = some b ↔ j = i ∧ b = c ∨ j ≠ i ∧ l[j]? = some b := by
  rw [getElem?_set_of_some h]
  split
  · rename_i hj
    simp [hj, eq_comm]
  · rename_i hj
    simp [hj]

/-- What holds of the replacement and of every other component holds of all. -/
theorem forall_set {p : ℕ → α → Prop} (h : l[i]? = some a) (hc : p i c)
    (hl : ∀ j b, j ≠ i → l[j]? = some b → p j b) :
    ∀ j b, (l.set i c)[j]? = some b → p j b := by
  intro j b hb
  rcases (getElem?_set_iff h).mp hb with ⟨rfl, rfl⟩ | ⟨hj, hb⟩
  · exact hc
  · exact hl j b hj hb

/-- How many components there are of a kind after one was replaced. -/
theorem countP_set_add (p : α → Bool) (h : l[i]? = some a) :
    (l.set i c).countP p + (p a).toNat = l.countP p + (p c).toNat := by
  obtain ⟨hlt, rfl⟩ := List.getElem?_eq_some_iff.mp h
  have hle : (p l[i]).toNat ≤ l.countP p := by
    cases hl : p l[i] with
    | false => exact Nat.zero_le _
    | true => exact List.countP_pos_iff.mpr ⟨_, List.getElem_mem hlt, hl⟩
  rw [List.countP_set hlt]
  generalize l.countP p = n at hle ⊢
  generalize p l[i] = x at hle ⊢
  cases x <;> cases p c <;> simp at hle ⊢
  all_goals omega

/-- Every component of the second table is one of the first, or the one given. -/
def Adds (l l' : List α) (a : α) : Prop := ∀ b ∈ l', b ∈ l ∨ b = a

theorem adds_concat (l : List α) (a : α) : Adds l (l ++ [a]) a := by
  intro b hb
  rcases List.mem_append.mp hb with hb | hb
  · exact .inl hb
  · exact .inr (List.mem_singleton.mp hb)

theorem adds_set (l : List α) (i : ℕ) (a : α) : Adds l (l.set i a) a :=
  fun _ ↦ List.mem_or_eq_of_mem_set

/-- What holds of every component and of the new one holds of all. -/
theorem Adds.forall_mem {p : α → Prop} (h : Adds l l' a) (hl : ∀ b ∈ l, p b) (ha : p a) :
    ∀ b ∈ l', p b := by
  intro b hb
  rcases h b hb with hb | rfl
  · exact hl b hb
  · exact ha

end Kiteq.Lib

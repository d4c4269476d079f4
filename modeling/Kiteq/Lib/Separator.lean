import Mathlib.Data.List.Basic

/-!
# Two fields and a separator

A string that is split at a separator has one field more than separators.  It has two exactly
when it is a front and a back with the separator between them and in neither; and the two are
then determined by the string.
-/

namespace Kiteq.Lib

universe u

variable {α : Type u} [BEq α] {sep : α} {l front back front' back' : List α}

theorem length_splitOn (sep : α) (l : List α) : (l.splitOn sep).length = l.count sep + 1 := by
  induction l with
  | nil => rfl
  | cons x l ih =>
      rw [List.splitOn_cons_eq_if_modifyHead, List.count_cons]
      split
      · rw [List.length_cons, ih]
      · rw [List.length_modifyHead, ih, Nat.add_zero]

/-- A string has two fields just when it has one separator. -/
theorem exists_splitOn_eq_pair_iff :
    (∃ front back, l.splitOn sep = [front, back]) ↔ l.count sep = 1 := by
  have hlength := length_splitOn sep l
  rw [show l.count sep = 1 ↔ (l.splitOn sep).length = 2 by omega, List.length_eq_two]

variable [LawfulBEq α]

theorem splitOn_eq_pair_iff : l.splitOn sep = [front, back] ↔
    l = front ++ sep :: back ∧ sep ∉ front ∧ sep ∉ back := by
  constructor
  · intro h
    have hl : l = front ++ sep :: back := by
      have hjoin : [sep].intercalate (l.splitOn sep) = l := List.intercalate_splitOn sep
      rw [← hjoin, h]
      simp
    have hcount : (front ++ sep :: back).count sep = 1 := by
      have := length_splitOn sep l
      rw [h] at this
      rw [← hl]
      simpa using this.symm
    rw [List.count_append, List.count_cons_self] at hcount
    exact ⟨hl, List.count_eq_zero.mp (by omega), List.count_eq_zero.mp (by omega)⟩
  · rintro ⟨rfl, hfront, hback⟩
    rw [List.splitOn_append_cons_self_of_not_mem hfront, List.splitOn_eq_singleton hback]

/-- The fields around a separator that neither contains are determined by the string. -/
theorem append_cons_inj (h : sep ∉ front ∧ sep ∉ back) (h' : sep ∉ front' ∧ sep ∉ back') :
    front ++ sep :: back = front' ++ sep :: back' ↔ front = front' ∧ back = back' := by
  constructor
  · intro heq
    have hpair : [front, back] = [front', back'] := by
      rw [← splitOn_eq_pair_iff.mpr ⟨rfl, h⟩, heq, splitOn_eq_pair_iff.mpr ⟨rfl, h'⟩]
    simpa using hpair
  · rintro ⟨rfl, rfl⟩
    rfl

end Kiteq.Lib

import Kiteq.Lib.System
import Mathlib.Algebra.BigOperators.Group.List.Basic
import Mathlib.Algebra.BigOperators.Ring.List
import Mathlib.Data.Int.Cast.Lemmas
import Mathlib.Algebra.Order.Group.Synonym
import Mathlib.Algebra.Order.Monoid.OrderDual

/-!
# What the history of a run tells of its last state

A quantity that every step pays in to and out of is what it was at first and all that was paid in,
less all that was paid out.  A counter that some steps reset and others raise has counted the
raising steps since the last reset.  Both are proved once here, from what a single step does.
-/

namespace Kiteq.Lib.System

universe u v

variable {α : Type u} {σ : Type v} {S : System α σ} {t : List (Transition α σ)} {s : σ}

/-! ## Balances -/

section

variable {β : Type*} [AddCommMonoid β] {m : σ → β} {c : β}

/-- **Accounting rule.**  What was paid out and what is there is what was there at first and what
was paid in. -/
theorem Run.balance (paid received : Transition α σ → β) (h0 : ∀ s, S.init s → m s = c)
    (hstep : ∀ x, S.Reachable x.pre → S.step x.action x.pre = some x.post →
      m x.post + paid x = m x.pre + received x) (hrun : S.Run t s) :
    m s + (t.map paid).sum = c + (t.map received).sum := by
  induction hrun with
  | init h => simp [h0 _ h]
  | @step t a s s' hrun ht ih =>
      have hlast := hstep ⟨s, a, s'⟩ hrun.reachable ht
      calc m s' + (paid ⟨s, a, s'⟩ + (t.map paid).sum)
          = m s + received ⟨s, a, s'⟩ + (t.map paid).sum := by rw [← add_assoc, hlast]
        _ = c + (t.map received).sum + received ⟨s, a, s'⟩ := by rw [add_right_comm, ih]
        _ = c + (received ⟨s, a, s'⟩ + (t.map received).sum) := by
          rw [add_assoc, add_comm (received _)]

variable [PartialOrder β] [IsOrderedAddMonoid β]

/-- The accounting rule for a quantity of which some may get lost. -/
theorem Run.balance_le (paid received : Transition α σ → β) (h0 : ∀ s, S.init s → m s ≤ c)
    (hstep : ∀ x, S.Reachable x.pre → S.step x.action x.pre = some x.post →
      m x.post + paid x ≤ m x.pre + received x) (hrun : S.Run t s) :
    m s + (t.map paid).sum ≤ c + (t.map received).sum := by
  induction hrun with
  | init h => simpa using h0 _ h
  | @step t a s s' hrun ht ih =>
      have hlast := hstep ⟨s, a, s'⟩ hrun.reachable ht
      calc m s' + (paid ⟨s, a, s'⟩ + (t.map paid).sum)
          ≤ m s + received ⟨s, a, s'⟩ + (t.map paid).sum := by
            rw [← add_assoc]
            exact add_le_add_left hlast _
        _ = m s + (t.map paid).sum + received ⟨s, a, s'⟩ := add_right_comm ..
        _ ≤ c + (t.map received).sum + received ⟨s, a, s'⟩ := add_le_add_left ih _
        _ = c + (received ⟨s, a, s'⟩ + (t.map received).sum) := by
          rw [add_assoc, add_comm (received _)]

/-- The accounting rule for a quantity of which some may come from nowhere. -/
theorem Run.le_balance (paid received : Transition α σ → β) (h0 : ∀ s, S.init s → c ≤ m s)
    (hstep : ∀ x, S.Reachable x.pre → S.step x.action x.pre = some x.post →
      m x.pre + received x ≤ m x.post + paid x) (hrun : S.Run t s) :
    c + (t.map received).sum ≤ m s + (t.map paid).sum :=
  @balance_le _ _ S t s βᵒᵈ _ m c _ _ paid received h0 hstep hrun

end

theorem countP_cons_toNat {γ : Type*} (p : γ → Bool) (x : γ) (l : List γ) :
    (x :: l).countP p = l.countP p + (p x).toNat := by
  rw [List.countP_cons]
  cases p x <;> rfl

/-- Counting is adding ones. -/
theorem sum_toNat {γ : Type*} (p : γ → Bool) (l : List γ) :
    (l.map fun x ↦ (p x).toNat).sum = l.countP p := by
  induction l with
  | nil => rfl
  | cons x l ih =>
      rw [List.map_cons, List.sum_cons, ih, List.countP_cons]
      cases p x <;> simp [Nat.add_comm]

theorem sum_toNat_int {γ : Type*} (p : γ → Bool) (l : List γ) :
    (l.map fun x ↦ ((p x).toNat : ℤ)).sum = l.countP p := by
  have hcast := map_list_sum (Nat.castAddMonoidHom ℤ) (l.map fun x ↦ (p x).toNat)
  rw [List.map_map, sum_toNat] at hcast
  exact hcast.symm

/-! ## Counters -/

/-- How many steps were counted since the last that resets. -/
def countSince (resets counted : Transition α σ → Bool) (t : List (Transition α σ)) : ℕ :=
  (t.takeWhile fun x ↦ !resets x).countP counted

variable {resets counted : Transition α σ → Bool} {n : ℕ}

theorem countSince_cons (x : Transition α σ) : countSince resets counted (x :: t) =
    if resets x then 0 else countSince resets counted t + (counted x).toNat := by
  cases hr : resets x with
  | true => simp [countSince, hr]
  | false => cases hc : counted x <;> simp [countSince, hr, hc]

/-- **Counter rule.** -/
theorem Run.countSince_eq {f : σ → ℕ} (h0 : ∀ s, S.init s → f s = 0)
    (hstep : ∀ x, S.Reachable x.pre → S.step x.action x.pre = some x.post →
      f x.post = if resets x then 0 else f x.pre + (counted x).toNat) (hrun : S.Run t s) :
    f s = countSince resets counted t := by
  induction hrun with
  | init h => exact h0 _ h
  | @step t a s s' hrun ht ih =>
      rw [hstep ⟨s, a, s'⟩ hrun.reachable ht, ih, countSince_cons]

/-- A history with more than `n` counted steps since the last reset has one of them that exactly
`n` others follow, and no reset after it. -/
theorem exists_of_lt_countSince (h : n < countSince resets counted t) :
    ∃ later x earlier, t = later ++ x :: earlier ∧ counted x = true ∧
      later.countP counted = n ∧ ∀ y ∈ x :: later, resets y = false := by
  induction t generalizing n with
  | nil => exact absurd h (Nat.not_lt_zero n)
  | cons y t ih =>
      rw [countSince_cons] at h
      split at h
      · exact absurd h (Nat.not_lt_zero n)
      · rename_i hr
        rw [Bool.not_eq_true] at hr
        have hcons : ∀ k < countSince resets counted t, k + (counted y).toNat = n →
            ∃ later x earlier, y :: t = later ++ x :: earlier ∧ counted x = true ∧
              later.countP counted = n ∧ ∀ z ∈ x :: later, resets z = false := by
          intro k hk hn
          obtain ⟨later, x, earlier, rfl, hx, hlater, hresets⟩ := ih hk
          obtain ⟨hxr, hall⟩ := List.forall_mem_cons.mp hresets
          refine ⟨y :: later, x, earlier, rfl, hx, ?_,
            List.forall_mem_cons.mpr ⟨hxr, List.forall_mem_cons.mpr ⟨hr, hall⟩⟩⟩
          rw [← hn, ← hlater]
          cases hc : counted y <;> simp [hc]
        cases hc : counted y with
        | false => exact hcons n (by simpa [hc] using h) (by simp [hc])
        | true =>
          cases n with
          | zero => exact ⟨[], y, t, rfl, hc, rfl, by simpa using hr⟩
          | succ n => exact hcons n (by simpa [hc] using h) (by simp [hc])

end Kiteq.Lib.System

import Kiteq.Commons.Platform
import Kiteq.Lib.Optimistic
import Mathlib.Algebra.Order.Group.Int

/-!
# `Counter`

A `long` behind a lock.  Each member function takes the lock for its whole body, so that it is one
step on the count, except for `getCountChange`: it reads the count, exchanges what it has read for
zero in a later step, and starts over if the count is another by then.

`counter` is the system of any number of calls on one counter.  What is removed from the count is
accounted for, up to increments that wrap.
-/

namespace Kiteq

open Lib System Optimistic

/-! ## Member functions -/

namespace Counter

/-- `long inc()`: what it returns, and the count it leaves. -/
def inc (counter : CLong) : CLong × CLong := (counter + 1, counter + 1)

/-- `long getAndIncrement()`, which returns the count after the increment. -/
def getAndIncrement (counter : CLong) : CLong × CLong := (counter + 1, counter + 1)

def getCount (counter : CLong) : CLong := counter

def compareAndSet (counter expval newval : CLong) : Bool × CLong :=
  if counter = expval then (true, newval) else (false, counter)

end Counter

inductive CounterOp where
  | inc
  | getAndIncrement
  | getCountChange
deriving DecidableEq, Repr

/-- What an operation does about the count. -/
def CounterOp.plan : CounterOp → CLong → Plan CLong CLong
  | .inc, c => .store (Counter.inc c).2 (Counter.inc c).1
  | .getAndIncrement, c => .store (Counter.getAndIncrement c).2 (Counter.getAndIncrement c).1
  | .getCountChange, c => .exchange 0 (Counter.getCount c)

/-- A counter that starts at `c₀`, and the calls made on it. -/
def counter (c₀ : CLong) : System (Action CounterOp) (Cell CounterOp CLong CLong) :=
  cell CounterOp.plan c₀

namespace Counter

/-- An exchange is a `compareAndSet`. -/
theorem step_exchange {ω ρ : Type} {plan : ω → CLong → Plan CLong ρ} {s : Cell ω CLong ρ} {i : ℕ}
    {op : ω} {found v : CLong} {r : ρ} (hc : s.calls[i]? = some ⟨op, .found found⟩)
    (hplan : plan op found = .exchange v r) : Optimistic.step plan (.exchange i) s = some
      ⟨(compareAndSet s.value found v).2,
        s.calls.set i ⟨op, if (compareAndSet s.value found v).1 then .returned r else .begun⟩⟩ := by
  by_cases heq : s.value = found <;> simp [Optimistic.step, hc, hplan, compareAndSet, heq]

/-! ## What is removed -/

section

variable (x : Transition (Action CounterOp) (Cell CounterOp CLong CLong))

/-- The count is incremented. -/
def increments : Bool :=
  match x.action with
  | .find i => x.pre.calls[i]?.any (·.op ≠ .getCountChange)
  | _ => false

/-- The `compareAndSet` of a `getCountChange` succeeds. -/
def takes : Bool :=
  match x.action with
  | .exchange i => x.pre.calls[i]?.any (·.pc = .found x.pre.value)
  | _ => false

/-- What a successful `compareAndSet` removes from the count. -/
def removed : ℤ := if takes x then x.pre.value.toInt - x.post.value.toInt else 0

/-- What call `i` removes. -/
def removedBy (i : ℕ) : ℤ := if acts i x then removed x else 0

/-- An increment finds the count at `LONG_MAX`. -/
def wraps : Bool := increments x && x.pre.value.toInt = 2 ^ 63 - 1

end

variable {c₀ : CLong} {a : Action CounterOp} {s s' : Cell CounterOp CLong CLong}
  {t : List (Transition (Action CounterOp) (Cell CounterOp CLong CLong))}

theorem toInt_add_one (c : CLong) :
    (c + 1).toInt + 2 ^ 64 * (decide (c.toInt = 2 ^ 63 - 1)).toNat = c.toInt + 1 := by
  have hlt := c.toInt_lt
  have hle := c.le_toInt
  by_cases hmax : c.toInt = 2 ^ 63 - 1
  · have hc : c = BitVec.ofInt 64 (2 ^ 63 - 1) := by rw [← hmax, BitVec.ofInt_toInt]
    rw [hc]
    rfl
  · rw [decide_eq_false hmax, BitVec.toInt_add, Int.bmod_eq_of_le]
    · simp
    · simp; omega
    · simp; omega

/-- An operation that stores is an increment. -/
theorem exists_of_plan_store {op : CounterOp} {c v r : CLong} (h : op.plan c = .store v r) :
    op ≠ .getCountChange ∧ v = c + 1 := by
  cases op <;> cases h <;> exact ⟨by simp, rfl⟩

/-- An operation that exchanges is a `getCountChange`. -/
theorem exists_of_plan_exchange {op : CounterOp} {c v r : CLong}
    (h : op.plan c = .exchange v r) : op = .getCountChange ∧ v = 0 ∧ r = c := by
  cases op <;> cases h
  exact ⟨rfl, rfl, rfl⟩

/-- **Step lemma.** -/
theorem toInt_step (h : (counter c₀).step a s = some s') :
    s'.value.toInt + (removed ⟨s, a, s'⟩ + 2 ^ 64 * (wraps ⟨s, a, s'⟩).toNat) =
      s.value.toInt + (increments ⟨s, a, s'⟩).toNat := by
  cases Step.of_step h with
  | call => simp [removed, takes, wraps, increments]
  | @done i op r _ hc hplan => cases op <;> cases hplan
  | @store i op v r _ hc hplan =>
      obtain ⟨hop, rfl⟩ := exists_of_plan_store hplan
      have hadd := toInt_add_one s.value
      simpa [removed, takes, wraps, increments, hc, hop] using hadd
  | @find i op v r _ hc hplan =>
      obtain ⟨rfl, -, -⟩ := exists_of_plan_exchange hplan
      simp [removed, takes, wraps, increments, hc]
  | @exchange i op v r _ hc hplan => simp [removed, takes, wraps, increments, hc]
  | @retry i op found v r _ hc hplan hne =>
      simp [removed, takes, wraps, increments, hc, Ne.symm hne]

/-- A `compareAndSet` that succeeds leaves zero. -/
theorem value_of_takes (h : (counter c₀).step a s = some s') (hx : takes ⟨s, a, s'⟩ = true) :
    s'.value = 0 := by
  cases Step.of_step h with
  | exchange hc hplan => exact (exists_of_plan_exchange hplan).2.1
  | retry hc hplan hne => simp [takes, hc, Ne.symm hne] at hx
  | _ => cases hx

/-! ## Conservation -/

/-- The count accounts for every increment and everything removed, up to wrapping. -/
theorem account_of_run (hrun : (counter c₀).Run t s) :
    s.value.toInt + ((t.map removed).sum + 2 ^ 64 * t.countP wraps) =
      c₀.toInt + t.countP increments := by
  have hbalance := hrun.balance (m := fun s ↦ s.value.toInt) (c := c₀.toInt)
    (fun x ↦ removed x + 2 ^ 64 * ((wraps x).toNat : ℤ)) (fun x ↦ ((increments x).toNat : ℤ))
    (by rintro s rfl; rfl) fun x _ h ↦ toInt_step h
  rwa [List.sum_map_add, List.sum_map_mul_left t (fun x ↦ ((wraps x).toNat : ℤ)), sum_toNat_int,
    sum_toNat_int] at hbalance

/-- Where a step raises the count above zero, it increments it. -/
theorem max_step (h : (counter c₀).step a s = some s') :
    max s'.value.toInt 0 ≤ max s.value.toInt 0 + (increments ⟨s, a, s'⟩).toNat := by
  have hstep := toInt_step h
  cases hx : takes ⟨s, a, s'⟩ with
  | true =>
    have hvalue : s'.value.toInt = 0 := by rw [value_of_takes h hx]; rfl
    omega
  | false =>
    have hremoved : removed ⟨s, a, s'⟩ = 0 := by simp [removed, hx]
    omega

/-- The count exceeds what it started from by at most the increments. -/
theorem toInt_le_of_run (hrun : (counter c₀).Run t s) :
    s.value.toInt ≤ max c₀.toInt 0 + t.countP increments := by
  have hbalance := hrun.balance_le (m := fun s ↦ max s.value.toInt 0) (c := max c₀.toInt 0)
    (fun _ ↦ 0) (fun x ↦ ((increments x).toNat : ℤ)) (by rintro s rfl; exact le_refl _)
    fun ⟨s, a, s'⟩ _ h ↦ by rw [add_zero]; exact max_step h
  have hzero : (t.map fun _ ↦ (0 : ℤ)).sum = 0 := by simp
  rw [sum_toNat_int, hzero] at hbalance
  omega

/-- Fewer increments than it takes to get from the start to `LONG_MAX` do not wrap. -/
theorem wraps_eq_false (hrun : (counter c₀).Run t s)
    (hfew : (t.countP increments : ℤ) < 2 ^ 63 - max c₀.toInt 0) : ∀ x ∈ t, wraps x = false := by
  induction hrun with
  | init => simp
  | @step t a s s' hrun ht ih =>
      rw [List.countP_cons] at hfew
      push_cast at hfew
      refine List.forall_mem_cons.mpr ⟨?_, ih (by omega)⟩
      have hle := toInt_le_of_run hrun
      rw [wraps, Bool.and_eq_false_iff]
      cases hinc : increments ⟨s, a, s'⟩ with
      | false => exact .inl rfl
      | true =>
        refine .inr (decide_eq_false fun hmax ↦ ?_)
        simp only [hinc, if_true] at hfew hmax
        omega

/-- What a call of `getCountChange` has returned. -/
def amount (c : Call CounterOp CLong CLong) : ℤ :=
  match c.pc with
  | .returned r => if c.op = .getCountChange then r.toInt else 0
  | _ => 0

/-- What call `i` has returned, if it is one of `getCountChange`. -/
def amountOf (i : ℕ) (s : Cell CounterOp CLong CLong) : ℤ := (s.calls[i]?.map amount).getD 0

theorem amountOf_set {i j : ℕ} {c d : Call CounterOp CLong CLong} {v : CLong}
    (hc : s.calls[j]? = some c) : amountOf i ⟨v, s.calls.set j d⟩ =
      if i = j then amount d else amountOf i s := by
  rw [amountOf, getElem?_set_of_some hc]
  split <;> rfl

/-- A step of call `j` that removes nothing, and after which it has returned nothing removed. -/
theorem amountOf_set_zero {i j : ℕ} {c d : Call CounterOp CLong CLong} {v : CLong}
    (hc : s.calls[j]? = some c) (hpre : amount c = 0) (hpost : amount d = 0) :
    amountOf i ⟨v, s.calls.set j d⟩ = amountOf i s := by
  rw [amountOf_set hc]
  split
  · rename_i hij
    subst hij
    simp [amountOf, hc, hpre, hpost]
  · rfl

/-- **Step lemma.** -/
theorem amountOf_step (i : ℕ) (h : (counter c₀).step a s = some s') :
    amountOf i s' = amountOf i s + removedBy ⟨s, a, s'⟩ i := by
  cases Step.of_step h with
  | @call op =>
      have hamount : amountOf i { s with calls := s.calls ++ [⟨op, .begun⟩] } = amountOf i s := by
        rw [amountOf, getElem?_concat]
        split
        · rename_i hi
          simp [amountOf, hi, amount]
        · rfl
      simp [hamount, removedBy, removed, takes]
  | @done j op r _ hc hplan => cases op <;> cases hplan
  | @store j op v r _ hc hplan =>
      obtain ⟨hop, -⟩ := exists_of_plan_store hplan
      have hpost : amount ⟨op, .returned r⟩ = 0 := if_neg hop
      rw [amountOf_set_zero hc rfl hpost]
      simp [removedBy, removed, takes]
  | @find j op v r _ hc hplan =>
      rw [amountOf_set_zero hc rfl rfl]
      simp [removedBy, removed, takes]
  | @retry j op found v r _ hc hplan hne =>
      rw [amountOf_set_zero hc rfl rfl]
      simp [removedBy, removed, takes, hc, Ne.symm hne]
  | @exchange j op v r _ hc hplan =>
      obtain ⟨rfl, rfl, rfl⟩ := exists_of_plan_exchange hplan
      rw [amountOf_set hc]
      by_cases hij : i = j
      · subst hij
        simp [amount, amountOf, hc, removedBy, acts, Action.actor, removed, takes]
      · simp [hij, Ne.symm hij, removedBy, acts, Action.actor]

/-- What a call of `getCountChange` returns is what it has removed. -/
theorem sum_removedBy (hrun : (counter c₀).Run t s) (i : ℕ) :
    (t.map (removedBy · i)).sum = amountOf i s := by
  have hbalance := hrun.balance (m := amountOf i) (c := 0) (fun _ ↦ 0) (removedBy · i)
    (by rintro s rfl; rfl) fun ⟨s, a, s'⟩ _ h ↦ by rw [add_zero, amountOf_step i h]
  simpa using hbalance.symm

/-- **Conservation.**  What was removed and what is there is what there was at first and what was
added, exactly if no increment has found the count at `LONG_MAX`, which it takes as many
increments to reach as the count starts below it.  And a call of `getCountChange` returns what it
has itself removed, whatever became of the count between its read and its swap. -/
theorem conserved_of_run (hrun : (counter c₀).Run t s) :
    ((t.map removed).sum + s.value.toInt = c₀.toInt + t.countP increments ↔
      ∀ x ∈ t, wraps x = false) ∧
    ((t.countP increments : ℤ) < 2 ^ 63 - max c₀.toInt 0 → ∀ x ∈ t, wraps x = false) ∧
    ∀ i r, s.calls[i]? = some ⟨.getCountChange, .returned r⟩ →
      (t.map (removedBy · i)).sum = r.toInt := by
  refine ⟨?_, wraps_eq_false hrun, fun i r hi ↦ ?_⟩
  · have haccount := account_of_run hrun
    have hwraps : (∀ x ∈ t, wraps x = false) ↔ t.countP wraps = 0 := by
      simp [List.countP_eq_zero]
    rw [hwraps]
    omega
  · rw [sum_removedBy hrun, amountOf, hi]
    simp [amount]

/-- Two drains, with the first reading five before and swapping after the second has taken five and
five increments have restored them. -/
def drainRun : List (Action CounterOp) :=
  [.call .getCountChange, .call .getCountChange, .find 0, .find 1, .exchange 1] ++
    [2, 3, 4, 5, 6].flatMap (fun i ↦ [.call .inc, .find i]) ++ [.exchange 0]

/-- Each drain returns the five it has taken, and nothing of the ten is lost. -/
theorem conserved_drain : ∃ t s, (counter 5).Run t s ∧
    s.calls[0]? = some ⟨.getCountChange, .returned 5⟩ ∧ t.countP increments = 5 ∧
    (t.map removed).sum + s.value.toInt = 10 ∧ (t.map (removedBy · 0)).sum = 5 := by
  have htrace : ((counter 5).trace drainRun [] ⟨5, []⟩).map
      (fun r ↦ (r.2.calls[0]?, r.1.countP increments)) =
      some (some ⟨.getCountChange, .returned 5⟩, 5) := by decide +kernel
  obtain ⟨⟨t, s⟩, ht, heq⟩ := Option.map_eq_some_iff.mp htrace
  obtain ⟨hcall, hcount⟩ := Prod.mk.inj heq
  have hrun : (counter 5).Run t s := .of_trace (.init rfl) ht
  obtain ⟨hexact, hfew, hreturned⟩ := conserved_of_run hrun
  have hsum := hexact.mpr (hfew (by rw [hcount]; decide))
  rw [hcount] at hsum
  exact ⟨t, s, hrun, hcall, hcount, hsum, hreturned 0 5 hcall⟩

/-- One increment of a count that starts at `LONG_MAX`. -/
theorem not_conserved_longMax : ∃ t s, (counter (BitVec.ofInt 64 (2 ^ 63 - 1))).Run t s ∧
    t.countP increments = 1 ∧ (t.map removed).sum + s.value.toInt ≠
      (BitVec.ofInt 64 (2 ^ 63 - 1)).toInt + t.countP increments := by
  have htrace : ((counter (BitVec.ofInt 64 (2 ^ 63 - 1))).trace [.call .inc, .find 0] []
      ⟨BitVec.ofInt 64 (2 ^ 63 - 1), []⟩).map
      (fun r ↦ (r.1.countP increments, (r.1.map removed).sum + r.2.value.toInt)) =
      some (1, -2 ^ 63) := by decide +kernel
  obtain ⟨⟨t, s⟩, ht, heq⟩ := Option.map_eq_some_iff.mp htrace
  obtain ⟨hcount, hsum⟩ := Prod.mk.inj heq
  refine ⟨t, s, .of_trace (.init rfl) ht, hcount, ?_⟩
  rw [hcount, hsum]
  decide

end Counter

end Kiteq

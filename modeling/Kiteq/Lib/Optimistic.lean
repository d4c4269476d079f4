import Kiteq.Lib.History
import Kiteq.Lib.Table
import Mathlib.Algebra.BigOperators.Ring.List
import Mathlib.Algebra.Order.Group.Nat
import Mathlib.Algebra.Ring.Nat

/-!
# Optimistic updates of a shared cell

Any number of calls share one cell.  A call finds the value of the cell and decides by it: to
return, to store a new value at once, or to let go of the cell and exchange the value it has found
for a new one in a later step.  The exchange compares: if the cell holds another value by then, the
call starts over.

`Step` says what a step does to the cell, and `Turn` what it is to one call.  A call starts over no
more often than other calls change the cell between its own two steps; and a call changes the cell
at most once, so that every call ends.
-/

namespace Kiteq.Lib.Optimistic

open Kiteq.Lib.System

universe u v w

/-- What a call does about the value it has found. -/
inductive Plan (V : Type v) (ρ : Type w) where
  /-- It returns. -/
  | done (r : ρ)
  /-- It stores a value in the same step, and returns. -/
  | store (v : V) (r : ρ)
  /-- It exchanges the value found for another in a later step, and returns if that succeeds. -/
  | exchange (v : V) (r : ρ)

/-- Where a call is. -/
inductive Pc (V : Type v) (ρ : Type w) where
  | begun
  /-- It is about to exchange the value found. -/
  | found (v : V)
  | returned (r : ρ)
deriving DecidableEq

structure Call (ω : Type u) (V : Type v) (ρ : Type w) where
  op : ω
  pc : Pc V ρ
deriving DecidableEq

/-- A cell with the calls made on it, which are known by their index. -/
structure Cell (ω : Type u) (V : Type v) (ρ : Type w) where
  value : V
  calls : List (Call ω V ρ)
deriving DecidableEq

inductive Action (ω : Type u) where
  /-- An operation is called. -/
  | call (op : ω)
  /-- Call `i` finds the value of the cell. -/
  | find (i : ℕ)
  /-- Call `i` tries to exchange the value it has found. -/
  | exchange (i : ℕ)
deriving DecidableEq

variable {ω : Type u} {V : Type v} {ρ : Type w}

/-- One step of one call. -/
def step [DecidableEq V] (plan : ω → V → Plan V ρ) : Action ω → Cell ω V ρ → Option (Cell ω V ρ)
  | .call op, s => some { s with calls := s.calls ++ [⟨op, .begun⟩] }
  | .find i, s =>
    match s.calls[i]? with
    | some ⟨op, .begun⟩ =>
      match plan op s.value with
      | .done r => some { s with calls := s.calls.set i ⟨op, .returned r⟩ }
      | .store v r => some ⟨v, s.calls.set i ⟨op, .returned r⟩⟩
      | .exchange _ _ => some { s with calls := s.calls.set i ⟨op, .found s.value⟩ }
    | _ => none
  | .exchange i, s =>
    match s.calls[i]? with
    | some ⟨op, .found found⟩ =>
      match plan op found with
      | .exchange v r =>
        if s.value = found then some ⟨v, s.calls.set i ⟨op, .returned r⟩⟩
        else some { s with calls := s.calls.set i ⟨op, .begun⟩ }
      | _ => none
    | _ => none

/-- A cell with a value that nothing has been called on. -/
def cell [DecidableEq V] (plan : ω → V → Plan V ρ) (v₀ : V) : System (Action ω) (Cell ω V ρ) where
  init s := s = ⟨v₀, []⟩
  step := step plan

/-! ## What a step does -/

/-- What a step of a call does. -/
inductive Step (plan : ω → V → Plan V ρ) : Action ω → Cell ω V ρ → Cell ω V ρ → Prop
  | call {op : ω} {s : Cell ω V ρ} :
      Step plan (.call op) s { s with calls := s.calls ++ [⟨op, .begun⟩] }
  | done {i : ℕ} {op : ω} {r : ρ} {s : Cell ω V ρ} (hc : s.calls[i]? = some ⟨op, .begun⟩)
      (hplan : plan op s.value = .done r) :
      Step plan (.find i) s { s with calls := s.calls.set i ⟨op, .returned r⟩ }
  | store {i : ℕ} {op : ω} {v : V} {r : ρ} {s : Cell ω V ρ}
      (hc : s.calls[i]? = some ⟨op, .begun⟩) (hplan : plan op s.value = .store v r) :
      Step plan (.find i) s ⟨v, s.calls.set i ⟨op, .returned r⟩⟩
  | find {i : ℕ} {op : ω} {v : V} {r : ρ} {s : Cell ω V ρ}
      (hc : s.calls[i]? = some ⟨op, .begun⟩) (hplan : plan op s.value = .exchange v r) :
      Step plan (.find i) s { s with calls := s.calls.set i ⟨op, .found s.value⟩ }
  | exchange {i : ℕ} {op : ω} {v : V} {r : ρ} {s : Cell ω V ρ}
      (hc : s.calls[i]? = some ⟨op, .found s.value⟩) (hplan : plan op s.value = .exchange v r) :
      Step plan (.exchange i) s ⟨v, s.calls.set i ⟨op, .returned r⟩⟩
  | retry {i : ℕ} {op : ω} {found v : V} {r : ρ} {s : Cell ω V ρ}
      (hc : s.calls[i]? = some ⟨op, .found found⟩) (hplan : plan op found = .exchange v r)
      (hne : s.value ≠ found) :
      Step plan (.exchange i) s { s with calls := s.calls.set i ⟨op, .begun⟩ }

variable {plan : ω → V → Plan V ρ} {v₀ : V} {a : Action ω} {s s' : Cell ω V ρ}

/-- **Inversion.** -/
theorem Step.of_step [DecidableEq V] (h : step plan a s = some s') : Step plan a s s' := by
  cases a with
  | call op =>
      cases h
      exact .call
  | find i =>
      simp only [step] at h
      split at h
      · rename_i op hc
        split at h
        · rename_i r hplan
          cases h
          exact .done hc hplan
        · rename_i v r hplan
          cases h
          exact .store hc hplan
        · rename_i v r hplan
          cases h
          exact .find hc hplan
      · cases h
  | exchange i =>
      simp only [step] at h
      split at h
      · rename_i op found hc
        split at h
        · rename_i v r hplan
          split at h
          · rename_i heq
            subst heq
            cases h
            exact .exchange hc hplan
          · rename_i hne
            cases h
            exact .retry hc hplan hne
        · cases h
      · cases h

/-! ## A step as one call sees it -/

/-- The call that takes the step. -/
def Action.actor : Action ω → Option ℕ
  | .call _ => none
  | .find i | .exchange i => some i

def Pc.isReturned : Pc V ρ → Bool
  | .returned _ => true
  | _ => false

/-- Where call `i` is. -/
def Cell.pc (s : Cell ω V ρ) (i : ℕ) : Option (Pc V ρ) := s.calls[i]?.map (·.pc)

/-- What a step is to call `i`. -/
inductive Turn (i : ℕ) (a : Action ω) (s s' : Cell ω V ρ) : Prop
  /-- Another call moves. -/
  | other (ha : a.actor ≠ some i) (hpc : s'.pc i = s.pc i)
  /-- The call is made. -/
  | begins (ha : a.actor ≠ some i) (hpre : s.pc i = none) (hpost : s'.pc i = some .begun)
  | finds (ha : a.actor = some i) (hpre : s.pc i = some .begun)
      (hpost : s'.pc i = some (.found s.value)) (hvalue : s'.value = s.value)
  | returns {r : ρ} (ha : a.actor = some i) (hpre : (s.pc i).all (!·.isReturned) = true)
      (hpost : s'.pc i = some (.returned r))
  | again {found : V} (ha : a.actor = some i) (hpre : s.pc i = some (.found found))
      (hne : s.value ≠ found) (hpost : s'.pc i = some .begun)

theorem pc_set {i j : ℕ} {c d : Call ω V ρ} {v : V} (hc : s.calls[j]? = some c) :
    Cell.pc ⟨v, s.calls.set j d⟩ i = if i = j then some d.pc else s.pc i := by
  rw [Cell.pc, getElem?_set_of_some hc, apply_ite (Option.map _)]
  rfl

theorem pc_concat {i : ℕ} {d : Call ω V ρ} {v : V} :
    Cell.pc ⟨v, s.calls ++ [d]⟩ i = if i = s.calls.length then some d.pc else s.pc i := by
  rw [Cell.pc, getElem?_concat, apply_ite (Option.map _)]
  rfl

/-- A step is one of these to any call. -/
theorem Step.turn (h : Step plan a s s') (i : ℕ) : Turn i a s s' := by
  have hactor {j : ℕ} (hij : i ≠ j) : some j ≠ some i := fun h ↦ hij (Option.some.inj h).symm
  cases h with
  | @call op =>
      by_cases hi : i = s.calls.length
      · exact .begins (by simp [Action.actor]) (by simp [Cell.pc, hi])
          (by rw [pc_concat, if_pos hi])
      · exact .other (by simp [Action.actor]) (by rw [pc_concat, if_neg hi])
  | @done j op r _ hc | @store j op v r _ hc | @exchange j op v r _ hc =>
      by_cases hij : i = j
      · subst hij
        exact .returns rfl (by simp [Cell.pc, hc, Pc.isReturned]) (by rw [pc_set hc, if_pos rfl])
      · exact .other (hactor hij) (by rw [pc_set hc, if_neg hij])
  | @find j op v r _ hc =>
      by_cases hij : i = j
      · subst hij
        exact .finds rfl (by simp [Cell.pc, hc]) (by rw [pc_set hc, if_pos rfl]) rfl
      · exact .other (hactor hij) (by rw [pc_set hc, if_neg hij])
  | @retry j op found v r _ hc hplan hne =>
      by_cases hij : i = j
      · subst hij
        exact .again rfl (by simp [Cell.pc, hc]) hne (by rw [pc_set hc, if_pos rfl])
      · exact .other (hactor hij) (by rw [pc_set hc, if_neg hij])

/-! ## How often a call starts over -/

/-- Call `i` takes the step. -/
def acts (i : ℕ) (x : Transition (Action ω) (Cell ω V ρ)) : Bool := x.action.actor = some i

/-- Call `i` starts over. -/
def retries (i : ℕ) (x : Transition (Action ω) (Cell ω V ρ)) : Bool :=
  acts i x && (x.post.pc i).any fun
    | .begun => true
    | _ => false

/-- How far call `i` is. -/
def Cell.progress (s : Cell ω V ρ) (i : ℕ) : ℕ :=
  match s.pc i with
  | none | some .begun => 0
  | some (.found _) => 1
  | some (.returned _) => 2

/-- Call `i` has found a value, and not tried to exchange it. -/
def Cell.waiting (s : Cell ω V ρ) (i : ℕ) : Bool := (s.pc i).any fun
  | .found _ => true
  | _ => false

/-- How many calls have returned. -/
def Cell.returned (s : Cell ω V ρ) : ℕ := s.calls.countP (·.pc.isReturned)

theorem returned_set {i : ℕ} {c d : Call ω V ρ} {v : V} (hc : s.calls[i]? = some c) :
    Cell.returned ⟨v, s.calls.set i d⟩ + c.pc.isReturned.toNat =
      s.returned + d.pc.isReturned.toNat := countP_set_add _ hc

/-- A call that takes a step gets ahead, or starts over. -/
theorem Turn.progress_add_le {i : ℕ} (h : Turn i a s s') :
    s.progress i + (acts i ⟨s, a, s'⟩).toNat ≤
      s'.progress i + 2 * (retries i ⟨s, a, s'⟩).toNat := by
  cases h with
  | other ha hpc =>
      have hacts : acts i ⟨s, a, s'⟩ = false := decide_eq_false ha
      have hprogress : s'.progress i = s.progress i := by rw [Cell.progress, Cell.progress, hpc]
      simp [hacts, hprogress]
  | begins ha hpre hpost =>
      have hacts : acts i ⟨s, a, s'⟩ = false := decide_eq_false ha
      simp [Cell.progress, hpre, hacts]
  | finds ha hpre hpost hvalue => simp [Cell.progress, hpre, hpost, acts, ha]
  | returns ha hpre hpost =>
      have hone : s.progress i ≤ 1 := by
        unfold Cell.progress
        split <;> simp_all [Pc.isReturned]
      have htwo : s'.progress i = 2 := by rw [Cell.progress, hpost]
      have hacts := Bool.toNat_le (acts i ⟨s, a, s'⟩)
      omega
  | again ha hpre hne hpost => simp [Cell.progress, hpre, hpost, acts, retries, ha]

section

variable [DecidableEq V] {t : List (Transition (Action ω) (Cell ω V ρ))}

def changes (x : Transition (Action ω) (Cell ω V ρ)) : Bool := x.post.value ≠ x.pre.value

/-- Another call changes the cell between the steps in which call `i` finds and exchanges. -/
def intrudes (i : ℕ) (x : Transition (Action ω) (Cell ω V ρ)) : Bool :=
  !acts i x && changes x && x.pre.waiting i

/-- The value call `i` has found is there no longer. -/
def Cell.stale (s : Cell ω V ρ) (i : ℕ) : Bool := (s.pc i).any fun
  | .found v => v ≠ s.value
  | _ => false

theorem stale_le_waiting (s : Cell ω V ρ) (i : ℕ) :
    (s.stale i).toNat ≤ (s.waiting i).toNat := by
  unfold Cell.stale Cell.waiting
  cases s.pc i with
  | none => simp
  | some pc =>
    cases pc with
    | found v => exact Bool.toNat_le _
    | _ => simp

/-- A call that starts over has found a value that another call has changed since. -/
theorem Turn.stale_add_le {i : ℕ} (h : Turn i a s s') :
    (s'.stale i).toNat + (retries i ⟨s, a, s'⟩).toNat ≤
      (s.stale i).toNat + (intrudes i ⟨s, a, s'⟩).toNat := by
  cases h with
  | other ha hpc =>
      have hacts : acts i ⟨s, a, s'⟩ = false := decide_eq_false ha
      have hretries : retries i ⟨s, a, s'⟩ = false := by rw [retries, hacts, Bool.false_and]
      rw [hretries]
      by_cases hvalue : s'.value = s.value
      · have hstale : s'.stale i = s.stale i := by rw [Cell.stale, Cell.stale, hpc, hvalue]
        rw [hstale]
        exact Nat.le_add_right _ _
      · have hwaiting : s'.waiting i = s.waiting i := by rw [Cell.waiting, Cell.waiting, hpc]
        have hintrudes : intrudes i ⟨s, a, s'⟩ = s.waiting i := by
          simp [intrudes, hacts, changes, hvalue]
        rw [hintrudes, ← hwaiting]
        exact Nat.le_add_left_of_le (stale_le_waiting s' i)
  | begins ha hpre hpost =>
      have hacts : acts i ⟨s, a, s'⟩ = false := decide_eq_false ha
      simp [Cell.stale, hpost, retries, hacts]
  | finds ha hpre hpost hvalue => simp [Cell.stale, hpost, hvalue, retries]
  | returns ha hpre hpost => simp [Cell.stale, hpost, retries]
  | again ha hpre hne hpost =>
      have hstale : s.stale i = true := by simpa [Cell.stale, hpre] using Ne.symm hne
      have hfresh : s'.stale i = false := by simp [Cell.stale, hpost]
      have hretries := Bool.toNat_le (retries i ⟨s, a, s'⟩)
      rw [hstale, hfresh, Bool.toNat_true, Bool.toNat_false]
      omega

/-- A call starts over at most as often as other calls change the cell between its two steps. -/
theorem countP_retries_le (hrun : (cell plan v₀).Run t s) (i : ℕ) :
    t.countP (retries i) ≤ t.countP (intrudes i) := by
  have hbalance := hrun.balance_le (m := fun s ↦ (s.stale i).toNat) (c := 0)
    (fun x ↦ (retries i x).toNat) (fun x ↦ (intrudes i x).toNat)
    (by rintro s rfl; rfl) fun x _ h ↦ ((Step.of_step h).turn i).stale_add_le
  rw [sum_toNat, sum_toNat] at hbalance
  omega

/-- A call takes at most two steps each time it starts. -/
theorem countP_acts_le (hrun : (cell plan v₀).Run t s) (i : ℕ) :
    t.countP (acts i) ≤ 2 * (t.countP (retries i) + 1) := by
  have hbalance := hrun.le_balance (m := fun s ↦ s.progress i) (c := 0)
    (fun x ↦ 2 * (retries i x).toNat) (fun x ↦ (acts i x).toNat)
    (fun s _ ↦ Nat.zero_le _) fun x _ h ↦ ((Step.of_step h).turn i).progress_add_le
  have hprogress : s.progress i ≤ 2 := by
    unfold Cell.progress
    split <;> omega
  rw [List.sum_map_mul_left t (fun x ↦ (retries i x).toNat) 2, sum_toNat, sum_toNat] at hbalance
  omega

/-! ## Every call ends -/

/-- A step that changes the cell ends a call. -/
theorem Step.returned_add_le (h : Step plan a s s') :
    s.returned + (changes ⟨s, a, s'⟩).toNat ≤ s'.returned := by
  cases h with
  | call => simp [changes, Cell.returned, Pc.isReturned]
  | @done i op r _ hc | @store i op v r _ hc | @exchange i op v r _ hc =>
      refine Nat.le_trans (Nat.add_le_add_left (Bool.toNat_le _) _) ?_
      exact (returned_set (d := ⟨op, .returned r⟩) hc).ge
  | @find i op v r _ hc => 
      have hreturned := returned_set (v := s.value) (d := ⟨op, .found s.value⟩) hc
      simpa [changes, Pc.isReturned] using hreturned.ge
  | @retry i op found v r _ hc =>
      have hreturned := returned_set (v := s.value) (d := ⟨op, .begun⟩) hc
      simpa [changes, Pc.isReturned] using hreturned.ge

/-- A run changes the cell at most once for each call made. -/
theorem countP_changes_le (hrun : (cell plan v₀).Run t s) :
    t.countP changes ≤ s.calls.length := by
  have hbalance := hrun.le_balance (m := Cell.returned) (c := 0) (fun _ ↦ 0)
    (fun x ↦ (changes x).toNat) (fun s _ ↦ Nat.zero_le _) fun x _ h ↦
      (Step.of_step h).returned_add_le
  have hlength : s.returned ≤ s.calls.length := List.countP_le_length
  have hzero : (t.map fun _ ↦ 0).sum = 0 := by simp
  rw [sum_toNat, hzero] at hbalance
  omega

/-- A call that has let go of the cell means to exchange what it has found. -/
def Cell.Promised (plan : ω → V → Plan V ρ) (s : Cell ω V ρ) : Prop :=
  ∀ c ∈ s.calls, ∀ found, c.pc = .found found → ∃ v r, plan c.op found = .exchange v r

theorem promised_of_reachable (hs : (cell plan v₀).Reachable s) : s.Promised plan := by
  refine hs.invariant (I := fun s ↦ s.Promised plan) ?_ fun a s s' hs _ h ↦ ?_
  · rintro s rfl
    simp [Cell.Promised]
  · cases Step.of_step h with
    | call => exact (adds_concat _ _).forall_mem hs fun found hpc ↦ by cases hpc
    | done | store | exchange | retry =>
        exact (adds_set _ _ _).forall_mem hs fun found hpc ↦ by cases hpc
    | @find i op v r _ hc hplan =>
        refine (adds_set _ _ _).forall_mem hs fun found hpc ↦ ?_
        cases hpc
        exact ⟨v, r, hplan⟩

/-- A call that has not returned can take its next step. -/
theorem exists_step (hs : (cell plan v₀).Reachable s) {i : ℕ} {c : Call ω V ρ}
    (hc : s.calls[i]? = some c) (hpc : c.pc.isReturned = false) :
    ∃ a s', a.actor = some i ∧ (cell plan v₀).step a s = some s' := by
  obtain ⟨op, pc⟩ := c
  cases pc with
  | begun =>
      refine ⟨.find i, ?_⟩
      simp only [cell, step, hc]
      cases plan op s.value <;> exact ⟨_, rfl, rfl⟩
  | found found =>
      obtain ⟨v, r, hplan⟩ := promised_of_reachable hs _ (List.mem_of_getElem? hc) found rfl
      refine ⟨.exchange i, ?_⟩
      simp only [cell, step, hc, hplan]
      split <;> exact ⟨_, rfl, rfl⟩
  | returned r => cases hpc

end

end Kiteq.Lib.Optimistic

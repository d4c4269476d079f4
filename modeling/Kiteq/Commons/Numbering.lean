import Kiteq.Commons.Counter

/-!
# Numbers from a counter

A counter on which threads call nothing but `inc` and `getAndIncrement` gives each call a number of
its own.  Callers that keep an `int` of the `long`, as the producers do that number their messages,
keep different ones for as long as there are not more calls than an `int` has values.
`numbers_of_reachesUnder` has it for any width.
-/

namespace Kiteq

open Lib System Optimistic

namespace Counter

variable {c₀ : CLong} {s s' : Cell CounterOp CLong CLong} {i j : ℕ} {r r' : CLong}

/-- `getCountChange`, which sets the count back, is not called. -/
def numbers (a : Action CounterOp) (_ : Cell CounterOp CLong CLong) : Prop :=
  a ≠ .call .getCountChange

instance (a : Action CounterOp) (s : Cell CounterOp CLong CLong) : Decidable (numbers a s) :=
  inferInstanceAs (Decidable (_ ≠ _))

/-- Call `i` has returned a number. -/
def Drew (s : Cell CounterOp CLong CLong) (i : ℕ) (r : CLong) : Prop :=
  ∃ op, s.calls[i]? = some ⟨op, .returned r⟩

/-- The calls were served one after the other, call `i` at `turn i`. -/
structure Served (c₀ : CLong) (turn : ℕ → ℕ) (s : Cell CounterOp CLong CLong) : Prop where
  value : s.value = c₀ + BitVec.ofNat 64 s.returned
  drew : ∀ i r, Drew s i r → turn i < s.returned ∧ r = c₀ + BitVec.ofNat 64 (turn i + 1)
  inj : ∀ i j r r', Drew s i r → Drew s j r' → turn i = turn j → i = j
  surj : ∀ k < s.returned, ∃ i r, Drew s i r ∧ turn i = k
  increments : ∀ c ∈ s.calls, c.op ≠ .getCountChange

theorem drew_set {c : Call CounterOp CLong CLong} (hc : s.calls[i]? = some c) {op : CounterOp}
    {v : CLong} : Drew ⟨v, s.calls.set i ⟨op, .returned r⟩⟩ j r' ↔
      j = i ∧ r' = r ∨ j ≠ i ∧ Drew s j r' := by
  simp only [Drew, getElem?_set_iff hc]
  constructor
  · rintro ⟨op', ⟨hji, heq⟩ | ⟨hji, h⟩⟩
    · cases heq
      exact .inl ⟨hji, rfl⟩
    · exact .inr ⟨hji, op', h⟩
  · rintro (⟨hji, rfl⟩ | ⟨hji, op', h⟩)
    · exact ⟨op, .inl ⟨hji, rfl⟩⟩
    · exact ⟨op', .inr ⟨hji, h⟩⟩

/-- What `inc` and `getAndIncrement` store and return. -/
theorem eq_of_plan_store {op : CounterOp} {c v r : CLong} (h : op.plan c = .store v r) :
    v = c + 1 ∧ r = c + 1 := by
  cases op <;> cases h <;> exact ⟨rfl, rfl⟩

/-- A call that is made has no number yet. -/
theorem Served.call {turn : ℕ → ℕ} (hs : Served c₀ turn s) {op : CounterOp}
    (hop : op ≠ .getCountChange) :
    Served c₀ turn { s with calls := s.calls ++ [⟨op, .begun⟩] } := by
  have hreturned : Cell.returned { s with calls := s.calls ++ [⟨op, .begun⟩] } = s.returned := by
    simp [Cell.returned, Pc.isReturned]
  have hdrew {i : ℕ} {r : CLong} :
      Drew { s with calls := s.calls ++ [⟨op, .begun⟩] } i r ↔ Drew s i r := by
    constructor
    · rintro ⟨op', h⟩
      rcases getElem?_concat_iff.mp h with h | ⟨-, h⟩
      · exact ⟨op', h⟩
      · cases h
    · rintro ⟨op', h⟩
      exact ⟨op', getElem?_concat_iff.mpr (.inl h)⟩
  constructor
  · exact hreturned ▸ hs.value
  · intro i r hi
    rw [hreturned]
    exact hs.drew i r (hdrew.mp hi)
  · intro i j r r' hi hj
    exact hs.inj i j r r' (hdrew.mp hi) (hdrew.mp hj)
  · intro k hk
    rw [hreturned] at hk
    obtain ⟨i, r, hi, hturn⟩ := hs.surj k hk
    exact ⟨i, r, hdrew.mpr hi, hturn⟩
  · exact (adds_concat _ _).forall_mem hs.increments hop

/-- A call that increments is served next. -/
theorem Served.increment {turn : ℕ → ℕ} (hs : Served c₀ turn s) {op : CounterOp}
    (hc : s.calls[i]? = some ⟨op, .begun⟩) :
    Served c₀ (Function.update turn i s.returned)
      ⟨s.value + 1, s.calls.set i ⟨op, .returned (s.value + 1)⟩⟩ := by
  have hreturned : Cell.returned ⟨s.value + 1, s.calls.set i ⟨op, .returned (s.value + 1)⟩⟩ =
      s.returned + 1 := by
    simpa [Pc.isReturned] using returned_set (d := ⟨op, .returned (s.value + 1)⟩) hc
  have hvalue : s.value + 1 = c₀ + BitVec.ofNat 64 (s.returned + 1) := by
    rw [hs.value, BitVec.ofNat_add, BitVec.add_assoc]
    rfl
  constructor
  · rw [hreturned]
    exact hvalue
  · intro k r hk
    rw [hreturned]
    rcases (drew_set hc).mp hk with ⟨rfl, rfl⟩ | ⟨hki, hk⟩
    · rw [Function.update_self]
      exact ⟨Nat.lt_succ_self _, hvalue⟩
    · rw [Function.update_of_ne hki]
      exact (hs.drew k r hk).imp_left Nat.lt_succ_of_lt
  · intro k l r r' hk hl
    rcases (drew_set hc).mp hk with ⟨hki, -⟩ | ⟨hki, hk'⟩ <;>
      rcases (drew_set hc).mp hl with ⟨hli, -⟩ | ⟨hli, hl'⟩
    · exact fun _ ↦ hki.trans hli.symm
    · rw [hki, Function.update_self, Function.update_of_ne hli]
      exact fun h ↦ absurd h (Nat.ne_of_gt (hs.drew l _ hl').1)
    · rw [hli, Function.update_self, Function.update_of_ne hki]
      exact fun h ↦ absurd h (Nat.ne_of_lt (hs.drew k _ hk').1)
    · rw [Function.update_of_ne hki, Function.update_of_ne hli]
      exact hs.inj k l r r' hk' hl'
  · intro k hk
    rw [hreturned] at hk
    rcases Nat.lt_succ_iff_lt_or_eq.mp hk with hk | rfl
    · obtain ⟨j, r, hj, hturn⟩ := hs.surj k hk
      -- the call that increments has not returned before
      have hji : j ≠ i := by
        rintro rfl
        obtain ⟨op', hj⟩ := hj
        cases hc.symm.trans hj
      exact ⟨j, r, (drew_set hc).mpr (.inr ⟨hji, hj⟩), by rw [Function.update_of_ne hji, hturn]⟩
    · exact ⟨i, _, (drew_set hc).mpr (.inl ⟨rfl, rfl⟩), Function.update_self ..⟩
  · exact (adds_set _ _ _).forall_mem hs.increments
      (hs.increments ⟨op, .begun⟩ (List.mem_of_getElem? hc))

/-- **Step lemma.** -/
theorem Served.step {turn : ℕ → ℕ} (hs : Served c₀ turn s) {a : Action CounterOp}
    (ha : numbers a s) (h : (counter c₀).step a s = some s') :
    ∃ turn', Served c₀ turn' s' := by
  have hplan {i : ℕ} {op : CounterOp} {pc : Pc CLong CLong} {c v r : CLong}
      (hc : s.calls[i]? = some ⟨op, pc⟩) (hplan : op.plan c = .exchange v r) : False :=
    hs.increments _ (List.mem_of_getElem? hc) (exists_of_plan_exchange hplan).1
  cases Step.of_step h with
  | @call op =>
      have hop : op ≠ .getCountChange := by rintro rfl; exact ha rfl
      exact ⟨turn, hs.call hop⟩
  | @done i op r _ hc hplan => cases op <;> cases hplan
  | @store i op v r _ hc hstore =>
      obtain ⟨rfl, rfl⟩ := eq_of_plan_store hstore
      exact ⟨_, hs.increment hc⟩
  | find hc hexchange | exchange hc hexchange | retry hc hexchange =>
      exact (hplan hc hexchange).elim

theorem served_of_reachesUnder (hs : (counter c₀).ReachesUnder numbers s) :
    ∃ turn, Served c₀ turn s := by
  refine hs.invariant (I := fun s ↦ ∃ turn, Served c₀ turn s) ?_ fun a s s' hs ha h ↦ ?_
  · rintro s rfl
    have hnone {i : ℕ} {r : CLong} : ¬Drew ⟨c₀, []⟩ i r := by simp [Drew]
    exact ⟨id, by simp [Cell.returned], fun _ _ h ↦ (hnone h).elim,
      fun _ _ _ _ h ↦ (hnone h).elim, fun _ h ↦ (Nat.not_lt_zero _ h).elim, by simp⟩
  · obtain ⟨turn, hs⟩ := hs
    exact hs.step ha h

/-- **Every call gets a number of its own, and no number is passed over.**  A caller that keeps
`w` bits of its number has one of its own for as long as `w` bits can count the calls. -/
theorem numbers_of_reachesUnder (hs : (counter c₀).ReachesUnder numbers s) :
    (∀ k < s.returned, ∃ i, Drew s i (c₀ + BitVec.ofNat 64 (k + 1))) ∧
    ∀ w ≤ 64, s.calls.length ≤ 2 ^ w → ∀ i j r r', Drew s i r → Drew s j r' → i ≠ j →
      r.setWidth w ≠ r'.setWidth w := by
  obtain ⟨turn, hs⟩ := served_of_reachesUnder hs
  refine ⟨fun k hk ↦ ?_, fun w hw hlen i j r r' hi hj hij ↦ ?_⟩
  · obtain ⟨i, r, hi, rfl⟩ := hs.surj k hk
    exact ⟨i, (hs.drew i r hi).2 ▸ hi⟩
  obtain ⟨hlt, rfl⟩ := hs.drew i r hi
  obtain ⟨hlt', rfl⟩ := hs.drew j r' hj
  have hreturned : s.returned ≤ 2 ^ w := List.countP_le_length.trans hlen
  intro heq
  refine hij (hs.inj i j _ _ hi hj ?_)
  have hdvd : 2 ^ w ∣ 2 ^ 64 := Nat.pow_dvd_pow 2 hw
  have hmod := congrArg BitVec.toNat heq
  simp only [BitVec.toNat_setWidth, BitVec.toNat_add, BitVec.toNat_ofNat, Nat.add_mod_mod,
    Nat.mod_mod_of_dvd _ hdvd] at hmod
  -- the turns agree modulo `2 ^ w`, and there are not that many
  have hturn : turn i ≡ turn j [MOD 2 ^ w] :=
    Nat.ModEq.add_right_cancel' 1 (Nat.ModEq.add_left_cancel' c₀.toNat hmod)
  exact hturn.eq_of_lt_of_lt (hlt.trans_le hreturned) (hlt'.trans_le hreturned)

/-- Two calls at once, the second served first, whose numbers are kept in an `int`. -/
theorem numbers_two : ∃ s, (counter 0).ReachesUnder numbers s ∧ s.returned = 2 ∧
    (∀ k < s.returned, ∃ i, Drew s i (0 + BitVec.ofNat 64 (k + 1))) ∧ Drew s 0 2 ∧ Drew s 1 1 ∧
    (2 : CLong).setWidth 32 ≠ (1 : CLong).setWidth 32 := by
  have hrun : (((counter 0).guard numbers).exec
      [.call .getAndIncrement, .call .getAndIncrement, .find 1, .find 0] ⟨0, []⟩).map Cell.calls =
      some [⟨.getAndIncrement, .returned 2⟩, ⟨.getAndIncrement, .returned 1⟩] := by decide +kernel
  obtain ⟨s, hs, heq⟩ := exists_reachesUnder hrun rfl
  have h0 : Drew s 0 2 := ⟨.getAndIncrement, by rw [heq]; rfl⟩
  have h1 : Drew s 1 1 := ⟨.getAndIncrement, by rw [heq]; rfl⟩
  have hlen : s.calls.length ≤ 2 ^ 32 := by rw [heq]; decide
  obtain ⟨hall, hne⟩ := numbers_of_reachesUnder hs
  exact ⟨s, hs, by rw [Cell.returned, heq]; rfl, hall, h0, h1,
    hne 32 (by decide) hlen 0 1 2 1 h0 h1 (by decide)⟩

end Counter

end Kiteq

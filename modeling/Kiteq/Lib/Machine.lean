import Mathlib.Data.Nat.Basic

/-!
# Terminating machines with output

A `Machine` is a deterministic step function that emits a list of outputs at each step and
lowers a rank.  `run` iterates it until no step is enabled and collects the outputs; because
the rank bounds the number of steps, `run` is structurally recursive and evaluates.

`run_of_next` and `run_of_halted` are the unfolding equations, and `run_map` says that a
state transformation that commutes with the steps may be applied in the middle of a run: for a
machine that consumes an input, this is the arrival of more input.
-/

namespace Kiteq.Lib

universe u v

/-- A deterministic machine whose steps emit outputs and lower a rank. -/
structure Machine (σ : Type u) (ε : Type v) where
  /-- One step, `none` where the machine has to stop. -/
  next : σ → Option (σ × List ε)
  /-- A bound on the number of steps left. -/
  rank : σ → ℕ
  rank_lt : ∀ {s s' es}, next s = some (s', es) → rank s' < rank s

namespace Machine

variable {σ : Type u} {ε : Type v} (M : Machine σ ε)

/-- At most `fuel` steps. -/
def runFuel : ℕ → σ → σ × List ε
  | 0, s => (s, [])
  | fuel + 1, s => match M.next s with
    | none => (s, [])
    | some (s', es) => ((runFuel fuel s').1, es ++ (runFuel fuel s').2)

/-- Stepping until no step is enabled: the last state and all outputs. -/
def run (s : σ) : σ × List ε := M.runFuel (M.rank s) s

variable {M} {s s' : σ} {es : List ε}

theorem runFuel_of_halted (h : M.next s = none) (fuel : ℕ) : M.runFuel fuel s = (s, []) := by
  cases fuel with
  | zero => rfl
  | succ fuel => simp [runFuel, h]

theorem next_eq_none_of_rank_eq_zero (h : M.rank s = 0) : M.next s = none := by
  cases hn : M.next s with
  | none => rfl
  | some p =>
      obtain ⟨t, es⟩ := p
      exact absurd (M.rank_lt hn) (by omega)

/-- Fuel beyond the rank changes nothing. -/
theorem runFuel_congr {f g : ℕ} (hf : M.rank s ≤ f) (hg : M.rank s ≤ g) :
    M.runFuel f s = M.runFuel g s := by
  induction f generalizing s g with
  | zero =>
      have hn := next_eq_none_of_rank_eq_zero (Nat.le_zero.mp hf)
      rw [runFuel_of_halted hn, runFuel_of_halted hn]
  | succ f ih =>
      cases g with
      | zero =>
          have hn := next_eq_none_of_rank_eq_zero (Nat.le_zero.mp hg)
          rw [runFuel_of_halted hn, runFuel_of_halted hn]
      | succ g =>
          cases hn : M.next s with
          | none => rw [runFuel_of_halted hn, runFuel_of_halted hn]
          | some p =>
              obtain ⟨t, es⟩ := p
              have hlt := M.rank_lt hn
              simp only [runFuel, hn, ih (g := g) (s := t) (by omega) (by omega)]

/-- A machine that cannot step has run. -/
theorem run_of_halted (h : M.next s = none) : M.run s = (s, []) := runFuel_of_halted h _

/-- A run begins with the first step. -/
theorem run_of_next (h : M.next s = some (s', es)) :
    M.run s = ((M.run s').1, es ++ (M.run s').2) := by
  have hlt := M.rank_lt h
  rw [run, runFuel_congr le_rfl (Nat.le_succ (M.rank s)), runFuel, h]
  simp only [run, runFuel_congr (Nat.le_of_lt hlt) le_rfl]

/-- What every step keeps holds where a run ends. -/
theorem run_preserves {p : σ → Prop} (hp : ∀ {s s' es}, M.next s = some (s', es) → p s → p s')
    (hs : p s) : p (M.run s).1 := by
  generalize hr : M.rank s = r
  induction r using Nat.strong_induction_on generalizing s with
  | _ r ih =>
      cases hn : M.next s with
      | none => rwa [run_of_halted hn]
      | some q =>
          obtain ⟨t, es⟩ := q
          have hlt := M.rank_lt hn
          rw [run_of_next hn]
          exact ih (M.rank t) (by omega) (hp hn hs) rfl

/-- A run ends where no step is enabled. -/
theorem next_run (s : σ) : M.next (M.run s).1 = none := by
  generalize hr : M.rank s = r
  induction r using Nat.strong_induction_on generalizing s with
  | _ r ih =>
      cases hn : M.next s with
      | none => rwa [run_of_halted hn]
      | some q =>
          obtain ⟨t, es⟩ := q
          have hlt := M.rank_lt hn
          rw [run_of_next hn]
          exact ih (M.rank t) (by omega) t rfl

/-- A transformation that commutes with the steps may be applied in the middle of a run. -/
theorem run_map (f : σ → σ)
    (hf : ∀ {s s' es}, M.next s = some (s', es) → M.next (f s) = some (f s', es)) (s : σ) :
    M.run (f s) =
      ((M.run (f (M.run s).1)).1, (M.run s).2 ++ (M.run (f (M.run s).1)).2) := by
  generalize hr : M.rank s = r
  induction r using Nat.strong_induction_on generalizing s with
  | _ r ih =>
      cases hn : M.next s with
      | none => simp [run_of_halted hn]
      | some p =>
          obtain ⟨t, es⟩ := p
          have hlt := M.rank_lt hn
          rw [run_of_next (hf hn), run_of_next hn, ih (M.rank t) (by omega) t rfl]
          simp

/-! ## Points on a run -/

variable (M) in
/-- The run of `s` passes through `s'`, having emitted `es`. -/
def Passes (s : σ) (es : List ε) (s' : σ) : Prop :=
  M.run s = ((M.run s').1, es ++ (M.run s').2)

theorem Passes.refl (s : σ) : M.Passes s [] s := rfl

theorem Passes.trans {s'' : σ} {es' : List ε} (h : M.Passes s es s') (h' : M.Passes s' es' s'') :
    M.Passes s (es ++ es') s'' := by
  unfold Passes at *
  rw [h, h', List.append_assoc]

theorem Passes.of_next (h : M.next s = some (s', es)) : M.Passes s es s' := run_of_next h

end Machine

end Kiteq.Lib

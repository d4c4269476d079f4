import Mathlib.Data.Nat.Basic

/-!
# Transition systems with guarded runs

A `System` has initial states and a partial step function over actions; the nondeterminism of
a concurrent program (which thread moves, which packet arrives, whether a wait times out) is
the choice of the action.

`ReachesUnder ok` collects the states of the runs all of whose steps satisfy `ok`, a condition
on the action and on the state before it.  With the trivial condition this is plain
reachability.  `ReachesUnder.invariant` packages the induction over a run once, and
`Refinement.reachable` transports reachability along a state abstraction.

`exec` runs a system on a list of actions, and `exists_reachable` tells of a state reached what
was computed so.

`Run` keeps the history of a run.  Where a property of runs is to be characterized by a condition
on their steps, `Run.forall_iff` and `Run.invariant_iff` reduce it to single steps.
-/

namespace Kiteq.Lib

universe u v

/-- A transition system: initial states, and what each action does to a state it is enabled
in. -/
structure System (α : Type u) (σ : Type v) where
  /-- The states a run may start from. -/
  init : σ → Prop
  /-- The effect of an action, `none` where it is not enabled. -/
  step : α → σ → Option σ

namespace System

variable {α : Type u} {σ : Type v} {S : System α σ} {ok ok' : α → σ → Prop}

/-- The states of the runs of `S` all of whose steps satisfy `ok`. -/
inductive ReachesUnder (S : System α σ) (ok : α → σ → Prop) : σ → Prop
  /-- A run may stop where it starts. -/
  | init {s : σ} : S.init s → ReachesUnder S ok s
  /-- A run is extended by an enabled action that satisfies the condition. -/
  | step {a : α} {s s' : σ} : ReachesUnder S ok s → ok a s → S.step a s = some s' →
      ReachesUnder S ok s'

/-- The states of all runs. -/
abbrev Reachable (S : System α σ) : σ → Prop := S.ReachesUnder fun _ _ ↦ True

/-- A weaker condition allows more runs. -/
theorem ReachesUnder.mono (h : ∀ a s, ok a s → ok' a s) {s : σ} (hs : S.ReachesUnder ok s) :
    S.ReachesUnder ok' s := by
  induction hs with
  | init h0 => exact .init h0
  | step _ hok hstep ih => exact .step ih (h _ _ hok) hstep

theorem ReachesUnder.reachable {s : σ} (hs : S.ReachesUnder ok s) : S.Reachable s :=
  hs.mono fun _ _ _ ↦ trivial

/-- **Invariant rule.** What holds initially and is preserved by every step that satisfies the
condition holds along every run whose steps do. -/
theorem ReachesUnder.invariant {I : σ → Prop} (h0 : ∀ s, S.init s → I s)
    (hstep : ∀ a s s', I s → ok a s → S.step a s = some s' → I s') {s : σ}
    (hs : S.ReachesUnder ok s) : I s := by
  induction hs with
  | init h => exact h0 _ h
  | step _ hok ht ih => exact hstep _ _ _ ih hok ht

/-- The invariant rule relative to a fact already known of every state of the run. -/
theorem ReachesUnder.invariant_of {J I : σ → Prop} (hJ : ∀ s, S.ReachesUnder ok s → J s)
    (h0 : ∀ s, S.init s → I s)
    (hstep : ∀ a s s', J s → I s → ok a s → S.step a s = some s' → I s') {s : σ}
    (hs : S.ReachesUnder ok s) : I s := by
  induction hs with
  | init h => exact h0 _ h
  | step hr hok ht ih => exact hstep _ _ _ (hJ _ hr) ih hok ht

/-- Running a list of actions, `none` as soon as one is not enabled. -/
def exec (S : System α σ) : List α → σ → Option σ
  | [], s => some s
  | a :: as, s => (S.step a s).bind (exec S as)

/-- The states of an executed run are reachable. -/
theorem reachable_exec {as : List α} {s s' : σ} (hs : S.Reachable s)
    (h : S.exec as s = some s') : S.Reachable s' := by
  induction as generalizing s with
  | nil => cases h; exact hs
  | cons a as ih =>
      obtain ⟨t, ht, hrest⟩ := Option.bind_eq_some_iff.mp h
      exact ih (.step hs trivial ht) hrest

/-- The system in which only the steps that satisfy a condition are enabled. -/
def guard (S : System α σ) (ok : α → σ → Prop) [∀ a s, Decidable (ok a s)] : System α σ where
  init := S.init
  step a s := if ok a s then S.step a s else none

/-- A run of the guarded system is a run whose steps satisfy the condition. -/
theorem ReachesUnder.of_guard [∀ a s, Decidable (ok a s)] {s : σ}
    (hs : (S.guard ok).Reachable s) : S.ReachesUnder ok s := by
  induction hs with
  | init h => exact .init h
  | @step a s s' _ _ ht ih =>
      by_cases hok : ok a s
      · exact .step ih hok (by simpa [guard, hok] using ht)
      · simp [guard, hok] at ht

/-! ## Runs of fixed actions -/

variable {ω : Type*} {as : List α} {s₀ : σ} {o : ω}

/-- An executed run reaches a state of which is observed what was computed. -/
theorem exists_reachable {obs : σ → ω} (h : (S.exec as s₀).map obs = some o) (h0 : S.init s₀) :
    ∃ s, S.Reachable s ∧ obs s = o := by
  obtain ⟨s, hs, hobs⟩ := Option.map_eq_some_iff.mp h
  exact ⟨s, reachable_exec (.init h0) hs, hobs⟩

/-- The same of a run whose steps satisfy a condition. -/
theorem exists_reachesUnder [∀ a s, Decidable (ok a s)] {obs : σ → ω}
    (h : ((S.guard ok).exec as s₀).map obs = some o) (h0 : S.init s₀) :
    ∃ s, S.ReachesUnder ok s ∧ obs s = o := by
  obtain ⟨s, hs, hobs⟩ := exists_reachable h h0
  exact ⟨s, .of_guard hs, hobs⟩

/-! ## Runs as histories -/

/-- A step of a run with the states around it. -/
structure Transition (α : Type u) (σ : Type v) where
  pre : σ
  action : α
  post : σ

/-- The runs that end in a state, as the list of their steps, the latest first. -/
inductive Run (S : System α σ) : List (Transition α σ) → σ → Prop
  | init {s : σ} : S.init s → Run S [] s
  | step {t : List (Transition α σ)} {a : α} {s s' : σ} : Run S t s → S.step a s = some s' →
      Run S (⟨s, a, s'⟩ :: t) s'

/-- The states a run has been in. -/
def visited (t : List (Transition α σ)) (s : σ) : List σ := s :: t.map Transition.pre

namespace Run

variable {t : List (Transition α σ)} {s : σ}

/-- A run whose steps satisfy a condition. -/
theorem reachesUnder (h : S.Run t s) (hok : ∀ x ∈ t, ok x.action x.pre) :
    S.ReachesUnder ok s := by
  induction h with
  | init h0 => exact .init h0
  | step _ hstep ih =>
      obtain ⟨ha, hall⟩ := List.forall_mem_cons.mp hok
      exact .step (ih hall) ha hstep

theorem reachable (h : S.Run t s) : S.Reachable s := h.reachesUnder fun _ _ ↦ trivial

theorem exists_of_reachable (h : S.Reachable s) : ∃ t, S.Run t s := by
  induction h with
  | init h0 => exact ⟨[], .init h0⟩
  | step _ _ hstep ih =>
      obtain ⟨t, ht⟩ := ih
      exact ⟨_, .step ht hstep⟩

theorem step_of_mem (h : S.Run t s) {x : Transition α σ} (hx : x ∈ t) :
    S.Reachable x.pre ∧ S.step x.action x.pre = some x.post := by
  induction h with
  | init => cases hx
  | step hrun hstep ih =>
      rcases List.mem_cons.mp hx with rfl | hx
      · exact ⟨hrun.reachable, hstep⟩
      · exact ih hx

/-- **Exactness rule.** Let `J` hold initially and imply `I`, and let a step that satisfies the
condition keep `J` and any other step break `I`.  Then `I` holds in every state of a run just when
every step satisfies the condition. -/
theorem exact {I J : σ → Prop} (ok : α → σ → Prop) (h0 : ∀ s, S.init s → J s)
    (hJ : ∀ s, J s → I s)
    (hkeep : ∀ a s s', S.Reachable s → J s → ok a s → S.step a s = some s' → J s')
    (hbreak : ∀ a s s', S.Reachable s → J s → I s' → S.step a s = some s' → ok a s)
    (hrun : S.Run t s) : (∀ u ∈ visited t s, I u) ↔ ∀ x ∈ t, ok x.action x.pre := by
  induction hrun with
  | init h => simpa [visited] using hJ _ (h0 _ h)
  | @step t a s s' hrun ht ih =>
      have hstrong : (∀ x ∈ t, ok x.action x.pre) → J s := fun hok ↦
        (hrun.reachesUnder hok).invariant_of (fun _ h ↦ h.reachable) h0 hkeep
      have hvisited : (∀ u ∈ visited (⟨s, a, s'⟩ :: t) s', I u) ↔
          I s' ∧ ∀ u ∈ visited t s, I u := List.forall_mem_cons
      rw [hvisited, List.forall_mem_cons, ih]
      constructor
      · rintro ⟨hs', hall⟩
        exact ⟨hbreak a s s' hrun.reachable (hstrong hall) hs' ht, hall⟩
      · rintro ⟨hok, hall⟩
        exact ⟨hJ _ (hkeep a s s' hrun.reachable (hstrong hall) hok ht), hall⟩

/-- The exactness rule for a property that needs no other to be kept. -/
theorem invariant_iff {I : σ → Prop} (ok : α → σ → Prop) (h0 : ∀ s, S.init s → I s)
    (hstep : ∀ a s s', S.Reachable s → I s → S.step a s = some s' → (I s' ↔ ok a s))
    (hrun : S.Run t s) : (∀ u ∈ visited t s, I u) ↔ ∀ x ∈ t, ok x.action x.pre :=
  hrun.exact ok h0 (fun _ h ↦ h) (fun a s s' hr hs hok h ↦ (hstep a s s' hr hs h).mpr hok)
    fun a s s' hr hs hs' h ↦ (hstep a s s' hr hs h).mp hs'

end Run

/-- Running a list of actions, with the history prepended to the one given. -/
def trace (S : System α σ) :
    List α → List (Transition α σ) → σ → Option (List (Transition α σ) × σ)
  | [], t, s => some (t, s)
  | a :: as, t, s => (S.step a s).bind fun s' ↦ trace S as (⟨s, a, s'⟩ :: t) s'

theorem Run.of_trace {as : List α} {t t' : List (Transition α σ)} {s s' : σ} (hs : S.Run t s)
    (h : S.trace as t s = some (t', s')) : S.Run t' s' := by
  induction as generalizing t s with
  | nil => cases h; exact hs
  | cons a as ih =>
      obtain ⟨u, hu, hrest⟩ := Option.bind_eq_some_iff.mp h
      exact ih (.step hs hu) hrest

/-- An executed run with its history, of which every step has passed a test. -/
theorem Run.exists_of_trace (obs : σ → ω) (test : α → σ → Bool)
    (h : (S.trace as [] s₀).map (fun r ↦ (obs r.2, r.1.all fun x ↦ test x.action x.pre)) =
      some (o, true)) (h0 : S.init s₀) :
    ∃ t s, S.Run t s ∧ obs s = o ∧ ∀ x ∈ t, test x.action x.pre = true := by
  obtain ⟨⟨t, s⟩, htrace, heq⟩ := Option.map_eq_some_iff.mp h
  obtain ⟨hobs, htest⟩ := Prod.mk.inj heq
  exact ⟨t, s, .of_trace (.init h0) htrace, hobs, List.all_eq_true.mp htest⟩

/-- An executed run and one more step, with what is observed of the states around it. -/
theorem Run.exists_of_exec {a : α} {obs : σ → σ → ω}
    (h : ((S.exec as s₀).bind fun s ↦ (S.step a s).map fun s' ↦ obs s s') = some o)
    (h0 : S.init s₀) :
    ∃ t s s', S.Run t s ∧ S.step a s = some s' ∧ obs s s' = o := by
  obtain ⟨s, hs, hlast⟩ := Option.bind_eq_some_iff.mp h
  obtain ⟨s', hs', hobs⟩ := Option.map_eq_some_iff.mp hlast
  obtain ⟨t, ht⟩ := Run.exists_of_reachable (reachable_exec (.init h0) hs)
  exact ⟨t, s, s', ht, hs', hobs⟩

/-! ## Refinement -/

variable {β : Type u} {τ : Type v}

/-- A refinement mapping: the abstraction of a concrete step is an abstract step, or leaves
the abstract state alone. -/
structure Refinement (C : System α σ) (A : System β τ) where
  /-- The abstract state a concrete state stands for. -/
  abs : σ → τ
  init : ∀ s, C.init s → A.init (abs s)
  step : ∀ a s s', C.Reachable s → C.step a s = some s' →
    abs s' = abs s ∨ ∃ b, A.step b (abs s) = some (abs s')

/-- A reachable concrete state stands for a reachable abstract one. -/
theorem Refinement.reachable {C : System α σ} {A : System β τ} (R : Refinement C A) {s : σ}
    (hs : C.Reachable s) : A.Reachable (R.abs s) := by
  induction hs with
  | init h => exact .init (R.init _ h)
  | @step a s s' hr _ ht ih =>
      rcases R.step a s s' hr ht with h | ⟨b, hb⟩
      · exact h ▸ ih
      · exact .step ih trivial hb

end System

end Kiteq.Lib

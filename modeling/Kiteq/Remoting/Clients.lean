import Kiteq.Remoting.Acknowledged

/-!
# The clients of a process

A process may have any number of clients, each with its own session, threads and server.  But
`futureMap` is static: one table holds the requests of all clients, and whatever the IO thread of
any of them has read is looked up there.

`clients` is the transition system of the whole process.  A step of a client is a step of `client`
on the table as it is then; who has issued a request is kept as history, since the threads of a
client go on with its own requests only.  To any other client such a step is a step of the table
(`Clients.view_update_iff`, `Core.Step.table`), so that an invariant of a client is proved as
before, by the rules of `Core.Step`, and once more against what the others do to the table.
-/

namespace Kiteq

open Lib

/-- The clients of a process, and the table of requests they share. -/
structure Clients where
  registry : Registry
  /-- Each has in place of the table what its own last step left. -/
  members : List Client
  /-- The client that has issued each of the requests. -/
  owners : List ℕ

inductive ClientsAction where
  /-- A client is constructed. -/
  | new (header : KitePacketHeader)
  /-- Client `c` takes a step. -/
  | client (c : ℕ) (a : ClientAction)

/-- The request that a thread goes on with, and has issued before. -/
def ClientAction.issued : ClientAction → Option ℕ
  | .used i | .write i | .test i | .erase i => some i
  | _ => none

namespace Clients

variable (M : Miscast) (E : Platform) (P : Protobuf) (s : Clients)

/-- Client `c` with the table as it is. -/
def view (c : ℕ) : Option Client := s.members[c]?.map fun k ↦ { k with registry := s.registry }

/-- Client `c` has issued request `i`. -/
def Owns (c i : ℕ) : Prop := s.owners[i]? = some c

instance (c i : ℕ) : Decidable (s.Owns c i) := inferInstanceAs (Decidable (_ = _))

/-- The process after a step of client `c`. -/
def update (c : ℕ) (k : Client) : Clients where
  registry := k.registry
  members := s.members.set c k
  owners := s.owners ++
    List.replicate (k.registry.futures.length - s.registry.futures.length) c

/-- One step of the process. -/
def step : ClientsAction → Clients → Option Clients
  | .new header, s => some { s with members := s.members ++ [.new header] }
  | .client c a, s =>
    if a.issued.all fun i ↦ s.Owns c i then
      (s.view c).bind fun k ↦ (Client.step M E P a k).map (s.update c)
    else none

/-- A process without clients. -/
def empty : Clients := ⟨.empty, [], []⟩

end Clients

/-- The clients of a process with their threads. -/
def clients (M : Miscast) (E : Platform) (P : Protobuf) : System ClientsAction Clients where
  init s := s = .empty
  step := Clients.step M E P

/-- A run of the only client of a process. -/
def Clients.alone (run : List ClientAction) : List ClientsAction :=
  .new ⟨0, 0, 0, 0⟩ :: run.map (.client 0)

namespace Clients

variable {M : Miscast} {E : Platform} {P : Protobuf} {s s' : Clients} {c d : ℕ} {k k' : Client}

/-! ## Steps -/

/-- What a step of the process does. -/
inductive Step (M : Miscast) (E : Platform) (P : Protobuf) :
    ClientsAction → Clients → Clients → Prop
  | new {header : KitePacketHeader} {s : Clients} :
      Step M E P (.new header) s { s with members := s.members ++ [.new header] }
  | client {c : ℕ} {a : ClientAction} {s : Clients} {k k' : Client}
      (hown : ∀ i, a.issued = some i → s.Owns c i) (hk : s.view c = some k)
      (hstep : Client.step M E P a k = some k') :
      Step M E P (.client c a) s (s.update c k')

/-- **Inversion.** A step of the process does what one of the rules says. -/
theorem Step.of_step {a : ClientsAction} (h : step M E P a s = some s') : Step M E P a s s' := by
  cases a with
  | new header =>
      cases h
      exact .new
  | client c a =>
      simp only [step] at h
      split at h
      · rename_i hown
        obtain ⟨k, hk, h⟩ := Option.bind_eq_some_iff.mp h
        obtain ⟨k', hstep, rfl⟩ := Option.map_eq_some_iff.mp h
        refine .client (fun i hi ↦ ?_) hk hstep
        simpa [hi] using hown
      · cases h

/-- The clients after one was constructed. -/
theorem view_new_iff {header : KitePacketHeader} :
    ({ s with members := s.members ++ [.new header] } : Clients).view d = some k ↔
      s.view d = some k ∨
        d = s.members.length ∧ k = { Client.new header with registry := s.registry } := by
  simp only [view, getElem?_concat]
  split
  · rename_i hd
    simp [hd, eq_comm]
  · rename_i hd
    simp [hd]

/-- The clients after client `c` has taken a step: the others have a new table. -/
theorem view_update_iff (hk : s.view c = some k) {m : Client} :
    (s.update c k').view d = some m ↔ d = c ∧ m = k' ∨
      d ≠ c ∧ ∃ m₀, s.view d = some m₀ ∧ m = { m₀ with registry := k'.registry } := by
  obtain ⟨k₀, hk₀, -⟩ := Option.map_eq_some_iff.mp hk
  simp only [view, update, getElem?_set_of_some hk₀]
  split
  · rename_i hd
    simp only [hd, true_and, ne_eq, not_true_eq_false, false_and, or_false, Option.map_some,
      Option.some.injEq]
    exact eq_comm
  · rename_i hd
    simp only [hd, false_and, ne_eq, not_false_eq_true, true_and, false_or,
      Option.map_eq_some_iff]
    constructor
    · rintro ⟨m₀, hm₀, rfl⟩
      exact ⟨{ m₀ with registry := s.registry }, ⟨m₀, hm₀, rfl⟩, rfl⟩
    · rintro ⟨_, ⟨m₀, hm₀, rfl⟩, rfl⟩
      exact ⟨m₀, hm₀, rfl⟩

theorem registry_of_view (hk : s.view c = some k) : k.registry = s.registry := by
  obtain ⟨k₀, -, rfl⟩ := Option.map_eq_some_iff.mp hk
  rfl

/-! ## Owners -/

theorem Owns.unique {i : ℕ} (hc : s.Owns c i) (hd : s.Owns d i) : c = d :=
  Option.some.inj (hc.symm.trans hd)

theorem Owns.update {i : ℕ} (h : s.Owns d i) : (s.update c k').Owns d i := by
  obtain ⟨hlt, -⟩ := List.getElem?_eq_some_iff.mp h
  exact (List.getElem?_append_left hlt).trans h

/-- Each request has an owner. -/
def Owned (s : Clients) : Prop := s.owners.length = s.registry.futures.length

/-- A request that a step has constructed is the client's that took the step. -/
theorem Owned.owns_update (hs : s.Owned)
    (hlt : s.registry.futures.length < k'.registry.futures.length) :
    (s.update c k').Owns c s.registry.futures.length := by
  rw [Owns, Clients.update, ← hs, List.getElem?_append_right le_rfl, List.getElem?_replicate,
    if_pos (by rw [hs]; omega)]

theorem length_le_of_step {a : ClientAction} (hk : s.view c = some k)
    (h : Client.step M E P a k = some k') :
    s.registry.futures.length ≤ k'.registry.futures.length := by
  rw [← registry_of_view hk]
  rcases (Client.core_step h).registry with heq | ⟨b, hb⟩
  · exact (congrArg (·.futures.length) heq).ge
  · exact Registry.length_le_of_step hb

theorem owned_of_reachable (hs : (clients M E P).Reachable s) : s.Owned := by
  refine hs.invariant ?_ fun a s s' hs _ h ↦ ?_
  · rintro s rfl
    rfl
  · cases Step.of_step h with
    | new => exact hs
    | client _ hk hstep =>
        have hle := length_le_of_step hk hstep
        rw [Owned] at hs ⊢
        simp only [update, List.length_append, List.length_replicate]
        omega

end Clients

/-! ## The table -/

/-- **Refinement.** The clients of a process keep to the protocol of requests and responses. -/
def clientsRefinement (M : Miscast) (E : Platform) (P : Protobuf) :
    System.Refinement (clients M E P) registry where
  abs := Clients.registry
  init := by
    rintro s rfl
    rfl
  step _ _ _ _ h := by
    cases Clients.Step.of_step h with
    | new => exact .inl rfl
    | client _ hk hstep =>
        rw [← Clients.registry_of_view hk]
        exact (Client.core_step hstep).registry

theorem Clients.registry_inv_of_reachable {M : Miscast} {E : Platform} {P : Protobuf} {s : Clients}
    (hs : (clients M E P).Reachable s) : s.registry.Inv :=
  Registry.inv_of_reachable ((clientsRefinement M E P).reachable hs)

end Kiteq

import Kiteq.Remoting.Listeners

/-!
# Addresses

The address of a client is what the front of its server URL was parsed to, and is never changed.
So the clients of a process have canonical addresses, and two of them have one key in the table of
listeners exactly when they have the same host and the same port.
-/

namespace Kiteq

open Lib

namespace Process

variable {E : Platform} {P : Protobuf} {s s' : Process}

/-- Every client has a canonical address. -/
def Addressed (s : Process) : Prop := ∀ k ∈ s.clients, k.hostPort.Canonical

/-- A step of one client that leaves its address alone. -/
theorem Addressed.onClient (hs : s.Addressed) {c : ℕ}
    {f : ListeningClient → Option ListeningClient} (h : s.onClient c f = some s')
    (hf : ∀ k k', f k = some k' → k'.hostPort = k.hostPort) : s'.Addressed := by
  obtain ⟨k, hk, h⟩ := Option.bind_eq_some_iff.mp h
  obtain ⟨k', hk', rfl⟩ := Option.map_eq_some_iff.mp h
  refine (adds_set s.clients c k').forall_mem hs ?_
  rw [hf k k' hk']
  exact hs k (List.mem_of_getElem? hk)

/-- **Step lemma.** -/
theorem Addressed.step (hs : s.Addressed) {a : ProcessAction}
    (h : (process E P).step a s = some s') : s'.Addressed := by
  simp only [process] at h
  cases a with
  | create serverUrl header =>
      obtain ⟨hp, hparse, rfl⟩ := Option.map_eq_some_iff.mp h
      exact (adds_concat s.clients (.new hp header)).forall_mem hs (.of_parse hparse)
  | connect c =>
      refine hs.onClient h fun k k' hk' ↦ ?_
      obtain ⟨-, rfl⟩ := ListeningClient.connect_cases hk'
      rfl
  | recv c e bytes =>
      refine hs.onClient h fun k k' hk' ↦ ?_
      obtain ⟨w, -, -, -, rfl⟩ := ListeningClient.recv_cases hk'
      rfl
  | dispatch c =>
      refine hs.onClient h fun k k' hk' ↦ ?_
      obtain ⟨pkg, -, rfl⟩ := ListeningClient.dispatch_cases hk'
      rfl
  | registerListener c l =>
      obtain ⟨k, hk, rfl⟩ := Option.map_eq_some_iff.mp h
      exact (adds_set s.clients c { k with registered := some l }).forall_mem hs
        (hs k (List.mem_of_getElem? hk))
  | unregisterListener channel =>
      cases h
      intro j hj
      obtain ⟨k, hk, rfl⟩ := List.mem_map.mp hj
      split <;> exact hs k hk

theorem addressed_of_reachable (hs : (process E P).Reachable s) : s.Addressed := by
  refine hs.invariant (I := Addressed) ?_ fun a s s' hs _ h ↦ hs.step h
  rintro s rfl
  simp [Addressed]

end Process

namespace HostPort

/-- **Addresses are canonical keys.**  A string is an address when it has one colon; the printed
form of an address is parsed back; and the key of a server URL, under which its client registers
and looks up listeners, tells host and port and nothing else. -/
theorem canonical_keys (E : Platform) (P : Protobuf) :
    (∀ s, (parse s).isSome ↔ s.count colon = 1) ∧
    (∀ s hp, parse s = some hp → parse hp.toString = some hp) ∧
    (∀ url₁ url₂ hp₁ hp₂, ofServerUrl url₁ = some hp₁ → ofServerUrl url₂ = some hp₂ →
      (hp₁.toString = hp₂.toString ↔ hp₁.host = hp₂.host ∧ hp₁.port = hp₂.port)) ∧
    ∀ s, (process E P).Reachable s → ∀ k₁ ∈ s.clients, ∀ k₂ ∈ s.clients,
      (k₁.channel = k₂.channel ↔
        k₁.hostPort.host = k₂.hostPort.host ∧ k₁.hostPort.port = k₂.hostPort.port) := by
  refine ⟨fun s ↦ isSome_parse_iff, fun s hp h ↦ (Canonical.of_parse h).parse_toString, ?_, ?_⟩
  · intro url₁ url₂ hp₁ hp₂ h₁ h₂
    exact (Canonical.of_parse h₁).toString_inj (.of_parse h₂)
  · intro s hs k₁ hk₁ k₂ hk₂
    have haddressed := Process.addressed_of_reachable hs
    exact (haddressed k₁ hk₁).toString_inj (haddressed k₂ hk₂)

/-- `:?a` and `127.0.0.1:13800` name one endpoint, and have one key. -/
theorem canonical_keys_default : ∃ hp₁ hp₂,
    ofServerUrl [colon, questionMark, 0x61] = some hp₁ ∧ ofServerUrl Process.serverUrl = some hp₂ ∧
      hp₁.toString = hp₂.toString ∧ parse hp₁.toString = some hp₁ := by
  have hkeys := canonical_keys .gcc proto2
  have h₁ : ofServerUrl [colon, questionMark, 0x61] = some ⟨defaultHost, defaultPort⟩ := by decide
  have h₂ : ofServerUrl Process.serverUrl = some ⟨defaultHost, defaultPort⟩ := by decide
  exact ⟨_, _, h₁, h₂, (hkeys.2.2.1 _ _ _ _ h₁ h₂).mpr ⟨rfl, rfl⟩, hkeys.2.1 [colon] _ (by decide)⟩

end HostPort

end Kiteq

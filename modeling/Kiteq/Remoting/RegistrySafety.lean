import Kiteq.Remoting.ResponseFuture

/-!
# The registry keeps its requests apart

`Registry.Inv` ties the table, the promises and the callers together: the table maps exactly the
ids of the outstanding requests, each to its own; a promise is fulfilled if and only if a packet
with the id of its request took the request out of the table; and the one request that is in
between is the one in the critical section.

Every step that changes one request is an instance of `Inv.set`, whose conditions say what the
step has to keep right about that request and about nothing else.
-/

namespace Kiteq

open Lib

/-! ## The invariant -/

/-- The request was registered, and neither answered nor removed by its own timeout. -/
def ResponseFuture.Outstanding (f : ResponseFuture) : Prop :=
  f.pc ≠ .constructed ∧ f.answeredBy = none ∧ f.removed = false

/-- A packet answers a request if `handle_read_pkg` dispatches it as a response with the id of
the request. -/
def ResponseFuture.Answers (f : ResponseFuture) (pkg : KitePacket) (resp : KiteResponse) : Prop :=
  pkg.dispatch = some (.receiveResponse resp) ∧ resp.requestId = f.requestId

/-- The history of a request, its promise and its caller agree. -/
structure ResponseFuture.Sound (f : ResponseFuture) : Prop where
  constructed : f.pc = .constructed → f.answeredBy = none ∧ f.removed = false
  removed : f.removed = true ↔ f.pc = .returned none
  answered : ∀ pkg, f.answeredBy = some pkg → ∃ resp, f.Answers pkg resp
  value : ∀ resp, f.value = some resp → ∃ pkg, f.answeredBy = some pkg ∧ f.Answers pkg resp
  setCalls : f.setCalls = f.value.toList.length
  returned : ∀ resp, f.pc = .returned (some resp) → f.value = some resp

/-- The request has been taken out of the table for a response that it has not got yet. -/
def ResponseFuture.Awaits (f : ResponseFuture) (resp : KiteResponse) : Prop :=
  f.value = none ∧ ∃ pkg, f.answeredBy = some pkg ∧ f.Answers pkg resp

structure Registry.Inv (s : Registry) : Prop where
  distinct : ∀ (i j : ℕ) (f g : ResponseFuture), s.futures[i]? = some f → s.futures[j]? = some g →
    f.requestId = g.requestId → i = j
  sound : ∀ (i : ℕ) (f : ResponseFuture), s.futures[i]? = some f → f.Sound
  futureMap : ∀ id i, s.futureMap id = some i ↔
    ∃ f : ResponseFuture, s.futures[i]? = some f ∧ f.requestId = id ∧ f.Outstanding
  critical : ∀ i resp, s.critical = some (i, resp) ↔
    ∃ f : ResponseFuture, s.futures[i]? = some f ∧ f.Awaits resp
  threw : s.threw = false

namespace Registry

variable {s s' : Registry} {i : ℕ} {f g : ResponseFuture}

theorem inv_empty : Inv .empty := by
  constructor <;> simp [empty]

theorem Inv.futureMap_iff (hs : s.Inv) (hf : s.futures[i]? = some f) (id : CInt) :
    s.futureMap id = some i ↔ id = f.requestId ∧ f.Outstanding := by
  rw [hs.futureMap]
  constructor
  · rintro ⟨g, hg, rfl, hout⟩
    cases hf.symm.trans hg
    exact ⟨rfl, hout⟩
  · rintro ⟨rfl, hout⟩
    exact ⟨f, hf, rfl, hout⟩

theorem Inv.critical_iff (hs : s.Inv) (hf : s.futures[i]? = some f) (resp : KiteResponse) :
    s.critical = some (i, resp) ↔ f.Awaits resp := by
  rw [hs.critical]
  constructor
  · rintro ⟨g, hg, hawaits⟩
    cases hf.symm.trans hg
    exact hawaits
  · exact fun h ↦ ⟨f, hf, h⟩

/-- A request that is replaced, with the table and the critical section changed for its sake
only. -/
theorem Inv.set (hs : s.Inv) (hf : s.futures[i]? = some f) (hid : g.requestId = f.requestId)
    (hg : g.Sound) {map : CInt → Option ℕ} {crit : Option (ℕ × KiteResponse)}
    (hmap : ∀ id, map id = some i ↔ id = f.requestId ∧ g.Outstanding)
    (hmap' : ∀ id j, j ≠ i → (map id = some j ↔ s.futureMap id = some j))
    (hcrit : ∀ resp, crit = some (i, resp) ↔ g.Awaits resp)
    (hcrit' : ∀ j resp, j ≠ i → (crit = some (j, resp) ↔ s.critical = some (j, resp))) :
    Inv { s with futures := s.futures.set i g, futureMap := map, critical := crit } := by
  have hset (j : ℕ) (h : ResponseFuture) := getElem?_set_iff (j := j) (b := h) (c := g) hf
  refine ⟨?_, forall_set hf hg fun j h _ hj ↦ hs.sound j h hj, ?_, ?_, hs.threw⟩
  · intro j k h h' hj hk heq
    rcases (hset j h).mp hj with ⟨rfl, rfl⟩ | ⟨-, hjold⟩ <;>
      rcases (hset k h').mp hk with ⟨rfl, rfl⟩ | ⟨-, hkold⟩
    · rfl
    · exact hs.distinct _ _ _ _ hf hkold (hid.symm.trans heq)
    · exact hs.distinct _ _ _ _ hjold hf (heq.trans hid)
    · exact hs.distinct _ _ _ _ hjold hkold heq
  · intro id j
    by_cases hj : j = i
    · subst hj
      rw [hmap]
      constructor
      · rintro ⟨rfl, hout⟩
        exact ⟨g, (hset j g).mpr (.inl ⟨rfl, rfl⟩), hid, hout⟩
      · rintro ⟨h, hh, rfl, hout⟩
        rcases (hset j h).mp hh with ⟨-, rfl⟩ | ⟨hne, -⟩
        · exact ⟨hid, hout⟩
        · exact absurd rfl hne
    · rw [hmap' id j hj, hs.futureMap, List.getElem?_set_ne (Ne.symm hj)]
  · intro j resp
    by_cases hj : j = i
    · subst hj
      rw [hcrit]
      constructor
      · exact fun h ↦ ⟨g, (hset j g).mpr (.inl ⟨rfl, rfl⟩), h⟩
      · rintro ⟨h, hh, hawaits⟩
        rcases (hset j h).mp hh with ⟨-, rfl⟩ | ⟨hne, -⟩
        · exact hawaits
        · exact absurd rfl hne
    · rw [hcrit' j resp hj, hs.critical, List.getElem?_set_ne (Ne.symm hj)]

/-- The caller of a registered request moves on. -/
theorem Inv.setPc (hs : s.Inv) (hf : s.futures[i]? = some f) {pc : RequestPc}
    (hpc : f.pc ≠ .constructed) (hpc' : pc ≠ .constructed) (hremoved : f.pc ≠ .returned none)
    (hreturned : ∀ r, pc = .returned r → ∃ resp, r = some resp ∧ f.value = some resp) :
    Inv { s with futures := s.futures.set i { f with pc } } := by
  have hsound := hs.sound i f hf
  refine hs.set (g := { f with pc }) hf rfl ⟨fun h ↦ absurd h hpc', ?_, hsound.answered,
    hsound.value, hsound.setCalls, ?_⟩ ?_ (fun _ _ _ ↦ Iff.rfl) ?_ fun _ _ _ ↦ Iff.rfl
  · refine iff_of_false (fun h ↦ hremoved (hsound.removed.mp h)) fun h ↦ ?_
    obtain ⟨resp, hresp, -⟩ := hreturned none h
    cases hresp
  · intro resp h
    obtain ⟨resp', hresp, hvalue⟩ := hreturned (some resp) h
    cases hresp
    exact hvalue
  · intro id
    rw [hs.futureMap_iff hf]
    simp [ResponseFuture.Outstanding, hpc, hpc']
  · exact fun resp ↦ hs.critical_iff hf resp

/-- The entry of a request in the table without that request. -/
theorem Inv.update_none_iff (hs : s.Inv) (hf : s.futures[i]? = some f) (id : CInt) {j : ℕ}
    (hj : j ≠ i) :
    Function.update s.futureMap f.requestId none id = some j ↔ s.futureMap id = some j := by
  by_cases hid : id = f.requestId
  · subst hid
    rw [Function.update_self]
    refine iff_of_false (by simp) fun h ↦ hj ?_
    obtain ⟨g, hg, heq, -⟩ := (hs.futureMap _ _).mp h
    exact hs.distinct _ _ _ _ hg hf heq
  · rw [Function.update_of_ne hid]

theorem Inv.update_none_self (hs : s.Inv) (hf : s.futures[i]? = some f) (id : CInt) :
    Function.update s.futureMap f.requestId none id ≠ some i := by
  by_cases hid : id = f.requestId
  · rw [hid, Function.update_self]
    simp
  · rw [Function.update_of_ne hid]
    exact fun h ↦ hid ((hs.futureMap_iff hf id).mp h).1

/-! ## Step lemmas -/

theorem Inv.construct (hs : s.Inv) {caller : Caller} {id : CInt}
    (h : s.construct caller id = some s') : s'.Inv := by
  obtain ⟨hfresh, rfl⟩ := construct_cases h
  have hget (j : ℕ) (g : ResponseFuture) := getElem?_concat_iff (l := s.futures)
    (a := .new caller id) (i := j) (b := g)
  have hnew : ResponseFuture.Sound (.new caller id) := by
    constructor <;> simp [ResponseFuture.new]
  refine ⟨?_, ?_, ?_, ?_, hs.threw⟩
  · intro j k f g hj hk heq
    rcases (hget j f).mp hj with hj | ⟨rfl, rfl⟩ <;> rcases (hget k g).mp hk with hk | ⟨rfl, rfl⟩
    · exact hs.distinct _ _ _ _ hj hk heq
    · exact absurd heq (hfresh f (List.mem_of_getElem? hj))
    · exact absurd heq.symm (hfresh g (List.mem_of_getElem? hk))
    · rfl
  · intro j g hg
    rcases (hget j g).mp hg with hg | ⟨-, rfl⟩
    · exact hs.sound j g hg
    · exact hnew
  · intro id' j
    rw [hs.futureMap]
    constructor
    · rintro ⟨g, hg, hout⟩
      exact ⟨g, (hget j g).mpr (.inl hg), hout⟩
    · rintro ⟨g, hg, hid, hout⟩
      rcases (hget j g).mp hg with hg | ⟨-, rfl⟩
      · exact ⟨g, hg, hid, hout⟩
      · exact absurd rfl hout.1
  · intro j resp
    rw [hs.critical]
    constructor
    · rintro ⟨g, hg, hawaits⟩
      exact ⟨g, (hget j g).mpr (.inl hg), hawaits⟩
    · rintro ⟨g, hg, hawaits⟩
      rcases (hget j g).mp hg with hg | ⟨-, rfl⟩
      · exact ⟨g, hg, hawaits⟩
      · obtain ⟨-, pkg, hpkg, -⟩ := hawaits
        cases hpkg

theorem Inv.responseFutureUsed (hs : s.Inv) (h : s.responseFutureUsed i = some s') : s'.Inv := by
  obtain ⟨f, hf, -, hpc, rfl⟩ := responseFutureUsed_cases h
  have hsound := hs.sound i f hf
  obtain ⟨hans, hrem⟩ := hsound.constructed hpc
  -- the id is not in the table: the one request that has it is not outstanding
  have hnone : s.futureMap f.requestId = none := by
    cases hmap : s.futureMap f.requestId with
    | none => rfl
    | some j =>
        obtain ⟨g, hg, hid, hout⟩ := (hs.futureMap _ _).mp hmap
        cases hs.distinct _ _ _ _ hg hf hid
        cases hf.symm.trans hg
        exact absurd hpc hout.1
  rw [if_pos hnone]
  refine hs.set (g := { f with pc := .registered }) hf rfl ⟨by simp, ?_, hsound.answered,
    hsound.value, hsound.setCalls, by simp⟩ ?_ ?_ (fun resp ↦ hs.critical_iff hf resp)
    fun _ _ _ ↦ Iff.rfl
  · simp [hrem]
  · intro id
    by_cases hid : id = f.requestId
    · simp [hid, ResponseFuture.Outstanding, hans, hrem]
    · rw [Function.update_of_ne hid, hs.futureMap_iff hf]
      simp [hid]
  · intro id j hj
    by_cases hid : id = f.requestId
    · simp [hid, hnone, Ne.symm hj]
    · rw [Function.update_of_ne hid]

theorem Inv.write (hs : s.Inv) (h : s.write i = some s') : s'.Inv := by
  obtain ⟨f, hf, hpc, rfl⟩ := write_cases h
  exact hs.setPc hf (by simp [hpc]) (by simp) (by simp [hpc]) (by simp)

theorem Inv.interrupt (hs : s.Inv) (h : s.interrupt i = some s') : s'.Inv := by
  obtain ⟨f, hf, hpc, rfl⟩ := interrupt_cases h
  exact hs.setPc hf (by simp [hpc]) (by simp) (by simp [hpc]) (by simp)

theorem Inv.test (hs : s.Inv) (h : s.test i = some s') : s'.Inv := by
  obtain ⟨f, hf, hpc, ⟨resp, hvalue, rfl⟩ | ⟨-, rfl⟩⟩ := test_cases h
  · refine hs.setPc hf (by simp [hpc]) (by simp) (by simp [hpc]) fun r hr ↦ ?_
    cases hr
    exact ⟨resp, rfl, hvalue⟩
  · exact hs.setPc hf (by simp [hpc]) (by simp) (by simp [hpc]) (by simp)

theorem Inv.erase (hs : s.Inv) (h : s.erase i = some s') : s'.Inv := by
  obtain ⟨f, hf, -, hpc, rfl⟩ := erase_cases h
  have hsound := hs.sound i f hf
  refine hs.set (g := { f with pc := .returned none, removed := true }) hf rfl
    ⟨by simp, by simp, hsound.answered, hsound.value, hsound.setCalls, by simp⟩ ?_
    (fun id j hj ↦ hs.update_none_iff hf id hj) (fun resp ↦ hs.critical_iff hf resp)
    fun _ _ _ ↦ Iff.rfl
  intro id
  exact iff_of_false (hs.update_none_self hf id) fun h ↦ by simpa using h.2.2.2

theorem Inv.dispatch (hs : s.Inv) {pkg : KitePacket} (h : s.dispatch pkg = some s') :
    s'.Inv := by
  rcases dispatch_cases h with rfl | ⟨resp, i, f, hresp, hcrit, hi, hf, rfl⟩
  · exact hs
  have hsound := hs.sound i f hf
  obtain ⟨hid, hout⟩ := (hs.futureMap_iff hf _).mp hi
  have hans : f.Answers pkg resp := ⟨hresp, hid⟩
  have hvalue : f.value = none := by
    cases hv : f.value with
    | none => rfl
    | some r =>
        obtain ⟨p, hp, -⟩ := hsound.value r hv
        rw [hout.2.1] at hp
        cases hp
  rw [hid]
  refine hs.set (g := { f with answeredBy := some pkg }) hf rfl ⟨fun h ↦ absurd h hout.1,
    hsound.removed, ?_, by simp [hvalue], hsound.setCalls, hsound.returned⟩ ?_
    (fun id j hj ↦ hs.update_none_iff hf id hj) ?_ ?_
  · rintro p hp
    cases hp
    exact ⟨resp, hans⟩
  · intro id
    exact iff_of_false (hs.update_none_self hf id) fun h ↦ by simpa using h.2.2.1
  · intro r
    constructor
    · intro hr
      cases hr
      exact ⟨hvalue, pkg, rfl, hans⟩
    · rintro ⟨-, p, hp, hr, -⟩
      cases hp
      rw [hresp] at hr
      cases hr
      rfl
  · intro j r hj
    rw [hcrit]
    simp [Ne.symm hj]

theorem Inv.setResponse (hs : s.Inv) (h : s.setResponse = some s') : s'.Inv := by
  obtain ⟨i, resp, f, hcrit, hf, hcases⟩ := setResponse_cases h
  have hsound := hs.sound i f hf
  obtain ⟨hvalue, pkg, hpkg, hans⟩ := (hs.critical_iff hf resp).mp hcrit
  obtain ⟨-, rfl⟩ | ⟨hsome, -⟩ := hcases
  swap
  · exact absurd hvalue hsome
  refine hs.set (g := { f with setCalls := f.setCalls + 1, value := some resp }) hf rfl
    ⟨hsound.constructed, hsound.removed, hsound.answered, ?_, ?_, ?_⟩
    (fun id ↦ hs.futureMap_iff hf id) (fun _ _ _ ↦ Iff.rfl) ?_ ?_
  · rintro r hr
    cases hr
    exact ⟨pkg, hpkg, hans⟩
  · simp [hsound.setCalls, hvalue]
  · intro r hr
    have := hsound.returned r hr
    rw [hvalue] at this
    cases this
  · intro r
    exact iff_of_false (by simp) fun h ↦ by simpa using h.1
  · intro j r hj
    rw [hcrit]
    simp [Ne.symm hj]

/-- **Step lemma.** Every step of the protocol keeps the invariant. -/
theorem Inv.step (hs : s.Inv) {a : RegistryAction} (h : Registry.step a s = some s') : s'.Inv := by
  cases a with
  | construct caller id => exact hs.construct h
  | used i => exact hs.responseFutureUsed h
  | write i => exact hs.write h
  | test i => exact hs.test h
  | erase i => exact hs.erase h
  | interrupt i => exact hs.interrupt h
  | dispatch pkg => exact hs.dispatch h
  | setResponse => exact hs.setResponse h

theorem inv_of_reachable (hs : registry.Reachable s) : s.Inv := by
  refine hs.invariant ?_ fun a s s' hs _ h ↦ hs.step h
  rintro s rfl
  exact inv_empty

/-! ## Safety -/

/-- What the registry promises its callers. -/
structure Safe (s : Registry) : Prop where
  /-- The table maps exactly the ids of the requests that were registered and neither answered
  nor removed by their own timeout, each to its own request. -/
  futureMap : ∀ id i, s.futureMap id = some i ↔ ∃ f, s.futures[i]? = some f ∧
    f.requestId = id ∧ f.pc ≠ .constructed ∧ f.answeredBy = none ∧ f.removed = false
  /-- No promise is set twice. -/
  setCalls : ∀ f ∈ s.futures, f.setCalls ≤ 1
  threw : s.threw = false
  /-- A response that is returned carries the id of the request, and is the content of the
  packet that answered it. -/
  returned : ∀ f ∈ s.futures, ∀ resp, f.pc = .returned (some resp) →
    resp.requestId = f.requestId ∧
      ∃ pkg, f.answeredBy = some pkg ∧ resp = ⟨pkg.opaqueId, pkg.message⟩
  /-- Only the three kinds of response complete a request. -/
  answeredBy : ∀ f ∈ s.futures, ∀ pkg, f.answeredBy = some pkg →
    pkg.cmdType = Protocol.CMD_CONN_AUTH ∨ pkg.cmdType = Protocol.CMD_MESSAGE_STORE_ACK ∨
      pkg.cmdType = Protocol.CMD_HEARTBEAT
  /-- A request whose `getResponse` has returned is not in the table. -/
  erased : ∀ f ∈ s.futures, ∀ r, f.pc = .returned r → s.futureMap f.requestId = none

theorem dispatch_eq_receiveResponse {pkg : KitePacket} {resp : KiteResponse}
    (h : pkg.dispatch = some (.receiveResponse resp)) :
    (pkg.cmdType = Protocol.CMD_CONN_AUTH ∨ pkg.cmdType = Protocol.CMD_MESSAGE_STORE_ACK ∨
      pkg.cmdType = Protocol.CMD_HEARTBEAT) ∧ resp = responseOf pkg := by
  unfold KitePacket.dispatch at h
  split at h
  · rename_i hresp
    cases h
    exact ⟨by simpa [isResponse, or_assoc] using hresp, rfl⟩
  · split at h
    · cases h
    · split at h
      · cases h
      · split at h <;> cases h

/-- A response that is returned is the one of the packet that answered the request. -/
theorem Inv.answeredBy_of_returned (hs : s.Inv) (hf : s.futures[i]? = some f)
    {resp : KiteResponse} (hpc : f.pc = .returned (some resp)) :
    ∃ pkg, f.answeredBy = some pkg ∧ resp = responseOf pkg ∧ resp.requestId = f.requestId := by
  have hsound := hs.sound i f hf
  obtain ⟨pkg, hpkg, hresp, hid⟩ := hsound.value resp (hsound.returned resp hpc)
  exact ⟨pkg, hpkg, (dispatch_eq_receiveResponse hresp).2, hid⟩

/-- The request that is found for a packet has the opaque of the packet as its id. -/
theorem Inv.requestId_of_found (hs : s.Inv) {pkg : KitePacket} (h : s.found pkg = some f) :
    pkg.opaqueId = f.requestId := by
  unfold found at h
  split at h
  · rename_i resp hresp
    obtain ⟨i, hi, hf⟩ := Option.bind_eq_some_iff.mp h
    rw [← ((hs.futureMap_iff hf _).mp hi).1, (dispatch_eq_receiveResponse hresp).2]
    rfl
  · cases h

/-- There are no more requests than ids. -/
theorem Inv.length_le (hs : s.Inv) : s.futures.length ≤ 2 ^ 32 := by
  have hnodup : (s.futures.map (·.requestId.toNat)).Nodup := by
    rw [List.nodup_iff_getElem?_ne_getElem?]
    intro i j hij hj heq
    rw [List.length_map] at hj
    simp only [List.getElem?_map, List.getElem?_eq_getElem hj,
      List.getElem?_eq_getElem (hij.trans hj), Option.map_some, Option.some.injEq] at heq
    have := hs.distinct i j _ _ (List.getElem?_eq_getElem (hij.trans hj))
      (List.getElem?_eq_getElem hj) (BitVec.eq_of_toNat_eq heq)
    omega
  have hsub : s.futures.map (·.requestId.toNat) ⊆ List.range (2 ^ 32) := by
    intro n hn
    obtain ⟨f, -, rfl⟩ := List.mem_map.mp hn
    exact List.mem_range.mpr f.requestId.isLt
  simpa only [List.length_map, List.length_range] using (hnodup.subperm hsub).length_le

/-- An answered or removed request is not in the table. -/
theorem Inv.futureMap_eq_none (hs : s.Inv) (hf : s.futures[i]? = some f)
    (hout : ¬f.Outstanding) : s.futureMap f.requestId = none := by
  cases hmap : s.futureMap f.requestId with
  | none => rfl
  | some j =>
      obtain ⟨g, hg, hid, hg'⟩ := (hs.futureMap _ _).mp hmap
      cases hs.distinct _ _ _ _ hg hf hid
      cases hf.symm.trans hg
      exact absurd hg' hout

/-- **Registry safety.** In every reachable state the table, the promises and the callers are
as they should be. -/
theorem safe_of_reachable (hs : registry.Reachable s) : s.Safe := by
  have hinv := inv_of_reachable hs
  refine ⟨hinv.futureMap, ?_, hinv.threw, ?_, ?_, ?_⟩
  · intro f hf
    obtain ⟨i, hi⟩ := List.mem_iff_getElem?.mp hf
    rw [(hinv.sound i f hi).setCalls]
    cases f.value <;> simp
  · intro f hf resp hpc
    obtain ⟨i, hi⟩ := List.mem_iff_getElem?.mp hf
    obtain ⟨pkg, hpkg, hresp, hid⟩ := hinv.answeredBy_of_returned hi hpc
    exact ⟨hid, pkg, hpkg, hresp⟩
  · intro f hf pkg hpkg
    obtain ⟨i, hi⟩ := List.mem_iff_getElem?.mp hf
    obtain ⟨resp, hresp, -⟩ := (hinv.sound i f hi).answered pkg hpkg
    exact (dispatch_eq_receiveResponse hresp).1
  · intro f hf r hpc
    obtain ⟨i, hi⟩ := List.mem_iff_getElem?.mp hf
    have hsound := hinv.sound i f hi
    refine hinv.futureMap_eq_none hi fun hout ↦ ?_
    cases r with
    | none =>
        have := hsound.removed.mpr hpc
        rw [hout.2.2] at this
        cases this
    | some resp =>
        obtain ⟨pkg, hpkg, -⟩ := hinv.answeredBy_of_returned hi hpc
        rw [hout.2.1] at hpkg
        cases hpkg

/-- A `CONN_AUTH` packet with the given opaque. -/
def connAuthPacket (opaqueId : CInt) : KitePacket :=
  ⟨⟨opaqueId, Protocol.CMD_CONN_AUTH, 0, 0⟩, some (.connAuthAck ⟨some true, some []⟩), .empty⟩

/-- A request is answered, and answered once more by a duplicate. -/
theorem safe_answered_twice :
    ∃ s, registry.Reachable s ∧
      s.futures.map (·.pc) =
        [.returned (some ⟨7, some (.connAuthAck ⟨some true, some []⟩)⟩)] ∧
      s.Safe := by
  have hrun : (registry.exec [.construct .sendConnAndGet 7, .used 0, .write 0,
      .dispatch (connAuthPacket 7), .setResponse, .dispatch (connAuthPacket 7), .test 0]
      .empty).map (fun s ↦ s.futures.map (·.pc)) =
      some [.returned (some ⟨7, some (.connAuthAck ⟨some true, some []⟩)⟩)] := by decide +kernel
  obtain ⟨s, hreach, hpc⟩ := System.exists_reachable hrun rfl
  exact ⟨s, hreach, hpc, safe_of_reachable hreach⟩

end Registry

end Kiteq

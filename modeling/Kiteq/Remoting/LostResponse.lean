import Kiteq.Remoting.RegistrySafety

/-!
# Responses that are lost

`getResponse(timeout)` decides to give up by `has_value()`, and only then takes the lock and
erases its registration.  Between the two a response may take the request out of the table: its
promise is fulfilled, and the caller returns null all the same.

`timely` excludes exactly this: no response finds a request whose caller has given up, and no
caller tests its promise while `receiveResponse` is between erasing the request and setting its
value.  Along the runs that respect it a caller returns what the registry holds for it.
-/

namespace Kiteq

open Lib

namespace Registry

/-- No response takes a request whose caller has given up, and no promise is tested inside the
critical section that is about to fulfil it. -/
def timely : RegistryAction → Registry → Bool
  | .dispatch pkg, s => (s.found pkg).all (·.pc ≠ .gaveUp)
  | .test i, s => s.critical.all (·.1 ≠ i)
  | _, _ => true

/-- Whoever has given up or has returned null has not been answered. -/
def Unanswered (f : ResponseFuture) : Prop :=
  f.pc = .gaveUp ∨ f.pc = .returned none → f.answeredBy = none

def AllUnanswered (futures : List ResponseFuture) : Prop :=
  ∀ (i : ℕ) (f : ResponseFuture), futures[i]? = some f → Unanswered f

variable {s s' : Registry}

/-- A step that replaces one request by an unanswered one. -/
theorem unanswered_set {i : ℕ} {f g : ResponseFuture}
    (hs : AllUnanswered s.futures) (hf : s.futures[i]? = some f) (hg : Unanswered g) :
    AllUnanswered (s.futures.set i g) :=
  forall_set (p := fun _ ↦ Unanswered) hf hg fun j h _ hj ↦ hs j h hj

/-- **Step lemma.** A timely step leaves whoever has given up unanswered. -/
theorem unanswered_step {a : RegistryAction} (hinv : s.Inv)
    (hs : AllUnanswered s.futures) (hok : timely a s) (h : step a s = some s') :
    AllUnanswered s'.futures := by
  cases a with
  | construct caller id =>
      obtain ⟨-, rfl⟩ := construct_cases h
      intro i f hf
      rcases getElem?_concat_iff.mp hf with hf | ⟨-, rfl⟩
      · exact hs i f hf
      · exact fun _ ↦ rfl
  | used i =>
      obtain ⟨f, hf, -, -, rfl⟩ := responseFutureUsed_cases h
      exact unanswered_set hs hf (by simp [Unanswered])
  | write i =>
      obtain ⟨f, hf, -, rfl⟩ := write_cases h
      exact unanswered_set hs hf (by simp [Unanswered])
  | interrupt i =>
      obtain ⟨f, hf, -, rfl⟩ := interrupt_cases h
      exact unanswered_set hs hf (by simp [Unanswered])
  | test i =>
      obtain ⟨f, hf, -, ⟨resp, -, rfl⟩ | ⟨hvalue, rfl⟩⟩ := test_cases h
      · exact unanswered_set hs hf (by simp [Unanswered])
      · -- an answered request without a value is in the critical section
        refine unanswered_set hs hf fun _ ↦ ?_
        cases hans : f.answeredBy with
        | none => rfl
        | some pkg =>
            obtain ⟨resp, hresp⟩ := (hinv.sound i f hf).answered pkg hans
            have hcrit := (hinv.critical_iff hf resp).mpr ⟨hvalue, pkg, hans, hresp⟩
            simp [timely, hcrit] at hok
  | erase i =>
      obtain ⟨f, hf, -, hpc, rfl⟩ := erase_cases h
      exact unanswered_set hs hf fun _ ↦ hs i f hf (.inl hpc)
  | dispatch pkg =>
      rcases dispatch_cases h with rfl | ⟨resp, i, f, hresp, -, hi, hf, rfl⟩
      · exact hs
      · have hgave : f.pc ≠ .gaveUp := by
          simpa [timely, found, hresp, hi, hf] using hok
        have hout := ((hinv.futureMap_iff hf _).mp hi).2
        refine unanswered_set hs hf ?_
        rintro (hpc | hpc)
        · exact absurd hpc hgave
        · have hremoved := (hinv.sound i f hf).removed.mpr hpc
          rw [hout.2.2] at hremoved
          cases hremoved
  | setResponse =>
      obtain ⟨i, resp, f, -, hf, ⟨-, rfl⟩ | ⟨-, rfl⟩⟩ := setResponse_cases h
      · exact unanswered_set hs hf (hs i f hf)
      · exact unanswered_set hs hf (hs i f hf)

/-- **No response is lost.** Along a timely run a caller that returns has got the response its
request was taken out of the table for, and one that returns null has not been answered; and a
caller that is about to erase its registration finds it in the table. -/
theorem returned_of_timely (hs : registry.ReachesUnder (fun a s ↦ timely a s) s) :
    (∀ f ∈ s.futures, ∀ r, f.pc = .returned r → r = f.answeredBy.map responseOf) ∧
      ∀ i f, s.futures[i]? = some f → f.pc = .gaveUp → s.futureMap f.requestId = some i := by
  have hinv := inv_of_reachable hs.reachable
  have hunanswered : AllUnanswered s.futures := by
    refine hs.invariant_of (J := Inv) (I := fun s ↦ AllUnanswered s.futures)
      (fun s hs ↦ inv_of_reachable hs.reachable) ?_ ?_
    · rintro s rfl
      simp [AllUnanswered, empty]
    · exact fun a s s' hinv hs hok h ↦ unanswered_step hinv hs hok h
  constructor
  · intro f hf r hpc
    obtain ⟨i, hi⟩ := List.mem_iff_getElem?.mp hf
    cases r with
    | none => rw [hunanswered i f hi (.inr hpc), Option.map_none]
    | some resp =>
        obtain ⟨pkg, hpkg, hresp, -⟩ := hinv.answeredBy_of_returned hi hpc
        rw [hpkg, Option.map_some, hresp]
  · intro i f hf hpc
    have hans := hunanswered i f hf (.inl hpc)
    refine (hinv.futureMap_iff hf _).mpr ⟨rfl, by simp [hpc], hans, ?_⟩
    cases hremoved : f.removed with
    | false => rfl
    | true =>
        have := (hinv.sound i f hf).removed.mp hremoved
        rw [hpc] at this
        cases this

/-- A request that is answered in time. -/
theorem returned_of_timely_answered :
    ∃ s, registry.ReachesUnder (fun a s ↦ timely a s) s ∧
      s.futures.map (·.pc) = [.returned (some (responseOf (connAuthPacket 7)))] ∧
      ∀ f ∈ s.futures, ∀ r, f.pc = .returned r → r = f.answeredBy.map responseOf := by
  have hrun : ((registry.guard fun a s ↦ timely a s).exec [.construct .sendConnAndGet 7, .used 0,
      .write 0, .dispatch (connAuthPacket 7), .setResponse, .test 0] .empty).map
      (fun s ↦ s.futures.map (·.pc)) =
      some [.returned (some (responseOf (connAuthPacket 7)))] := by decide +kernel
  obtain ⟨s, hreach, hpc⟩ := System.exists_reachesUnder hrun rfl
  exact ⟨s, hreach, hpc, (returned_of_timely hreach).1⟩

/-- A response that arrives between `has_value()` and the erasure is consumed, and the caller
returns null. -/
theorem lost_response :
    ∃ s, registry.Reachable s ∧
      s.futures.map (fun f ↦ (f.pc, f.value)) =
        [(.returned none, some (responseOf (connAuthPacket 7)))] ∧
      ¬∀ f ∈ s.futures, ∀ r, f.pc = .returned r → r = f.answeredBy.map responseOf := by
  have hrun : (registry.exec [.construct .sendConnAndGet 7, .used 0, .write 0, .test 0,
      .dispatch (connAuthPacket 7), .setResponse, .erase 0] .empty).map
      (fun s ↦ s.futures) =
      some [⟨.sendConnAndGet, 7, .returned none, some (responseOf (connAuthPacket 7)), 1,
        some (connAuthPacket 7), true⟩] := by decide +kernel
  obtain ⟨s, hreach, hfutures⟩ := System.exists_reachable hrun rfl
  refine ⟨s, hreach, by rw [hfutures]; rfl, fun h ↦ ?_⟩
  rw [hfutures] at h
  have := h _ List.mem_cons_self none rfl
  cases this

end Registry

end Kiteq

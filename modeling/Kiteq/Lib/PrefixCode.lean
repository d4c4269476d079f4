import Mathlib.Data.List.Infix
import Mathlib.InformationTheory.Coding.UniquelyDecodable

/-!
# Prefix-free codes

A set of codewords none of which begins another.  The codeword a string begins with is then
determined by the string (`PrefixFree.eq_of_prefix`), and a concatenation of codewords can be
cut in one way only (`PrefixFree.uniquelyDecodable`), whatever the boundaries of a second
concatenation are.
-/

namespace Kiteq.Lib

open InformationTheory

variable {β : Type*} {S : Set (List β)}

/-- No codeword is a proper prefix of another. -/
def PrefixFree (S : Set (List β)) : Prop := ∀ u ∈ S, ∀ v ∈ S, u <+: v → u = v

namespace PrefixFree

/-- A string begins with at most one codeword. -/
theorem eq_of_prefix (h : PrefixFree S) {u v bs : List β} (hu : u ∈ S) (hv : v ∈ S)
    (hub : u <+: bs) (hvb : v <+: bs) : u = v := by
  rcases List.prefix_or_prefix_of_prefix hub hvb with huv | hvu
  · exact h u hu v hv huv
  · exact (h v hv u hu hvu).symm

/-- A prefix-free code without the empty word is uniquely decodable. -/
theorem uniquelyDecodable (h : PrefixFree S) (hnil : [] ∉ S) : UniquelyDecodable S := by
  intro L₁
  induction L₁ with
  | nil =>
      intro L₂ _ hL₂ hflat
      cases L₂ with
      | nil => rfl
      | cons v vs =>
          have hv : v = [] := by
            rw [List.flatten_nil, List.flatten_cons] at hflat
            exact (List.append_eq_nil_iff.mp hflat.symm).1
          exact absurd (hv ▸ hL₂ v List.mem_cons_self) hnil
  | cons u us ih =>
      intro L₂ hL₁ hL₂ hflat
      have hu := hL₁ u List.mem_cons_self
      cases L₂ with
      | nil =>
          have hu' : u = [] := by
            rw [List.flatten_nil, List.flatten_cons] at hflat
            exact (List.append_eq_nil_iff.mp hflat).1
          exact absurd (hu' ▸ hu) hnil
      | cons v vs =>
          rw [List.flatten_cons, List.flatten_cons] at hflat
          -- the first codewords begin the same string, so they agree and can be cancelled
          have huv : u = v := h.eq_of_prefix hu (hL₂ v List.mem_cons_self)
            (List.prefix_append u us.flatten) (hflat ▸ List.prefix_append v vs.flatten)
          subst huv
          have htails := ih vs (fun w hw ↦ hL₁ w (List.mem_cons_of_mem _ hw))
            (fun w hw ↦ hL₂ w (List.mem_cons_of_mem _ hw)) (List.append_cancel_left hflat)
          rw [htails]

end PrefixFree

end Kiteq.Lib

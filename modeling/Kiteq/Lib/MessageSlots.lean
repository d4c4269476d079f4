import Kiteq.Lib.MessageModel

/-!
# The fields of a message

A message keeps one word of has-bits and a value for every field.  When the table is well formed
its fields are nevertheless independent: storing one changes no other (`slot_store_of_ne`), so that
a message means the product of what its fields mean, and `MergeFrom` and `Clear`, which go through
the fields one after the other and look at masks of has-bits before they do, compute `*` and `1`.
-/

namespace Kiteq.Lib.Schema

/-! ## Masks -/

section Masks

variable {x a b : BitVec 32}

theorem or_and_of_apart (h : a &&& b = 0#32) : (x ||| a) &&& b = x &&& b := by
  rw [BitVec.and_or_distrib_right, h, BitVec.or_zero]

theorem and_not_and_of_apart (h : a &&& b = 0#32) : (x &&& ~~~a) &&& b = x &&& b := by
  have hb : b = ~~~a &&& b := calc
    b = (~~~a ||| a) &&& b := by rw [BitVec.not_or_self, BitVec.allOnes_and]
    _ = ~~~a &&& b := by rw [BitVec.and_or_distrib_right, h, BitVec.or_zero]
  rw [BitVec.and_assoc, ← hb]

theorem or_and_self : (x ||| a) &&& a = a := by
  ext i hi
  simp only [BitVec.getElem_and, BitVec.getElem_or]
  cases a[i] <;> simp

theorem and_or_self : x &&& a ||| a = a := by
  ext i hi
  simp only [BitVec.getElem_and, BitVec.getElem_or]
  cases a[i] <;> simp

theorem and_or_self_left : a &&& x ||| a = a := by
  rw [BitVec.and_comm, and_or_self]

theorem and_not_and_self : (x &&& ~~~a) &&& a = 0#32 := by
  rw [BitVec.and_assoc, BitVec.not_and_self]
  exact BitVec.and_zero

/-- A word that meets a part of a mask meets the mask. -/
theorem and_ne_zero_of_subset (hsub : a &&& b = a) (h : x &&& a ≠ 0#32) : x &&& b ≠ 0#32 := by
  intro hzero
  apply h
  rw [← hsub, BitVec.and_comm a b, ← BitVec.and_assoc, hzero, BitVec.zero_and]

/-- A word that meets a single bit contains it. -/
theorem and_eq_of_twoPow {i : Fin 32} (ha : a = BitVec.twoPow 32 i) (h : x &&& a ≠ 0#32) :
    x &&& a = a := by
  rw [ha, BitVec.and_twoPow] at h ⊢
  split at h
  · next hbit => rw [if_pos hbit]
  · exact absurd rfl h

theorem and_foldr_of_mem {l : List (BitVec 32)} (h : a ∈ l) :
    a &&& l.foldr (· ||| ·) 0 = a := by
  induction l with
  | nil => cases h
  | cons k l ih =>
      rw [List.foldr_cons, BitVec.and_or_distrib_left]
      rcases List.mem_cons.mp h with rfl | h
      · rw [BitVec.and_self, BitVec.or_comm, BitVec.and_comm, and_or_self]
      · rw [ih h, and_or_self_left]

/-- A word contains the union of some masks if and only if it contains each of them. -/
theorem and_foldr_eq_iff {l : List (BitVec 32)} :
    x &&& l.foldr (· ||| ·) 0 = l.foldr (· ||| ·) 0 ↔ ∀ k ∈ l, x &&& k = k := by
  constructor
  · intro h k hk
    rw [← and_foldr_of_mem hk, BitVec.and_comm k, ← BitVec.and_assoc, h]
  · intro h
    induction l with
    | nil => exact BitVec.and_zero
    | cons k l ih =>
        rw [List.foldr_cons, BitVec.and_or_distrib_left, h k (by simp),
          ih fun j hj ↦ h j (by simp [hj])]

end Masks

variable {F : Type} {S : Schema F} {K : F → FieldType} {U : Type}

/-! ## Slots -/

namespace WellFormed

variable (hS : S.WellFormed) {m : Message K U} {f g : F}

include hS

theorem mask_ne_zero (h : (S.row f).repeated = false) : (S.row f).mask ≠ 0 := by
  obtain ⟨i, hi⟩ := hS.mask_eq f h
  rw [hi]
  intro hzero
  have hbit := congrArg (fun y ↦ y.getLsbD i) hzero
  simp at hbit

theorem has_setHas_of_ne (h : g ≠ f) : (m.setHas S f).has S g = m.has S g := by
  simp only [Message.has, Message.setHas, or_and_of_apart (hS.mask_apart f g h.symm)]

theorem has_clearHas_of_ne (h : g ≠ f) : (m.clearHas S f).has S g = m.has S g := by
  simp only [Message.has, Message.clearHas, and_not_and_of_apart (hS.mask_apart f g h.symm)]

theorem present_setHas : (m.setHas S f).present S f = true := by
  cases hrep : (S.row f).repeated with
  | true => simp [Message.present, hrep]
  | false =>
      simp only [Message.present, hrep, Message.has, Message.setHas, or_and_self, Bool.false_or]
      exact bne_iff_ne.mpr (hS.mask_ne_zero hrep)

omit hS in
theorem present_clearHas : (m.clearHas S f).present S f = (S.row f).repeated := by
  simp [Message.present, Message.has, Message.clearHas, and_not_and_self]

/-- A guard lets a field through that is present. -/
theorem admits_of_present {k : Option (BitVec 32)}
    (hk : k = (S.row f).clearMask ∨ k = (S.row f).mergeMask) (h : m.present S f = true) :
    m.admits k = true := by
  cases k with
  | none => rfl
  | some k =>
      obtain ⟨hrep, hsub⟩ := hS.guards f k (by
        rcases hk with hk | hk <;> simp [← hk])
      have hhas : m.has S f = true := by simpa [Message.present, hrep] using h
      exact bne_iff_ne.mpr (and_ne_zero_of_subset hsub (bne_iff_ne.mp hhas))

variable [DecidableEq F]

theorem slot_store (s : Slot (K f).Value) :
    (m.store S f s).slot S f = ⟨(S.row f).repeated || s.has, s.value⟩ := by
  obtain ⟨has, v⟩ := s
  cases has with
  | true =>
      have hpresent : ((m.setHas S f).setValue f v).present S f = true := hS.present_setHas
      simp only [Message.slot, Message.store, if_true, hpresent, Bool.or_true]
      simp [Message.setValue]
  | false =>
      have hpresent : ((m.clearHas S f).setValue f v).present S f = (S.row f).repeated :=
        present_clearHas
      simp only [Message.slot, Message.store, Bool.false_eq_true, if_false, hpresent,
        Bool.or_false]
      simp [Message.setValue]

/-- The fields of a message are independent. -/
theorem slot_store_of_ne (h : g ≠ f) (s : Slot (K f).Value) :
    (m.store S f s).slot S g = m.slot S g := by
  obtain ⟨has, v⟩ := s
  have hvalue (m : Message K U) : (m.setValue f v).value g = m.value g := by
    simp [Message.setValue, h]
  cases has with
  | true =>
      have hhas : ((m.setHas S f).setValue f v).has S g = m.has S g := hS.has_setHas_of_ne h
      simp only [Message.slot, Message.store, Message.present, if_true, hhas, hvalue]
      rfl
  | false =>
      have hhas : ((m.clearHas S f).setValue f v).has S g = m.has S g := hS.has_clearHas_of_ne h
      simp only [Message.slot, Message.store, Message.present, Bool.false_eq_true, if_false, hhas,
        hvalue]
      rfl

end WellFormed

@[simp] theorem unknown_store [DecidableEq F] {m : Message K U} {f : F} {s : Slot (K f).Value} :
    (m.store S f s).unknown = m.unknown := by
  unfold Message.store
  split <;> rfl

@[simp] theorem slot_new (f : F) :
    (new K U).slot S f = ⟨(S.row f).repeated, (K f).default⟩ := by
  simp [Message.slot, new, Message.present, Message.has]

/-- What a pass over the fields does to one of them, if each line is about its own field. -/
theorem slot_foldl {step : Message K U → F → Message K U}
    {φ : (f : F) → Slot (K f).Value → Slot (K f).Value}
    (hself : ∀ m f, (step m f).slot S f = φ f (m.slot S f))
    (hne : ∀ m f g, g ≠ f → (step m f).slot S g = m.slot S g) {l : List F} (hl : l.Nodup)
    (m : Message K U) (g : F) :
    (g ∈ l → (l.foldl step m).slot S g = φ g (m.slot S g)) ∧
      (g ∉ l → (l.foldl step m).slot S g = m.slot S g) := by
  induction l generalizing m with
  | nil => simp
  | cons f l ih =>
      obtain ⟨hf, hl⟩ := List.nodup_cons.mp hl
      obtain ⟨hin, hout⟩ := ih hl (step m f)
      rw [List.foldl_cons]
      refine ⟨fun hg ↦ ?_, fun hg ↦ ?_⟩
      · rcases List.mem_cons.mp hg with rfl | hg
        · rw [hout hf, hself]
        · rw [hin hg, hne _ _ _ (ne_of_mem_of_not_mem hg hf)]
      · rw [List.mem_cons, not_or] at hg
        rw [hout hg.2, hne _ _ _ hg.1]

/-! ## Contents -/

variable (S) (M : ∀ f, (K f).Model (S.row f).repeated)

/-- The content of a message, field by field, and its unknown fields. -/
abbrev Content (U : Type) : Type := (∀ f, (M f).Content) × FreeMonoid U

def content (m : Message K U) : S.Content M U :=
  (fun f ↦ (m.slot S f).meaning (M f).content, .ofList m.unknown)

/-- Every field is consistent. -/
def Inv (m : Message K U) : Prop := ∀ f, (M f).Valid (m.slot S f)

variable {S M}

theorem inv_new : S.Inv M (new K U) := fun f ↦ by
  rw [slot_new]
  exact (M f).valid_default

theorem content_new : S.content M (new K U) = 1 := by
  refine Prod.ext (funext fun f ↦ ?_) rfl
  simp only [content, slot_new, Slot.meaning]
  split
  · next h => exact (M f).content_default h
  · rfl

/-- The content of a field that is not set is `1`. -/
theorem meaning_eq_one {f : F} {s : Slot (K f).Value} (h : s.has = false) :
    s.meaning (M f).content = 1 := by
  simp [Slot.meaning, h]

theorem meaning_eq {f : F} {s : Slot (K f).Value} (h : s.has = true) :
    s.meaning (M f).content = (M f).content s.value := by
  simp [Slot.meaning, h]

/-- A repeated field is always present. -/
theorem repeated_eq_false {m : Message K U} {f : F} (h : m.present S f = false) :
    (S.row f).repeated = false := (Bool.or_eq_false_iff.mp h).1

/-- Messages of the same content have the same fields set, with the same contents. -/
theorem present_congr {m m' : Message K U} (h : S.content M m = S.content M m') (f : F) :
    m.present S f = m'.present S f ∧
      (m.present S f = true → (M f).content (m.value f) = (M f).content (m'.value f)) := by
  have hf : (m.slot S f).meaning (M f).content = (m'.slot S f).meaning (M f).content :=
    congrFun (congrArg Prod.fst h) f
  cases hp : m.present S f with
  | true =>
      rw [meaning_eq (s := m.slot S f) hp] at hf
      cases hp' : m'.present S f with
      | true => exact ⟨rfl, fun _ ↦ by rwa [meaning_eq (s := m'.slot S f) hp'] at hf⟩
      | false =>
          rw [meaning_eq_one (s := m'.slot S f) hp'] at hf
          exact absurd hf ((M f).content_ne_one (repeated_eq_false hp') _)
  | false =>
      rw [meaning_eq_one (s := m.slot S f) hp] at hf
      cases hp' : m'.present S f with
      | true =>
          rw [meaning_eq (s := m'.slot S f) hp'] at hf
          exact absurd hf.symm ((M f).content_ne_one (repeated_eq_false hp) _)
      | false => exact ⟨rfl, fun h ↦ absurd h Bool.false_ne_true⟩

/-- A consistent field that is present has a consistent value. -/
theorem Inv.valid_value {m : Message K U} (h : S.Inv M m) {f : F} (hf : m.present S f = true) :
    (M f).Valid ⟨true, m.value f⟩ := by
  have hv := h f
  rwa [Message.slot, hf] at hv

variable [DecidableEq F]

theorem inv_store (hS : S.WellFormed) {m : Message K U} (h : S.Inv M m) {f : F}
    {s : Slot (K f).Value} (hs : (M f).Valid ⟨(S.row f).repeated || s.has, s.value⟩) :
    S.Inv M (m.store S f s) := fun g ↦ by
  by_cases hg : g = f
  · subst hg
    rwa [hS.slot_store]
  · rw [hS.slot_store_of_ne hg]
    exact h g

/-- Storing a field changes the content of that field. -/
theorem content_store (hS : S.WellFormed) (m : Message K U) (f : F) (s : Slot (K f).Value) :
    S.content M (m.store S f s) = (Function.update (S.content M m).1 f
      (Slot.meaning (M f).content ⟨(S.row f).repeated || s.has, s.value⟩), .ofList m.unknown) := by
  refine Prod.ext (funext fun g ↦ ?_) (by simp [content])
  by_cases hg : g = f
  · subst hg
    simp only [content, hS.slot_store, Function.update_self]
  · simp only [content, hS.slot_store_of_ne hg, Function.update_of_ne hg]

/-! ## Merging -/

theorem slot_mergeField (hS : S.WellFormed) (src m : Message K U) (f : F) :
    (S.mergeField src m f).slot S f = if src.present S f then
      ⟨true, (K f).merge (m.slot S f).value (src.value f)⟩ else m.slot S f := by
  unfold mergeField
  cases h : src.present S f with
  | true =>
      rw [if_pos (by rw [hS.admits_of_present (.inr rfl) h]; rfl), hS.slot_store]
      simp [Message.slot]
  | false => simp

theorem slot_mergeField_of_ne (hS : S.WellFormed) (src m : Message K U) {f g : F} (h : g ≠ f) :
    (S.mergeField src m f).slot S g = m.slot S g := by
  unfold mergeField
  split
  · exact hS.slot_store_of_ne h _
  · rfl

theorem slot_mergeFrom (hS : S.WellFormed) (m src : Message K U) (f : F) :
    (S.mergeFrom m src).slot S f = if src.present S f then
      ⟨true, (K f).merge (m.slot S f).value (src.value f)⟩ else m.slot S f :=
  (slot_foldl (S := S) (φ := fun f s ↦ if src.present S f then
    ⟨true, (K f).merge s.value (src.value f)⟩ else s) (slot_mergeField hS src)
    (fun m _ _ h ↦ slot_mergeField_of_ne hS src m h) hS.nodup m f).1 (hS.mem_fields f)

theorem inv_mergeFrom (hS : S.WellFormed) {m src : Message K U} (hm : S.Inv M m)
    (hsrc : S.Inv M src) : S.Inv M (S.mergeFrom m src) := fun f ↦ by
  rw [slot_mergeFrom hS]
  split
  · next h => exact (M f).valid_merge (hm f) (hsrc.valid_value h)
  · exact hm f

/-- **`MergeFrom` multiplies.** -/
theorem content_mergeFrom (hS : S.WellFormed) {m src : Message K U} (hm : S.Inv M m)
    (hsrc : S.Inv M src) :
    S.content M (S.mergeFrom m src) = S.content M m * S.content M src := by
  refine Prod.ext (funext fun f ↦ ?_) (by simp [content, mergeFrom])
  simp only [content, slot_mergeFrom hS, Prod.fst_mul, Pi.mul_apply]
  cases h : src.present S f with
  | true =>
      have hmerge := (M f).content_merge (hm f) (hsrc.valid_value h)
      simp only [if_true]
      rw [meaning_eq (s := src.slot S f) h, meaning_eq rfl]
      exact hmerge
  | false =>
      simp only [Bool.false_eq_true, if_false]
      rw [meaning_eq_one (s := src.slot S f) h, mul_one]

/-! ## Clearing -/

theorem value_clear (hS : S.WellFormed) (m : Message K U) (f : F) :
    (S.clear m).value f = if m.admits (S.row f).clearMask then
      (K f).clear (m.present S f) (m.value f) else m.value f := by
  have hslot : (S.fields.foldl (S.clearField m) m).slot S f = _ := (slot_foldl
    (φ := fun f s ↦ ⟨s.has, if m.admits (S.row f).clearMask then
      (K f).clear (m.present S f) s.value else s.value⟩)
    (fun n f ↦ ?_) (fun n f g h ↦ ?_) hS.nodup m f).1 (hS.mem_fields f)
  · exact congrArg Slot.value hslot
  · unfold clearField
    split
    · simp [Message.slot, Message.setValue, Message.present, Message.has]
    · rfl
  · unfold clearField
    split
    · simp [Message.slot, Message.setValue, h, Message.present, Message.has]
    · rfl

theorem slot_clear (m : Message K U) (f : F) :
    (S.clear m).slot S f = ⟨(S.row f).repeated, (S.clear m).value f⟩ := by
  simp [Message.slot, Message.present, Message.has, clear]

/-- The value of a field after `Clear` is the cleared one, or it was not set before. -/
theorem valid_value_clear (hS : S.WellFormed) {m : Message K U} (hm : S.Inv M m) (f : F) :
    (M f).Valid ⟨(S.row f).repeated, (S.clear m).value f⟩ ∧
      ((S.row f).repeated = true → (M f).content ((S.clear m).value f) = 1) := by
  rw [value_clear hS]
  split
  · exact ⟨(M f).valid_clear (hm f) id, fun hrep ↦ (M f).content_clear hrep (hm f)⟩
  · next h =>
      have hp : m.present S f = false :=
        Bool.eq_false_iff.mpr fun hp ↦ h (hS.admits_of_present (.inl rfl) hp)
      have hrep := repeated_eq_false hp
      have hv := hm f
      rw [Message.slot, hp, ← hrep] at hv
      exact ⟨hv, fun h ↦ absurd (hrep.symm.trans h) Bool.false_ne_true⟩

theorem inv_clear (hS : S.WellFormed) {m : Message K U} (hm : S.Inv M m) :
    S.Inv M (S.clear m) := fun f ↦ by
  rw [slot_clear]
  exact (valid_value_clear hS hm f).1

/-- **`Clear` yields the unit**, whatever was in the message. -/
theorem content_clear (hS : S.WellFormed) {m : Message K U} (hm : S.Inv M m) :
    S.content M (S.clear m) = 1 := by
  refine Prod.ext (funext fun f ↦ ?_) rfl
  simp only [content, slot_clear, Slot.meaning]
  split
  · next h => exact (valid_value_clear hS hm f).2 h
  · rfl

end Kiteq.Lib.Schema

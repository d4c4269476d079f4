import Kiteq.Lib.FieldLoop
import Mathlib.Algebra.BigOperators.Group.List.Basic
import Mathlib.Algebra.FreeMonoid.Basic
import Mathlib.Algebra.Group.Submonoid.Operations
import Mathlib.Algebra.Group.WithOne.Basic

/-!
# What messages mean

Merging is the multiplication of messages.  A number or a string that is set is an element of the
semigroup in which the right factor wins, `WithOne` adds the field that is not set, a submessage
contributes the monoid of its class, a repeated field and the unknown fields the free monoid, and
a message is the product of its fields.

`MessageClass.Model` says that a class computes with these contents: `MergeFrom` multiplies,
`Clear` yields `1`, the parser multiplies by what is on the wire, and what is serialized is read
back.  `FieldType.Model` is the same for one field.  This file builds the models of the four types
of fields; the models of whole classes are assembled from them.
-/

namespace Kiteq.Lib

/-! ## Contents -/

/-- A value that replaces what was there before. -/
@[ext]
structure Last (α : Type) where
  value : α

namespace Last

variable {α : Type}

instance : Semigroup (Last α) where
  mul _ y := y
  mul_assoc _ _ _ := rfl

@[simp] theorem mul_eq (x y : Last α) : x * y = y := rfl

/-- In a field that is set, whatever was there is replaced. -/
@[simp] theorem mul_coe (x : WithOne (Last α)) (y : Last α) : x * y = (y : WithOne (Last α)) := by
  cases x with
  | one => exact one_mul _
  | coe x => rw [← WithOne.coe_mul, mul_eq]

end Last

/-- The submonoid of the submessages that are absent or in a submonoid. -/
def optionally {M : Type} [Monoid M] (s : Submonoid M) : Submonoid (WithOne M) where
  carrier := {x | ∀ y : M, x = y → y ∈ s}
  one_mem' y h := absurd h WithOne.one_ne_coe
  mul_mem' {x x'} hx hx' y h := by
    cases x with
    | one => exact hx' y (by rwa [one_mul] at h)
    | coe x =>
        cases x' with
        | one => exact hx y (by rwa [mul_one] at h)
        | coe x' =>
            rw [← WithOne.coe_mul, WithOne.coe_inj] at h
            exact h ▸ s.mul_mem (hx x rfl) (hx' x' rfl)

@[simp] theorem coe_mem_optionally {M : Type} [Monoid M] {s : Submonoid M} {y : M} :
    (y : WithOne M) ∈ optionally s ↔ y ∈ s :=
  ⟨fun h ↦ h y rfl, fun h _ heq ↦ WithOne.coe_inj.mp heq ▸ h⟩

/-- The submonoid of the lists whose elements have a property. -/
def everywhere {α : Type} (p : α → Prop) : Submonoid (FreeMonoid α) where
  carrier := {x | ∀ y ∈ x.toList, p y}
  one_mem' := by simp
  mul_mem' hx hx' := by
    simp only [FreeMonoid.toList_mul, Set.mem_ofPred_eq, List.forall_mem_append]
    exact ⟨hx, hx'⟩

@[simp] theorem mem_everywhere {α : Type} {p : α → Prop} {x : FreeMonoid α} :
    x ∈ everywhere p ↔ ∀ y ∈ x.toList, p y := Iff.rfl

theorem prod_map_of {α β : Type} (g : α → β) (xs : List α) :
    (xs.map fun x ↦ FreeMonoid.of (g x)).prod = .ofList (xs.map g) := by
  induction xs with
  | nil => rfl
  | cons x xs ih =>
      rw [List.map_cons, List.prod_cons, ih]
      rfl

/-- The content of a field, `1` if it is not set. -/
def Slot.meaning {α M : Type} [One M] (content : α → M) (s : Slot α) : M :=
  if s.has then content s.value else 1

/-! ## Models of classes -/

/-- The meaning of a class. -/
structure MessageClass.Model (C : MessageClass) where
  Content : Type
  [monoid : Monoid Content]
  content : C.Carrier → Content
  /-- The representation is consistent. -/
  Inv : C.Carrier → Prop
  /-- The contents that can be read within a recursion budget. -/
  Fits : ℕ → Submonoid Content
  inv_new : Inv C.new
  content_new : content C.new = 1
  inv_mergePartial : ∀ {m} b bs, Inv m → Inv (C.mergePartial b m bs).1
  mergePartial_snd : ∀ b m m' bs, (C.mergePartial b m bs).2 = (C.mergePartial b m' bs).2
  content_mergePartial : ∀ {b m bs}, Inv m → (C.mergePartial b m bs).2 = true →
    content (C.mergePartial b m bs).1 = content m * content (C.mergePartial b C.new bs).1
  fits_mergePartial : ∀ {b bs}, (C.mergePartial b C.new bs).2 = true →
    content (C.mergePartial b C.new bs).1 ∈ Fits b
  mergePartial_nil : ∀ b m, C.mergePartial b m [] = (m, true)
  /-- A serialized message in front of a stream is merged first. -/
  mergePartial_append : ∀ {b m m'} bs, Inv m → Inv m' → content m' ∈ Fits b →
    (C.serialize m').length < 2 ^ 31 →
      (C.mergePartial b m (C.serialize m' ++ bs)).2 = (C.mergePartial b C.new bs).2 ∧
      ((C.mergePartial b C.new bs).2 = true →
        content (C.mergePartial b m (C.serialize m' ++ bs)).1 =
          content m * content m' * content (C.mergePartial b C.new bs).1)
  serialize_congr : ∀ {m m'}, Inv m → Inv m' → content m = content m' →
    C.serialize m = C.serialize m'
  byteSize_eq : ∀ {m}, Inv m → C.byteSize m = BitVec.ofNat 32 (C.serialize m).length
  inv_mergeFrom : ∀ {m m'}, Inv m → Inv m' → Inv (C.mergeFrom m m')
  content_mergeFrom : ∀ {m m'}, Inv m → Inv m' →
    content (C.mergeFrom m m') = content m * content m'
  inv_clear : ∀ {m}, Inv m → Inv (C.clear m)
  content_clear : ∀ {m}, Inv m → content (C.clear m) = 1
  isInitialized_congr : ∀ {m m'}, Inv m → Inv m' → content m = content m' →
    C.isInitialized m = C.isInitialized m'

attribute [instance] MessageClass.Model.monoid

namespace MessageClass.Model

variable {C : MessageClass} (M : C.Model) {b : ℕ} {m : C.Carrier}

/-- What was serialized is read back. -/
theorem mergePartial_serialize (hm : M.Inv m) (hfits : M.content m ∈ M.Fits b)
    (hlen : (C.serialize m).length < 2 ^ 31) :
    (C.mergePartial b C.new (C.serialize m)).2 = true ∧
      M.content (C.mergePartial b C.new (C.serialize m)).1 = M.content m := by
  obtain ⟨hok, hcontent⟩ := M.mergePartial_append [] M.inv_new hm hfits hlen
  simp only [List.append_nil, M.mergePartial_nil, M.content_new, one_mul, mul_one] at hok hcontent
  exact ⟨hok, hcontent trivial⟩

end MessageClass.Model

/-! ## Models of types of fields -/

/-- The meaning of a type of fields. -/
structure FieldType.Model (K : FieldType) (repeated : Bool) where
  Content : Type
  [monoid : Monoid Content]
  content : K.Value → Content
  Valid : Slot K.Value → Prop
  Fits : ℕ → Submonoid Content
  valid_default : Valid ⟨repeated, K.default⟩
  content_default : repeated = true → content K.default = 1
  content_ne_one : repeated = false → ∀ v, content v ≠ 1
  valid_read : ∀ {s} b bs, Valid s → Valid (K.read b s bs).1
  has_read_of_has : ∀ {s} b bs, s.has = true → (K.read b s bs).1.has = true
  has_read : ∀ {b s bs}, (K.read b s bs).2.isSome = true → (K.read b s bs).1.has = true
  read_snd : ∀ b s s' bs, (K.read b s bs).2 = (K.read b s' bs).2
  content_read : ∀ {b s bs}, Valid s → (K.read b s bs).2.isSome = true →
    content (K.read b s bs).1.value =
      s.meaning content * content (K.read b ⟨repeated, K.default⟩ bs).1.value
  fits_read : ∀ {b bs}, (K.read b ⟨repeated, K.default⟩ bs).2.isSome = true →
    content (K.read b ⟨repeated, K.default⟩ bs).1.value ∈ Fits b
  /-- What is written for a value is read back, payload by payload. -/
  read_payloads : ∀ {b v}, Valid ⟨true, v⟩ → content v ∈ Fits b →
    (∀ p ∈ K.payloads v, p.length < 2 ^ 31) →
    ∃ cs : List Content, List.Forall₂ (fun p c ↦ ∀ rest,
      (K.read b ⟨repeated, K.default⟩ (p ++ rest)).2 = some rest ∧
        content (K.read b ⟨repeated, K.default⟩ (p ++ rest)).1.value = c) (K.payloads v) cs ∧
      cs.prod = content v
  payloads_default : repeated = true → K.payloads K.default = []
  payloads_congr : ∀ {v v'}, Valid ⟨true, v⟩ → Valid ⟨true, v'⟩ → content v = content v' →
    K.payloads v = K.payloads v'
  size_eq : ∀ {v}, Valid ⟨true, v⟩ →
    K.size v = BitVec.ofNat 32 ((K.payloads v).map fun p ↦ 1 + p.length).sum
  valid_merge : ∀ {s v}, Valid s → Valid ⟨true, v⟩ → Valid ⟨true, K.merge s.value v⟩
  content_merge : ∀ {s v}, Valid s → Valid ⟨true, v⟩ →
    content (K.merge s.value v) = s.meaning content * content v
  valid_clear : ∀ {s has}, Valid s → (s.has = true → has = true) →
    Valid ⟨repeated, K.clear has s.value⟩
  content_clear : ∀ {s has}, repeated = true → Valid s → content (K.clear has s.value) = 1
  isInitialized_congr : ∀ {v v'}, Valid ⟨true, v⟩ → Valid ⟨true, v'⟩ → content v = content v' →
    K.isInitialized v = K.isInitialized v'

attribute [instance] FieldType.Model.monoid

namespace FieldType

/-- Nothing is written of a repeated field whose content is `1`. -/
theorem Model.payloads_eq_nil {K : FieldType} {repeated : Bool} (M : K.Model repeated)
    (hrep : repeated = true) {v : K.Value} (hv : M.Valid ⟨true, v⟩) (h : M.content v = 1) :
    K.payloads v = [] := by
  subst hrep
  rw [M.payloads_congr hv M.valid_default (h.trans (M.content_default rfl).symm),
    M.payloads_default rfl]

/-! ### Numbers and strings -/

/-- A number or a string: what is not set has the default. -/
def scalarModel {α : Type} {c : Codec α} (eager : Bool) (d : α) (hc : c.Lawful)
    (ha : eager = false → c.Atomic) : (scalar eager c d).Model false where
  Content := WithOne (Last α)
  content v := (Last.mk v : Last α)
  Valid s := s.has = false → s.value = d
  Fits _ := ⊤
  valid_default _ := rfl
  content_default h := absurd h Bool.false_ne_true
  content_ne_one _ _ := WithOne.coe_ne_one
  valid_read {s} _ bs hs h := by
    simp only [scalar, Bool.or_eq_false_iff, Option.isSome_eq_false_iff,
      Option.isNone_iff_eq_none] at h ⊢
    obtain ⟨⟨heager, hhas⟩, hread⟩ := h
    rw [ha heager _ _ hread, hs hhas]
  has_read_of_has _ _ h := by simp [h]
  has_read h := by simpa using .inr h
  read_snd _ s s' bs := hc.read_snd s.value s'.value bs
  content_read {_ s bs} _ h := by
    rw [Last.mul_coe, WithOne.coe_inj]
    exact congrArg Last.mk (hc.read_fst s.value d bs h)
  fits_read _ := Submonoid.mem_top _
  read_payloads {_ v} _ _ hlen := by
    refine ⟨[((Last.mk v : Last α) : WithOne (Last α))], .cons (fun rest ↦ ?_) .nil, mul_one _⟩
    have hread := hc.read_write d v rest (hlen _ (by simp))
    simp [hread]
  payloads_default h := absurd h Bool.false_ne_true
  payloads_congr _ _ h :=
    congrArg (fun w : α ↦ [c.write w]) (congrArg Last.value (WithOne.coe_inj.mp h))
  size_eq {v} _ := by simp [hc.size_eq, BitVec.ofNat_add]
  valid_merge _ _ h := by cases h
  content_merge _ _ := (Last.mul_coe _ _).symm
  valid_clear {s has} hs hhas _ := by
    simp only [scalar]
    split
    · next h =>
        rw [Bool.and_eq_true, Bool.not_eq_true'] at h
        exact hs (Bool.eq_false_iff.mpr fun hs' ↦ by simp [hhas hs'] at h)
    · rfl
  content_clear h := absurd h Bool.false_ne_true
  isInitialized_congr _ _ _ := rfl

theorem scalarModel_injective {α : Type} {c : Codec α} (eager : Bool) (d : α) (hc : c.Lawful)
    (ha : eager = false → c.Atomic) :
    Function.Injective (scalarModel eager d hc ha).content := fun _ _ h ↦
  congrArg Last.value (WithOne.coe_inj.mp h)

/-! ### Submessages -/

section

variable (W : WireFormat) {C : MessageClass} (M : C.Model)

variable {W M} in
/-- What is written in front of a submessage is the length of the submessage. -/
theorem length_serialize_lt {m : C.Carrier} (hlen : (C.write W m).length < 2 ^ 31) :
    (C.serialize m).length < 2 ^ 31 := by
  rw [MessageClass.write, List.length_append] at hlen
  omega

variable {b : ℕ} {m : C.Carrier} {o : Option (Octets × Option Octets)}

theorem inv_readClass (h : M.Inv m) : M.Inv (C.read b m o).1 := by
  cases o with
  | none => exact h
  | some p => exact M.inv_mergePartial b p.1 h

include M in
theorem readClass_snd (m m' : C.Carrier) : (C.read b m o).2 = (C.read b m' o).2 := by
  cases o with
  | none => rfl
  | some p => simp only [MessageClass.read, M.mergePartial_snd b m m' p.1]

theorem mergePartial_of_readClass {p : Octets × Option Octets}
    (h : (C.read b m (some p)).2.isSome = true) : (C.mergePartial b m p.1).2 = true := by
  by_contra hfalse
  simp [MessageClass.read, hfalse] at h

theorem content_readClass (hm : M.Inv m) (h : (C.read b m o).2.isSome = true) :
    M.content (C.read b m o).1 = M.content m * M.content (C.read b C.new o).1 := by
  cases o with
  | none => cases h
  | some p => exact M.content_mergePartial hm (mergePartial_of_readClass h)

theorem fits_readClass (h : (C.read b C.new o).2.isSome = true) :
    M.content (C.read b C.new o).1 ∈ M.Fits b := by
  cases o with
  | none => cases h
  | some p => exact M.fits_mergePartial (mergePartial_of_readClass h)

/-- A submessage that was cut out where it was written is read back. -/
theorem readClass_serialize (hm : M.Inv m) (hfits : M.content m ∈ M.Fits b)
    (hlen : (C.serialize m).length < 2 ^ 31) (rest : Octets) :
    (C.read b C.new (some (C.serialize m, some rest))).2 = some rest ∧
      M.content (C.read b C.new (some (C.serialize m, some rest))).1 = M.content m := by
  obtain ⟨hok, hcontent⟩ := M.mergePartial_serialize hm hfits hlen
  exact ⟨by simp [MessageClass.read, hok], hcontent⟩

variable {W} in
theorem write_append (hm : M.Inv m) (rest : Octets) :
    C.write W m ++ rest =
      W.writeLength (BitVec.ofNat 32 (C.serialize m).length) ++ (C.serialize m ++ rest) := by
  rw [MessageClass.write, M.byteSize_eq hm, List.append_assoc]

variable {W} in
theorem write_congr {m' : C.Carrier} (hm : M.Inv m) (hm' : M.Inv m')
    (h : M.content m = M.content m') : C.write W m = C.write W m' := by
  rw [MessageClass.write, MessageClass.write, M.byteSize_eq hm, M.byteSize_eq hm',
    M.serialize_congr hm hm' h]

variable {W} in
theorem sizeClass_eq (hW : W.Lawful) (hm : M.Inv m) :
    C.size W m = BitVec.ofNat 32 (C.write W m).length := by
  rw [MessageClass.size, MessageClass.write, List.length_append, BitVec.ofNat_add,
    hW.lengthSize_eq, M.byteSize_eq hm]

/-- The contents of a submessage, nested one level deeper. -/
def nested : ℕ → Submonoid (WithOne M.Content)
  | 0 => ⊥
  | b + 1 => optionally (M.Fits b)

/-- A submessage: the object behind the pointer outlives its has-bit, but it is cleared. -/
def messageModel (hW : W.Lawful) : (message W C).Model false where
  Content := WithOne M.Content
  content v := (M.content (v.getD C.new) : WithOne M.Content)
  Valid s := M.Inv (s.value.getD C.new) ∧
    if s.has then s.value.isSome = true else M.content (s.value.getD C.new) = 1
  Fits := nested M
  valid_default := ⟨M.inv_new, M.content_new⟩
  content_default h := absurd h Bool.false_ne_true
  content_ne_one _ _ := WithOne.coe_ne_one
  valid_read b bs hs := by
    cases b with
    | zero => exact ⟨hs.1, rfl⟩
    | succ b => exact ⟨inv_readClass M hs.1, rfl⟩
  has_read_of_has b _ _ := by cases b <;> rfl
  has_read {b _ _} _ := by cases b <;> rfl
  read_snd b s s' bs := by
    cases b with
    | zero => rfl
    | succ b => exact readClass_snd M _ _
  content_read {b s bs} hs h := by
    cases b with
    | zero => cases h
    | succ b =>
        have hmul : s.meaning (fun v ↦ (M.content (v.getD C.new) : WithOne M.Content)) *
            (M.content (C.read b C.new (W.readLimited bs)).1 : WithOne M.Content) =
            (M.content (s.value.getD C.new) * M.content (C.read b C.new (W.readLimited bs)).1 :
              M.Content) := by
          obtain ⟨has, v⟩ := s
          cases has with
          | true => rfl
          | false =>
              have hone : M.content (v.getD C.new) = 1 := hs.2
              simp [Slot.meaning, hone]
        exact Eq.trans (congrArg _ (content_readClass M hs.1 h)) hmul.symm
  fits_read {b bs} h := by
    cases b with
    | zero => cases h
    | succ b => exact coe_mem_optionally.mpr (fits_readClass M h)
  read_payloads {b v} hv hfits hlen := by
    have hinv : M.Inv (v.getD C.new) := hv.1
    cases b with
    | zero => exact absurd (Submonoid.mem_bot.mp hfits) WithOne.coe_ne_one
    | succ b =>
        have hbody := length_serialize_lt (hlen (C.write W (v.getD C.new)) (by simp))
        refine ⟨[(M.content (v.getD C.new) : WithOne M.Content)], .cons (fun rest ↦ ?_) .nil,
          mul_one _⟩
        obtain ⟨hrest, hcontent⟩ :=
          readClass_serialize M hinv (coe_mem_optionally.mp hfits) hbody rest
        have hcut : W.readLimited (C.write W (v.getD C.new) ++ rest) =
            some (C.serialize (v.getD C.new), some rest) := by
          rw [write_append M hinv]
          exact hW.readLimited_write _ _ hbody
        simp only [Option.getD_none, hcut]
        exact ⟨hrest, congrArg _ hcontent⟩
  payloads_default h := absurd h Bool.false_ne_true
  payloads_congr hv hv' h :=
    congrArg (fun p ↦ [p]) (write_congr M hv.1 hv'.1 (WithOne.coe_inj.mp h))
  size_eq hv := by
    simp only [List.map_cons, List.map_nil, List.sum_singleton, BitVec.ofNat_add]
    exact congrArg (1 + ·) (sizeClass_eq M hW hv.1)
  valid_merge hs hv := ⟨M.inv_mergeFrom hs.1 hv.1, rfl⟩
  content_merge {s v} hs hv := by
    obtain ⟨has, w⟩ := s
    have hmerge : M.content (C.mergeFrom (w.getD C.new) (v.getD C.new)) =
        M.content (w.getD C.new) * M.content (v.getD C.new) := M.content_mergeFrom hs.1 hv.1
    cases has with
    | true => exact congrArg _ hmerge
    | false =>
        have hone : M.content (w.getD C.new) = 1 := hs.2
        rw [hone, one_mul] at hmerge
        exact (congrArg _ hmerge).trans (one_mul _).symm
  valid_clear {s has} hs hhas := by
    obtain ⟨h, v⟩ := s
    cases v with
    | none => cases has <;> exact ⟨M.inv_new, M.content_new⟩
    | some m =>
        cases has with
        | true => exact ⟨M.inv_clear hs.1, M.content_clear hs.1⟩
        | false =>
            cases h with
            | true => cases hhas rfl
            | false => exact hs
  content_clear h := absurd h Bool.false_ne_true
  isInitialized_congr hv hv' h := M.isInitialized_congr hv.1 hv'.1 (WithOne.coe_inj.mp h)

/-- Lists of consistent elements with the same contents look alike to a function that sees only
contents. -/
theorem map_congr_of_content {β : Type} {g : C.Carrier → β}
    (hg : ∀ {m m'}, M.Inv m → M.Inv m' → M.content m = M.content m' → g m = g m')
    {v v' : List C.Carrier} (hv : ∀ m ∈ v, M.Inv m) (hv' : ∀ m ∈ v', M.Inv m)
    (h : v.map M.content = v'.map M.content) : v.map g = v'.map g := by
  induction v generalizing v' with
  | nil => rw [List.map_eq_nil_iff.mp (Eq.symm h)]
  | cons m v ih =>
      obtain ⟨m', v', rfl, hm, htail⟩ := List.map_eq_cons_iff.mp h.symm
      rw [List.map_cons, List.map_cons,
        hg (hv m (by simp)) (hv' m' (by simp)) hm.symm,
        ih (fun n hn ↦ hv n (by simp [hn])) (fun n hn ↦ hv' n (by simp [hn])) htail.symm]

/-- A repeated submessage. -/
def repeatedModel (hW : W.Lawful) : (repeated W C).Model true where
  Content := FreeMonoid M.Content
  content v := .ofList (v.map M.content)
  Valid s := s.has = true ∧ ∀ m ∈ s.value, M.Inv m
  Fits b := everywhere (· ∈ M.Fits b)
  valid_default := ⟨rfl, by simp [repeated]⟩
  content_default _ := rfl
  content_ne_one h := absurd h.symm Bool.false_ne_true
  valid_read b bs hs := by
    refine ⟨rfl, fun m hm ↦ ?_⟩
    rcases List.mem_append.mp hm with hm | hm
    · exact hs.2 m hm
    · rw [List.mem_singleton.mp hm]
      exact inv_readClass M M.inv_new
  has_read_of_has _ _ _ := rfl
  has_read _ := rfl
  read_snd _ _ _ _ := rfl
  content_read {_ s _} hs _ := by
    simp [Slot.meaning, hs.1, repeated]
  fits_read {b bs} h := by
    have hfits := fits_readClass M (b := b) (o := W.readElement bs) h
    simpa [repeated] using hfits
  read_payloads {b v} hv hfits hlen := by
    refine ⟨v.map fun m ↦ .of (M.content m), ?_, prod_map_of M.content v⟩
    simp only [List.forall₂_map_left_iff, List.forall₂_map_right_iff, List.forall₂_same]
    intro m hm rest
    have hinv := hv.2 m hm
    have hbody := length_serialize_lt (hlen (C.write W m) (List.mem_map_of_mem hm))
    obtain ⟨hrest, hcontent⟩ := readClass_serialize M hinv
      (mem_everywhere.mp hfits _ (List.mem_map_of_mem hm)) hbody rest
    have hcut : W.readElement (C.write W m ++ rest) = some (C.serialize m, some rest) := by
      rw [write_append M hinv]
      exact hW.readElement_write _ _ hbody
    simp only [hcut]
    exact ⟨hrest, by simp [hcontent]⟩
  payloads_default _ := rfl
  payloads_congr hv hv' h :=
    map_congr_of_content M (write_congr M) hv.2 hv'.2 h
  size_eq {v} hv := by
    have hsize : v.map (C.size W) = v.map fun m ↦ BitVec.ofNat 32 (C.write W m).length :=
      List.map_congr_left fun m hm ↦ sizeClass_eq M hW (hv.2 m hm)
    simp [hsize, List.sum_map_add, Function.comp_def, BitVec.ofNat_add, ofNat_sum]
  valid_merge {s v} hs hv := by
    refine ⟨rfl, fun m hm ↦ ?_⟩
    rcases List.mem_append.mp hm with hm | hm
    · exact hs.2 m hm
    · obtain ⟨n, hn, rfl⟩ := List.mem_map.mp hm
      exact M.inv_mergeFrom M.inv_new (hv.2 n hn)
  content_merge {s v} hs hv := by
    have hcopy : (v.map (C.mergeFrom C.new)).map M.content = v.map M.content := by
      rw [List.map_map]
      refine List.map_congr_left fun m hm ↦ ?_
      rw [Function.comp_apply, M.content_mergeFrom M.inv_new (hv.2 m hm), M.content_new, one_mul]
    simp [Slot.meaning, hs.1, repeated, hcopy]
  valid_clear _ _ := ⟨rfl, by simp [repeated]⟩
  content_clear _ _ := rfl
  isInitialized_congr {v v'} hv hv' h := by
    have hmap := map_congr_of_content M M.isInitialized_congr hv.2 hv'.2 h
    simpa [repeated] using congrArg (fun l ↦ l.all id) hmap

end

end FieldType

end Kiteq.Lib

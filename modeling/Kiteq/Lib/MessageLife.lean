import Kiteq.Lib.SchemaModel

/-!
# The life of a message object

`Built` collects the messages a program can make with the generated functions: it sets, clears and
releases fields, merges and copies other such messages, clears the object, and lets the parser run
over any bytes, whether it succeeds or leaves the object half read.  All of them are consistent
(`Built.inv`), and the laws of a model hold of them: what is parsed into an object is merged into
it, an object that is cleared is as good as a new one, and what the parser has accepted is written
back in a form that is stable.
-/

namespace Kiteq.Lib

namespace MessageClass.Model

variable {C : MessageClass} (M : C.Model) {b : ℕ} {m m' : C.Carrier} {bs : Octets}

/-- Parsing into an object is parsing into a new one and merging. -/
theorem content_mergePartial_eq_mergeFrom (hm : M.Inv m) (h : (C.mergePartial b m bs).2 = true) :
    M.content (C.mergePartial b m bs).1 =
      M.content (C.mergeFrom m (C.mergePartial b C.new bs).1) := by
  rw [M.content_mergePartial hm h, M.content_mergeFrom hm (M.inv_mergePartial b bs M.inv_new)]

/-- A cleared object parses like a new one. -/
theorem content_mergePartial_clear (hm : M.Inv m)
    (h : (C.mergePartial b (C.clear m) bs).2 = true) :
    M.content (C.mergePartial b (C.clear m) bs).1 = M.content (C.mergePartial b C.new bs).1 := by
  rw [M.content_mergePartial (M.inv_clear hm) h, M.content_clear hm, one_mul]

/-- `CopyFrom` replaces all there was. -/
theorem content_copyFrom (hm : M.Inv m) (hm' : M.Inv m') :
    M.content (C.mergeFrom (C.clear m) m') = M.content m' := by
  rw [M.content_mergeFrom (M.inv_clear hm) hm', M.content_clear hm, one_mul]

theorem inv_foldl_mergeFrom {ms : List C.Carrier} (hm : M.Inv m) (hms : ∀ n ∈ ms, M.Inv n) :
    M.Inv (ms.foldl C.mergeFrom m) := by
  induction ms generalizing m with
  | nil => exact hm
  | cons n ms ih =>
      obtain ⟨hn, hms⟩ := List.forall_mem_cons.mp hms
      exact ih (M.inv_mergeFrom hm hn) hms

theorem content_foldl_mergeFrom {ms : List C.Carrier} (hm : M.Inv m) (hms : ∀ n ∈ ms, M.Inv n) :
    M.content (ms.foldl C.mergeFrom m) = M.content m * (ms.map M.content).prod := by
  induction ms generalizing m with
  | nil => exact (mul_one _).symm
  | cons n ms ih =>
      obtain ⟨hn, hms⟩ := List.forall_mem_cons.mp hms
      rw [List.foldl_cons, ih (M.inv_mergeFrom hm hn) hms, M.content_mergeFrom hm hn,
        List.map_cons, List.prod_cons, mul_assoc]

/-- **Concatenation is merging.** Serialized messages one behind the other are read as the merge of
all of them. -/
theorem mergePartial_flatMap_serialize {ms : List C.Carrier} (hm : M.Inv m)
    (hms : ∀ n ∈ ms, M.Inv n ∧ M.content n ∈ M.Fits b ∧ (C.serialize n).length < 2 ^ 31) :
    (C.mergePartial b m (ms.flatMap C.serialize)).2 = true ∧
      M.content (C.mergePartial b m (ms.flatMap C.serialize)).1 =
        M.content (ms.foldl C.mergeFrom m) := by
  rw [content_foldl_mergeFrom M hm fun n hn ↦ (hms n hn).1]
  induction ms generalizing m with
  | nil =>
      rw [List.flatMap_nil, M.mergePartial_nil]
      exact ⟨rfl, (mul_one _).symm⟩
  | cons n ms ih =>
      obtain ⟨⟨hn, hfits, hlen⟩, hms⟩ := List.forall_mem_cons.mp hms
      obtain ⟨hok, hcontent⟩ := ih M.inv_new hms
      obtain ⟨hok', hcontent'⟩ := M.mergePartial_append (ms.flatMap C.serialize) hm hn hfits hlen
      rw [List.flatMap_cons, hcontent' hok, hcontent, M.content_new, one_mul, List.map_cons,
        List.prod_cons, mul_assoc]
      exact ⟨hok'.trans hok, rfl⟩

/-- What was accepted is accepted again in the form in which it is written back. -/
theorem mergePartial_serialize_mergePartial (h : (C.mergePartial b C.new bs).2 = true)
    (hlen : (C.serialize (C.mergePartial b C.new bs).1).length < 2 ^ 31) :
    (C.mergePartial b C.new (C.serialize (C.mergePartial b C.new bs).1)).2 = true ∧
      M.content (C.mergePartial b C.new (C.serialize (C.mergePartial b C.new bs).1)).1 =
        M.content (C.mergePartial b C.new bs).1 :=
  M.mergePartial_serialize (M.inv_mergePartial b bs M.inv_new) (M.fits_mergePartial h) hlen

end MessageClass.Model

namespace Schema

variable {F : Type} [DecidableEq F] {S : Schema F} {K : F → FieldType} {W : WireFormat}

/-- The messages that can be made, where `ok` says what may be set in a field. -/
inductive Built (S : Schema F) (W : WireFormat) (ok : ∀ f, (K f).Value → Prop) :
    Message K W.Unknown → Prop
  | new : Built S W ok (new K W.Unknown)
  | set {m f v} : Built S W ok m → ok f v → Built S W ok (S.set m f v)
  | unset {m} (f) : Built S W ok m → Built S W ok (S.unset m f)
  | release {m} (f) : Built S W ok m → Built S W ok (S.release m f)
  | mergeFrom {m src} : Built S W ok m → Built S W ok src → Built S W ok (S.mergeFrom m src)
  | copyFrom {m src} : Built S W ok m → Built S W ok src → Built S W ok (S.copyFrom m src)
  | clear {m} : Built S W ok m → Built S W ok (S.clear m)
  | mergePartial {m} (b bs) : Built S W ok m →
      Built S W ok (S.mergePartialFromCodedStream W b m bs).1

variable {M : ∀ f, (K f).Model (S.row f).repeated} {U : Type} {m : Message K U} {f : F}

theorem inv_set (hS : S.WellFormed) (hm : S.Inv M m) {v : (K f).Value}
    (hv : (M f).Valid ⟨true, v⟩) : S.Inv M (S.set m f v) :=
  inv_store hS hm (by rwa [Bool.or_true])

theorem inv_unset (hS : S.WellFormed) (hm : S.Inv M m) : S.Inv M (S.unset m f) :=
  inv_store hS hm (by
    rw [Bool.or_false]
    exact (M f).valid_clear (hm f) fun _ ↦ rfl)

theorem inv_release (hS : S.WellFormed) (hm : S.Inv M m) : S.Inv M (S.release m f) :=
  inv_store hS hm (by
    rw [Bool.or_false]
    exact (M f).valid_default)

/-- **Every message that can be made is consistent**, also one on which the parser has failed. -/
theorem Built.inv (hW : W.Lawful) (hS : S.WellFormed) {ok : ∀ f, (K f).Value → Prop}
    (hok : ∀ f v, ok f v → (M f).Valid ⟨true, v⟩) {m : Message K W.Unknown}
    (h : S.Built W ok m) : S.Inv M m := by
  induction h with
  | new => exact inv_new
  | set _ hv ih => exact inv_set hS ih (hok _ _ hv)
  | unset f _ ih => exact inv_unset hS ih
  | release f _ ih => exact inv_release hS ih
  | mergeFrom _ _ ih ihsrc => exact inv_mergeFrom hS ih ihsrc
  | copyFrom _ _ ih ihsrc => exact inv_mergeFrom hS (inv_clear hS ih) ihsrc
  | clear _ ih => exact inv_clear hS ih
  | mergePartial b bs _ ih => exact (runSpec hW hS b bs).inv ih

/-! ## Records -/

/-- The fields of a message as a record of optional values. -/
def Message.get (S : Schema F) (m : Message K U) (f : F) : Option (K f).Value :=
  if m.present S f then some (m.value f) else none

/-- One line of a program that fills a message in. -/
def fill (S : Schema F) (g : ∀ f, Option (K f).Value) (m : Message K U) (f : F) : Message K U :=
  (g f).elim m (S.set m f)

/-- The message that is made from a record. -/
def ofFields (S : Schema F) (U : Type) (g : ∀ f, Option (K f).Value) : Message K U :=
  S.fields.foldl (S.fill g) (new K U)

/-- A record is complete: what is required is there, and what is there is complete. -/
def complete (S : Schema F) (g : ∀ f, Option (K f).Value) : Bool :=
  S.fields.all fun f ↦ ((S.row f).label ≠ .required || (g f).isSome) &&
    (g f).all (K f).isInitialized

variable {g : ∀ f, Option (K f).Value}

theorem slot_fill (hS : S.WellFormed) (m : Message K U) (f : F) :
    (S.fill g m f).slot S f = (g f).elim (m.slot S f) fun v ↦ ⟨true, v⟩ := by
  unfold fill
  cases g f with
  | none => rfl
  | some v => simp [set, hS.slot_store]

theorem slot_fill_of_ne (hS : S.WellFormed) (m : Message K U) {f f' : F} (h : f' ≠ f) :
    (S.fill g m f).slot S f' = m.slot S f' := by
  unfold fill
  cases g f with
  | none => rfl
  | some v => exact hS.slot_store_of_ne h _

theorem slot_ofFields (hS : S.WellFormed) (f : F) :
    (S.ofFields U g).slot S f =
      (g f).elim ⟨(S.row f).repeated, (K f).default⟩ fun v ↦ ⟨true, v⟩ := by
  have hslot := (slot_foldl (S := S) (φ := fun f s ↦ (g f).elim s fun v ↦ ⟨true, v⟩)
    (slot_fill (U := U) hS) (fun m _ _ h ↦ slot_fill_of_ne hS m h) hS.nodup (new K U) f).1
    (hS.mem_fields f)
  rwa [slot_new] at hslot

theorem unknown_ofFields : (S.ofFields U g).unknown = [] := by
  have hstep (l : List F) (m : Message K U) :
      (l.foldl (S.fill g) m).unknown = m.unknown := by
    induction l generalizing m with
    | nil => rfl
    | cons f l ih =>
        rw [List.foldl_cons, ih, fill]
        cases g f with
        | none => rfl
        | some v => exact unknown_store
  exact hstep _ _

theorem get_ofFields (hS : S.WellFormed) {f : F}
    (hg : (S.row f).repeated = true → (g f).isSome = true) : (S.ofFields U g).get S f = g f := by
  have hslot := slot_ofFields (U := U) (g := g) hS f
  have hhas := congrArg Slot.has hslot
  have hvalue := congrArg Slot.value hslot
  simp only [Message.slot] at hhas hvalue
  rw [Message.get, hhas, hvalue]
  cases hv : g f with
  | some v => rfl
  | none =>
      have hrep : (S.row f).repeated = false :=
        Bool.eq_false_iff.mpr fun hrep ↦ by simpa [hv] using hg hrep
      simp [hrep]

theorem get_ofFields_eq (hS : S.WellFormed)
    (hg : ∀ f, (S.row f).repeated = true → (g f).isSome = true) :
    (S.ofFields U g).get S = g := funext fun f ↦ get_ofFields hS (hg f)

theorem inv_ofFields (hS : S.WellFormed) (hg : ∀ f, ∀ v ∈ g f, (M f).Valid ⟨true, v⟩) :
    S.Inv M (S.ofFields U g) := fun f ↦ by
  rw [slot_ofFields hS]
  cases hv : g f with
  | some v => exact hg f v hv
  | none => exact (M f).valid_default

theorem fits_ofFields (hS : S.WellFormed) {b : ℕ}
    (hg : ∀ f, ∀ v ∈ g f, (M f).content v ∈ S.within M b f) :
    S.content M (S.ofFields W.Unknown g) ∈ S.Fits W M b := by
  refine mem_Fits.mpr ⟨fun f ↦ ?_, by simp [content, unknown_ofFields]⟩
  simp only [content, slot_ofFields hS]
  cases hv : g f with
  | some v => exact hg f v hv
  | none =>
      have hnew := congrFun (congrArg Prod.fst (content_new (S := S) (M := M) (U := W.Unknown))) f
      simp only [content, slot_new] at hnew
      rw [Option.elim_none, hnew]
      exact one_mem _

/-- What is written of a record: its fields in the order of their numbers. -/
theorem serialize_ofFields (hS : S.WellFormed)
    (hg : ∀ f, (S.row f).repeated = true → (g f).isSome = true) :
    S.serializeWithCachedSizes W (S.ofFields W.Unknown g) =
      S.fields.flatMap fun f ↦ (g f).elim [] fun v ↦
        ((K f).payloads v).flatMap (S.writeField W f) := by
  rw [serializeWithCachedSizes, unknown_ofFields, List.flatMap_nil, List.append_nil]
  refine congrArg (S.fields.flatMap ·) (funext fun f ↦ ?_)
  rw [← get_ofFields (U := W.Unknown) hS (hg f), Message.get]
  split <;> rfl

omit [DecidableEq F] in
/-- `IsInitialized` of a message is completeness of its record. -/
theorem isInitialized_eq (hS : S.WellFormed) (m : Message K W.Unknown) :
    S.isInitialized m = S.complete (m.get S) := by
  rw [Bool.eq_iff_iff, isInitialized_iff hS, complete, List.all_eq_true, ← forall_and]
  refine forall_congr' fun f ↦ ?_
  simp only [hS.mem_fields, true_imp_iff, Bool.and_eq_true, Bool.or_eq_true, Message.get]
  refine and_congr ?_ ?_
  · cases m.present S f <;> simp
  · cases m.present S f <;> simp

omit [DecidableEq F] in
theorem get_new (f : F) : (new K U).get S f =
    if (S.row f).repeated then some (K f).default else none := by
  have hhas : (new K U).present S f = (S.row f).repeated :=
    congrArg Slot.has (slot_new (S := S) (K := K) (U := U) f)
  rw [Message.get, hhas]
  rfl

omit [DecidableEq F] in
/-- Messages of the same content have the same record, up to what their fields mean. -/
theorem map_get_congr {m m' : Message K U} (hm : S.Inv M m) (hm' : S.Inv M m')
    (h : S.content M m = S.content M m') (f : F) {β : Type} {φ : (K f).Value → β}
    (hφ : ∀ {v v'}, (M f).Valid ⟨true, v⟩ → (M f).Valid ⟨true, v'⟩ →
      (M f).content v = (M f).content v' → φ v = φ v') :
    (m.get S f).map φ = (m'.get S f).map φ := by
  obtain ⟨hpresent, hcontent⟩ := present_congr h f
  unfold Message.get
  rw [← hpresent]
  split
  · next hp =>
      exact congrArg some (hφ (hm.valid_value hp) (hm'.valid_value (hpresent ▸ hp)) (hcontent hp))
  · rfl

omit [DecidableEq F] in
theorem get_congr {m m' : Message K U} (hm : S.Inv M m) (hm' : S.Inv M m')
    (h : S.content M m = S.content M m') {f : F} (hinj : Function.Injective (M f).content) :
    m.get S f = m'.get S f := by
  simpa using map_get_congr hm hm' h f (φ := id) fun _ _ hv ↦ hinj hv

end Schema

end Kiteq.Lib

import Kiteq.Lib.GeneratedClass

/-!
# The parser without gotos

The generated parser reads a tag, dispatches on it and reads the field, but behind a field it
first looks whether the next one in the table follows, and jumps to its label if so.  `mergeFields`
is the loop without the jumps.  `mergePartialFromCodedStream_eq` says that the jumps are nothing
but a short cut: whenever the table is well formed, the parser does what the loop does on every
input, also on one it refuses, and however often the runtime fails to see what comes next.
-/

namespace Kiteq.Lib.Schema

variable {F : Type}

/-- What the compiler promises of its tables. -/
structure WellFormed (S : Schema F) : Prop where
  nodup : S.fields.Nodup
  mem_fields : ∀ f, f ∈ S.fields
  tag_bounds : ∀ f, 0 < (S.row f).tag ∧ (S.row f).tag ≤ 127
  number_eq : ∀ f, (S.row f).number = (S.row f).tag / 8
  number_injective : ∀ f g, (S.row f).number = (S.row g).number → f = g
  next_eq : ∀ f, ∀ p ∈ (S.row f).next, p.1 = (S.row p.2).tag
  mask_eq : ∀ f, (S.row f).repeated = false → ∃ i : Fin 32, (S.row f).mask = BitVec.twoPow 32 i
  mask_repeated : ∀ f, (S.row f).repeated = true → (S.row f).mask = 0
  mask_apart : ∀ f g, f ≠ g → (S.row f).mask &&& (S.row g).mask = 0
  /-- A guard lets through every message in which the field is set. -/
  guards : ∀ f, ∀ k ∈ (S.row f).clearMask.toList ++ (S.row f).mergeMask.toList,
    (S.row f).repeated = false ∧ (S.row f).mask &&& k = (S.row f).mask
  requiredMask_eq : S.requiredMask =
    ((S.fields.filter fun f ↦ (S.row f).label = .required).map fun f ↦ (S.row f).mask).foldr
      (· ||| ·) 0
  sizeMask_eq : ∀ k ∈ S.sizeMask, k = S.requiredMask

/-- The same about the fields that are listed, which can be checked. -/
def Checked [DecidableEq F] (S : Schema F) : Prop :=
  S.fields.Nodup ∧ (∀ f ∈ S.fields, 0 < (S.row f).tag ∧ (S.row f).tag ≤ 127) ∧
    (∀ f ∈ S.fields, (S.row f).number = (S.row f).tag / 8) ∧
    (∀ f ∈ S.fields, ∀ g ∈ S.fields, (S.row f).number = (S.row g).number → f = g) ∧
    (∀ f ∈ S.fields, ∀ p ∈ (S.row f).next, p.1 = (S.row p.2).tag) ∧
    (∀ f ∈ S.fields, (S.row f).repeated = false →
      ∃ i : Fin 32, (S.row f).mask = BitVec.twoPow 32 i) ∧
    (∀ f ∈ S.fields, (S.row f).repeated = true → (S.row f).mask = 0) ∧
    (∀ f ∈ S.fields, ∀ g ∈ S.fields, f ≠ g → (S.row f).mask &&& (S.row g).mask = 0) ∧
    (∀ f ∈ S.fields, ((S.row f).clearMask.toList ++ (S.row f).mergeMask.toList).all fun k ↦
      (S.row f).repeated = false ∧ (S.row f).mask &&& k = (S.row f).mask) ∧
    S.requiredMask =
      ((S.fields.filter fun f ↦ (S.row f).label = .required).map fun f ↦ (S.row f).mask).foldr
        (· ||| ·) 0 ∧
    S.sizeMask.all fun k ↦ k = S.requiredMask

instance [DecidableEq F] (S : Schema F) : Decidable S.Checked :=
  inferInstanceAs (Decidable (_ ∧ _))

theorem Checked.wellFormed [DecidableEq F] {S : Schema F} (h : S.Checked)
    (hmem : ∀ f, f ∈ S.fields) : S.WellFormed := by
  obtain ⟨hnodup, htag, hnumber, hinj, hnext, hmask, hrep, hapart, hguards, hreq, hsize⟩ := h
  exact {
    nodup := hnodup
    mem_fields := hmem
    tag_bounds f := htag f (hmem f)
    number_eq f := hnumber f (hmem f)
    number_injective f g := hinj f (hmem f) g (hmem g)
    next_eq f := hnext f (hmem f)
    mask_eq f := hmask f (hmem f)
    mask_repeated f := hrep f (hmem f)
    mask_apart f g := hapart f (hmem f) g (hmem g)
    guards f k hk := by simpa using List.all_eq_true.mp (hguards f (hmem f)) k hk
    requiredMask_eq := hreq
    sizeMask_eq k hk := by simpa using (Option.all_eq_true _ _).mp hsize k hk }

variable {S : Schema F}

/-- The tag of a field is dispatched to the field. -/
theorem WellFormed.dispatch_tag (hS : S.WellFormed) (f : F) :
    S.dispatch (S.row f).tag = some f := by
  have hfind : (S.fields.find? fun g ↦ (S.row g).number = (S.row f).tag / 8) = some f := by
    rw [← hS.number_eq f]
    cases hg : S.fields.find? fun g ↦ (S.row g).number = (S.row f).number with
    | none => simpa using List.find?_eq_none.mp hg f (hS.mem_fields f)
    | some g =>
        have := List.find?_some hg
        rw [hS.number_injective g f (by simpa using this)]
  rw [dispatch, if_pos (hS.tag_bounds f), hfind]
  simp

variable {K : F → FieldType} {U : Type}

/-! ## The loop -/

/-- What is left to do for the loop: more fields, or nothing, well or not. -/
inductive Rest where
  | more (bs : Octets)
  | done (ok : Bool)

namespace Rest

/-- After a read. -/
def ofOption : Option Octets → Rest
  | none => .done false
  | some rest => .more rest

def rank : Rest → ℕ
  | .more bs => bs.length + 1
  | .done _ => 0

theorem rank_ofOption_lt {o : Option Octets} {n : ℕ} (h : ∀ rest, o = some rest → rest.length < n) :
    (ofOption o).rank < n + 1 := by
  cases o with
  | none => exact Nat.succ_pos n
  | some rest => exact Nat.succ_lt_succ (h rest rfl)

end Rest

variable (K U) in
/-- Where the loop is after a field. -/
structure Turn where
  message : Message K U
  rest : Rest

variable (S)

/-- The recursion budget inside a field. -/
def depth (b : ℕ) (f : F) : Option ℕ :=
  if (S.row f).repeated then if b = 0 then none else some (b - 1) else some b

variable (W : WireFormat)

/-- A field with a tag that is not in the table. -/
def skipTurn (b : ℕ) (m : Message K W.Unknown) (bs : Octets) : Turn K W.Unknown :=
  if (W.readTag bs).1 = 0 ∨ (W.readTag bs).1 % 8 = 4 then ⟨m, .done bs.isEmpty⟩
  else ⟨{ m with unknown := m.unknown ++ (W.skipField b (W.readTag bs).1 (W.readTag bs).2).1 },
    .ofOption (W.skipField b (W.readTag bs).1 (W.readTag bs).2).2⟩

variable [DecidableEq F]

/-- The value of a field, behind its tag. -/
def fieldTurn (b : ℕ) (m : Message K U) (f : F) (bs : Octets) : Turn K U :=
  match S.depth b f with
  | none => ⟨m, .done false⟩
  | some b' => ⟨m.store S f ((K f).read b' (m.slot S f) bs).1,
      .ofOption ((K f).read b' (m.slot S f) bs).2⟩

/-- One turn of the loop: a tag and what is behind it. -/
def turn (b : ℕ) (m : Message K W.Unknown) (bs : Octets) : Turn K W.Unknown :=
  match S.dispatch (W.readTag bs).1 with
  | some f => S.fieldTurn b m f (W.readTag bs).2
  | none => skipTurn W b m bs

theorem rank_turn_lt {b : ℕ} {m : Message K W.Unknown} {bs : Octets} :
    (S.turn W b m bs).rest.rank < bs.length + 1 := by
  unfold turn
  split
  · next f hf =>
      have hlt := W.readTag_lt (ne_zero_of_dispatch hf)
      unfold fieldTurn
      split
      · exact Nat.succ_pos _
      · exact Rest.rank_ofOption_lt fun rest hrest ↦
          Nat.lt_of_le_of_lt ((K f).rest_le (Prod.ext rfl hrest)) hlt
  · unfold skipTurn
    split
    · exact Nat.succ_pos _
    · next htag =>
        have hlt : (W.readTag bs).2.length < bs.length := W.readTag_lt fun h ↦ htag (.inl h)
        exact Rest.rank_ofOption_lt fun rest hrest ↦
          Nat.lt_of_le_of_lt (W.skipField_le (Prod.ext rfl hrest)) hlt

omit [DecidableEq F] in
/-- One step of a loop over turns. -/
def Turn.next (step : Message K U → Octets → Turn K U) (t : Turn K U) :
    Option (Turn K U × List Empty) :=
  match t.rest with
  | .more bs => some (step t.message bs, [])
  | .done _ => none

/-- The loop. -/
def fieldLoop (b : ℕ) : Machine (Turn K W.Unknown) Empty where
  next := Turn.next (S.turn W b)
  rank t := t.rest.rank
  rank_lt {t t' es} h := by
    obtain ⟨m, bs | ok⟩ := t
    · cases h
      exact S.rank_turn_lt W
    · cases h

def Turn.result (t : Turn K U) : Message K U × Bool :=
  (t.message, match t.rest with | .more _ => false | .done ok => ok)

/-- The end of the loop from some turn on. -/
def finish (b : ℕ) (t : Turn K W.Unknown) : Message K W.Unknown × Bool :=
  ((S.fieldLoop W b).run t).1.result

/-- A message read field by field. -/
def mergeFields (b : ℕ) (m : Message K W.Unknown) (bs : Octets) : Message K W.Unknown × Bool :=
  S.finish W b ⟨m, .more bs⟩

variable {W} {b : ℕ} {m : Message K W.Unknown} {bs : Octets}

@[simp] theorem finish_done {ok : Bool} : S.finish W b ⟨m, .done ok⟩ = (m, ok) := by
  rw [finish, Machine.run_of_halted rfl]
  rfl

theorem finish_more : S.finish W b ⟨m, .more bs⟩ = S.finish W b (S.turn W b m bs) := by
  rw [finish, Machine.run_of_next rfl]
  rfl

theorem mergeFields_eq : S.mergeFields W b m bs = S.finish W b (S.turn W b m bs) :=
  S.finish_more

/-! ## Jumps -/

/-- The turn of the loop a label belongs to. -/
def turnOf (b : ℕ) : Parse K U → Turn K U
  | .head m bs => ⟨m, .more bs⟩
  | .field f m bs | .loop f m bs => S.fieldTurn b m f bs
  | .success m consumed => ⟨m, .done consumed⟩
  | .failure m => ⟨m, .done false⟩

/-- The parser is in the loop of a field only on the recursion level of its elements. -/
def Entered (b : ℕ) : Parse K U → Prop
  | .loop f _ _ => S.depth b f = some (b - 1)
  | _ => True

variable {S}

theorem fieldTurn_of_read {m : Message K U} {f : F} {b' : ℕ} {s : Slot (K f).Value}
    {o : Option Octets} (hdepth : S.depth b f = some b')
    (h : (K f).read b' (m.slot S f) bs = (s, o)) :
    S.fieldTurn b m f bs = ⟨m.store S f s, .ofOption o⟩ := by
  simp only [fieldTurn, hdepth, h]

theorem turn_nil (hW : W.Lawful) : S.turn W b m [] = ⟨m, .done true⟩ := by
  have hdispatch : S.dispatch (W.readTag []).1 = none := by simp [dispatch, hW.readTag_nil]
  rw [turn, hdispatch]
  simp [skipTurn, hW.readTag_nil]

/-- A tag that is expected and seen is the tag that the loop would have read. -/
theorem turn_of_expectTag (hW : W.Lawful) (hS : S.WellFormed) {f : F} {rest : Octets}
    (h : W.expectTag (S.row f).tag bs = some rest) :
    S.turn W b m bs = S.fieldTurn b m f rest := by
  rw [turn, hW.expectTag_sound _ _ _ h, hS.dispatch_tag f]

/-- Behind a field the parser may jump, but it stays in the same turn. -/
theorem finish_afterField (hW : W.Lawful) (hS : S.WellFormed) (f : F) :
    S.finish W b (S.turnOf b (S.afterField W f m bs)) = S.finish W b ⟨m, .more bs⟩ := by
  unfold afterField
  split
  · split
    · next hend =>
        rw [hW.expectAtEnd_sound bs hend, finish_more, turn_nil hW]
        rfl
    · rfl
  · next tag g hnext =>
      have htag : tag = (S.row g).tag := hS.next_eq f _ hnext
      split
      · rfl
      · next rest hexpect =>
          rw [htag] at hexpect
          rw [finish_more, turn_of_expectTag hW hS hexpect]
          rfl

omit [DecidableEq F] in
theorem entered_afterField (f : F) : S.Entered b (S.afterField W f m bs) := by
  unfold afterField
  split
  · split <;> trivial
  · split <;> trivial

/-- A tag that is no field's is handled in one turn. -/
theorem turnOf_handleUnusual (h : S.dispatch (W.readTag bs).1 = none) :
    S.turnOf b (handleUnusual W b m bs) = S.turn W b m bs := by
  rw [turn, h, handleUnusual, skipTurn]
  split
  · rfl
  · split <;> next hskip => rw [hskip]; rfl

omit [DecidableEq F] in
theorem entered_handleUnusual : S.Entered b (handleUnusual W b m bs) := by
  unfold handleUnusual
  split
  · trivial
  · split <;> trivial

/-- **Step.** No step of the parser leaves the course of the loop. -/
theorem finish_of_next (hW : W.Lawful) (hS : S.WellFormed) {p p' : Parse K W.Unknown}
    (h : S.next W b p = some p') (hp : S.Entered b p) :
    S.Entered b p' ∧ S.finish W b (S.turnOf b p') = S.finish W b (S.turnOf b p) := by
  cases p with
  | head m bs =>
      simp only [next] at h
      split at h
      · next f hf =>
          cases h
          exact ⟨trivial, by simp only [turnOf, finish_more, turn, hf]⟩
      · next hf =>
          cases h
          exact ⟨entered_handleUnusual, by rw [turnOf_handleUnusual hf, turnOf, finish_more]⟩
  | field f m bs =>
      simp only [next] at h
      split at h
      · next hrep =>
          split at h
          · next hb =>
              cases h
              exact ⟨trivial, by simp [turnOf, fieldTurn, depth, hrep, hb]⟩
          · next hb =>
              cases h
              exact ⟨by simp [Entered, depth, hrep, hb], rfl⟩
      · next hrep =>
          have hdepth : S.depth b f = some b := by simp [depth, hrep]
          split at h
          · next s hread =>
              cases h
              exact ⟨trivial, by rw [turnOf, turnOf, fieldTurn_of_read hdepth hread]; rfl⟩
          · next s rest hread =>
              cases h
              exact ⟨entered_afterField f, by
                rw [finish_afterField hW hS, turnOf, fieldTurn_of_read hdepth hread]; rfl⟩
  | loop f m bs =>
      have hdepth : S.depth b f = some (b - 1) := hp
      simp only [next] at h
      split at h
      · next s hread =>
          cases h
          exact ⟨trivial, by rw [turnOf, turnOf, fieldTurn_of_read hdepth hread]; rfl⟩
      · next s rest hread =>
          split at h
          · next rest' hexpect =>
              cases h
              refine ⟨hdepth, ?_⟩
              rw [turnOf, turnOf, ← turn_of_expectTag hW hS hexpect, ← finish_more,
                fieldTurn_of_read hdepth hread]
              rfl
          · cases h
            exact ⟨entered_afterField f, by
              rw [finish_afterField hW hS, turnOf, fieldTurn_of_read hdepth hread]; rfl⟩
  | success m consumed => cases h
  | failure m => cases h

theorem result_of_halted {p : Parse K W.Unknown} (h : S.next W b p = none) :
    p.result = S.finish W b (S.turnOf b p) := by
  cases p with
  | head m bs =>
      simp only [next] at h
      split at h <;> cases h
  | field f m bs =>
      simp only [next] at h
      split at h
      · split at h <;> cases h
      · split at h <;> cases h
  | loop f m bs =>
      simp only [next] at h
      split at h
      · cases h
      · split at h <;> cases h
  | success m consumed => simp [turnOf, Parse.result]
  | failure m => simp [turnOf, Parse.result]

/-- **The gotos are an optimisation.** The generated parser does what the loop does. -/
theorem mergePartialFromCodedStream_eq (hW : W.Lawful) (hS : S.WellFormed) (b : ℕ)
    (m : Message K W.Unknown) (bs : Octets) :
    S.mergePartialFromCodedStream W b m bs = S.mergeFields W b m bs := by
  have hrun : S.Entered b ((S.parser W b).run (.head m bs)).1 ∧
      S.finish W b (S.turnOf b ((S.parser W b).run (.head m bs)).1) = S.mergeFields W b m bs := by
    refine Machine.run_preserves (M := S.parser W b)
      (p := fun p ↦ S.Entered b p ∧ S.finish W b (S.turnOf b p) = S.mergeFields W b m bs)
      ?_ ⟨trivial, rfl⟩
    rintro p p' es h ⟨hp, heq⟩
    obtain ⟨q, hq, hp'⟩ := Option.map_eq_some_iff.mp h
    cases hp'
    obtain ⟨hentered, hfinish⟩ := finish_of_next hW hS hq hp
    exact ⟨hentered, hfinish.trans heq⟩
  have hhalt := Option.map_eq_none_iff.mp (Machine.next_run (M := S.parser W b) (.head m bs))
  rw [mergePartialFromCodedStream, result_of_halted hhalt, hrun.2]

/-- A class built for a runtime is the class built for the same runtime that sees nothing. -/
theorem toClass_plain (hW : W.Lawful) (hS : S.WellFormed) :
    S.toClass K W = S.toClass K W.plain := by
  have hmerge : S.mergePartialFromCodedStream (K := K) W =
      S.mergePartialFromCodedStream (K := K) W.plain := by
    funext b m bs
    rw [mergePartialFromCodedStream_eq hW hS]
    -- the loop does not look ahead
    exact (mergePartialFromCodedStream_eq hW.plain hS b m bs).symm
  unfold toClass
  rw [hmerge]
  rfl

end Kiteq.Lib.Schema

import Kiteq.Lib.MessageSlots

/-!
# The model of a generated class

What is read from the wire multiplies the content of the message it is read into, and neither
whether it can be read nor what it is depends on that message; what a message writes is read back
as its content.  Both are proved for one turn of the field loop and then for the loop; the parser
with its gotos is the loop.  `Schema.model` collects the laws: a well-formed table over fields that
have models is a class that has a model.
-/

namespace Kiteq.Lib.Schema

variable {F : Type} {S : Schema F} {K : F → FieldType} {W : WireFormat}
variable (S W) (M : ∀ f, (K f).Model (S.row f).repeated)

/-! ## Budgets -/

/-- What may be in a field within a recursion budget. -/
def within (b : ℕ) (f : F) : Submonoid (M f).Content :=
  match S.depth b f with
  | none => ⊥
  | some b' => (M f).Fits b'

/-- An unknown field that is skipped again once it was written. -/
structure Skippable (b : ℕ) (u : W.Unknown) : Prop where
  dispatch_eq : S.dispatch (W.tagOf u) = none
  tag_bounds : 0 < W.tagOf u ∧ W.tagOf u < 2 ^ 32
  not_endGroup : W.tagOf u % 8 ≠ 4
  skips : W.Skips b u

/-- The contents that can be read within a recursion budget. -/
def Fits (b : ℕ) : Submonoid (S.Content M W.Unknown) :=
  (Submonoid.pi Set.univ (S.within M b)).prod (everywhere (S.Skippable W b))

variable {S W M}

theorem mem_Fits {b : ℕ} {x : S.Content M W.Unknown} :
    x ∈ S.Fits W M b ↔
      (∀ f, x.1 f ∈ S.within M b f) ∧ ∀ u ∈ x.2.toList, S.Skippable W b u := by
  simp [Fits, Submonoid.mem_prod, Submonoid.mem_pi]

variable [DecidableEq F] {b : ℕ} {m m' : Message K W.Unknown} {bs : Octets}

variable (S M) in
/-- The content of a message that has one field. -/
def single (U : Type) (f : F) (c : (M f).Content) : S.Content M U := (Pi.mulSingle f c, 1)

theorem single_mem_Fits {f : F} {c : (M f).Content} (h : c ∈ S.within M b f) :
    S.single M W.Unknown f c ∈ S.Fits W M b := by
  refine mem_Fits.mpr ⟨fun g ↦ ?_, by simp [single]⟩
  by_cases hg : g = f
  · subst hg
    simpa [single] using h
  · simp [single, hg]

/-! ## One turn -/

/-- A value that was read multiplies the content of its field. -/
theorem content_store_read (hS : S.WellFormed) (hm : S.Inv M m) {f : F} {b' : ℕ}
    (h : ((K f).read b' (m.slot S f) bs).2.isSome = true) :
    S.content M (m.store S f ((K f).read b' (m.slot S f) bs).1) = S.content M m *
      S.single M W.Unknown f
        ((M f).content ((K f).read b' ⟨(S.row f).repeated, (K f).default⟩ bs).1.value) := by
  have hhas := (M f).has_read h
  rw [content_store hS]
  refine Prod.ext (funext fun g ↦ ?_) (by simp [single, content])
  by_cases hg : g = f
  · subst hg
    simp only [Function.update_self, single, Prod.fst_mul, Pi.mul_apply, Pi.mulSingle_eq_same]
    rw [meaning_eq (by simp [hhas])]
    exact (M g).content_read (hm g) h
  · simp [single, hg]

theorem inv_store_read (hS : S.WellFormed) (hm : S.Inv M m) (f : F) (b' : ℕ) :
    S.Inv M (m.store S f ((K f).read b' (m.slot S f) bs).1) := by
  refine inv_store hS hm ?_
  have hhas : ((S.row f).repeated || ((K f).read b' (m.slot S f) bs).1.has) =
      ((K f).read b' (m.slot S f) bs).1.has := by
    by_cases hr : (S.row f).repeated = true
    · rw [(M f).has_read_of_has b' bs (s := m.slot S f) (by
        simp [Message.slot, Message.present, hr]), Bool.or_true]
    · rw [Bool.eq_false_iff.mpr hr, Bool.false_or]
  rw [hhas]
  exact (M f).valid_read b' bs (hm f)

/-- What is true of a turn on every message. -/
structure TurnSpec (b : ℕ) (turn : Message K W.Unknown → Turn K W.Unknown) : Prop where
  rest_eq : ∀ m m', (turn m).rest = (turn m').rest
  inv : ∀ {m}, S.Inv M m → S.Inv M (turn m).message
  content_eq : ∀ {m}, S.Inv M m → (turn m).rest ≠ .done false →
    S.content M (turn m).message = S.content M m * S.content M (turn (new K W.Unknown)).message
  fits : (turn (new K W.Unknown)).rest ≠ .done false →
    S.content M (turn (new K W.Unknown)).message ∈ S.Fits W M b

theorem isSome_of_ofOption_ne {o : Option Octets} (h : Rest.ofOption o ≠ .done false) :
    o.isSome = true := by
  cases o with
  | none => exact absurd rfl h
  | some rest => rfl

theorem turnSpec_field (hS : S.WellFormed) (f : F) :
    TurnSpec (S := S) (M := M) b fun m : Message K W.Unknown ↦ S.fieldTurn b m f bs := by
  cases hd : S.depth b f with
  | none =>
      have heq (m : Message K W.Unknown) : S.fieldTurn b m f bs = ⟨m, .done false⟩ := by
        simp only [fieldTurn, hd]
      exact {
        rest_eq m m' := by rw [heq, heq]
        inv hm := by rwa [heq]
        content_eq _ h := absurd (by rw [heq]) h
        fits h := absurd (by rw [heq]) h }
  | some b' =>
      have heq (m : Message K W.Unknown) : S.fieldTurn b m f bs =
          ⟨m.store S f ((K f).read b' (m.slot S f) bs).1,
            .ofOption ((K f).read b' (m.slot S f) bs).2⟩ := fieldTurn_of_read hd rfl
      have hnew : S.Inv M (new K W.Unknown) := inv_new
      exact {
        rest_eq m m' := by
          rw [heq, heq, (M f).read_snd b' (m.slot S f) (m'.slot S f)]
        inv hm := by
          rw [heq]
          exact inv_store_read hS hm f b'
        content_eq {m} hm h := by
          rw [heq] at h
          have hsome := isSome_of_ofOption_ne h
          have hsome' : ((K f).read b' ((new K W.Unknown).slot S f) bs).2.isSome = true := by
            rwa [(M f).read_snd b' _ (m.slot S f)]
          simp only [heq, content_store_read hS hm hsome, content_store_read hS hnew hsome',
            content_new, one_mul]
        fits h := by
          rw [heq] at h
          have hsome := isSome_of_ofOption_ne h
          simp only [heq, content_store_read hS hnew hsome, content_new, one_mul]
          refine single_mem_Fits ?_
          rw [slot_new] at hsome
          simpa only [within, hd] using (M f).fits_read hsome }

omit [DecidableEq F] in
theorem content_append_unknown (us : List W.Unknown) :
    S.content M { m with unknown := m.unknown ++ us } = S.content M m * (1, .ofList us) := by
  refine Prod.ext ?_ rfl
  exact (mul_one _).symm

omit [DecidableEq F] in
theorem turnSpec_skip (hW : W.Lawful) (hd : S.dispatch (W.readTag bs).1 = none) :
    TurnSpec (S := S) (M := M) b fun m ↦ skipTurn W b m bs := by
  by_cases htag : (W.readTag bs).1 = 0 ∨ (W.readTag bs).1 % 8 = 4
  · have heq (m : Message K W.Unknown) : skipTurn W b m bs = ⟨m, .done bs.isEmpty⟩ := by
      rw [skipTurn, if_pos htag]
    exact {
      rest_eq m m' := by rw [heq, heq]
      inv hm := by rwa [heq]
      content_eq _ _ := by rw [heq, heq, content_new, mul_one]
      fits _ := by
        rw [heq, content_new]
        exact (S.Fits W M b).one_mem }
  · obtain ⟨us, o, hskip⟩ :
        ∃ us o, W.skipField b (W.readTag bs).1 (W.readTag bs).2 = (us, o) := ⟨_, _, rfl⟩
    have heq (m : Message K W.Unknown) :
        skipTurn W b m bs = ⟨{ m with unknown := m.unknown ++ us }, .ofOption o⟩ := by
      rw [skipTurn, if_neg htag, hskip]
    exact {
      rest_eq m m' := by rw [heq, heq]
      inv hm := by rwa [heq]
      content_eq _ _ := by
        simp only [heq, content_append_unknown, content_new, one_mul]
      fits h := by
        rw [heq] at h
        obtain ⟨rest, rfl⟩ := Option.isSome_iff_exists.mp (isSome_of_ofOption_ne h)
        rw [heq, content_append_unknown, content_new, one_mul]
        rw [not_or] at htag
        refine mem_Fits.mpr ⟨fun f ↦ (S.within M b f).one_mem, fun u hu ↦ ?_⟩
        have htagOf := hW.tagOf_skipField _ _ _ _ _ hskip u hu
        exact {
          dispatch_eq := by rw [htagOf, hd]
          tag_bounds := by
            rw [htagOf]
            exact ⟨Nat.pos_of_ne_zero htag.1, hW.readTag_lt bs⟩
          not_endGroup := by rw [htagOf]; exact htag.2
          skips := hW.skips_of_skipField _ _ _ _ _ hskip u hu } }

theorem turnSpec (hW : W.Lawful) (hS : S.WellFormed) (b : ℕ) (bs : Octets) :
    TurnSpec (S := S) (M := M) b fun m ↦ S.turn W b m bs := by
  cases hd : S.dispatch (W.readTag bs).1 with
  | none =>
      have heq : (fun m : Message K W.Unknown ↦ S.turn W b m bs) = fun m ↦ skipTurn W b m bs := by
        funext m
        simp only [turn, hd]
      rw [heq]
      exact turnSpec_skip hW hd
  | some f =>
      have heq : (fun m : Message K W.Unknown ↦ S.turn W b m bs) =
          fun m ↦ S.fieldTurn b m f (W.readTag bs).2 := by
        funext m
        simp only [turn, hd]
      rw [heq]
      exact turnSpec_field hS f

/-! ## The loop -/

theorem finish_eq_of_more {t : Turn K W.Unknown} {rest : Octets} (h : t.rest = .more rest) :
    S.finish W b t = S.mergeFields W b t.message rest := by
  obtain ⟨m, r⟩ := t
  cases h
  rfl

theorem finish_eq_of_done {t : Turn K W.Unknown} {ok : Bool} (h : t.rest = .done ok) :
    S.finish W b t = (t.message, ok) := by
  obtain ⟨m, r⟩ := t
  cases h
  exact S.finish_done

theorem length_lt_of_turn {rest : Octets} (h : (S.turn W b m bs).rest = .more rest) :
    rest.length < bs.length := by
  have hrank : (S.turn W b m bs).rest.rank < bs.length + 1 := S.rank_turn_lt W
  rw [h] at hrank
  exact Nat.lt_of_succ_lt_succ hrank

/-- What is true of a run on every message. -/
structure RunSpec (b : ℕ)
    (run : Message K W.Unknown → Message K W.Unknown × Bool) : Prop where
  snd_eq : ∀ m m', (run m).2 = (run m').2
  inv : ∀ {m}, S.Inv M m → S.Inv M (run m).1
  content_eq : ∀ {m}, S.Inv M m → (run m).2 = true →
    S.content M (run m).1 = S.content M m * S.content M (run (new K W.Unknown)).1
  fits : (run (new K W.Unknown)).2 = true → S.content M (run (new K W.Unknown)).1 ∈ S.Fits W M b

/-- A run of one turn. -/
theorem runSpec_of_done
    (hturn : TurnSpec (S := S) (M := M) b fun m : Message K W.Unknown ↦ S.turn W b m bs) {ok : Bool}
    (hrest : (S.turn W b (new K W.Unknown) bs).rest = .done ok) :
    RunSpec (S := S) (M := M) b fun m : Message K W.Unknown ↦ S.mergeFields W b m bs := by
  have heq (m : Message K W.Unknown) :
      S.mergeFields W b m bs = ((S.turn W b m bs).message, ok) := by
    rw [mergeFields_eq]
    exact finish_eq_of_done ((hturn.rest_eq m _).trans hrest)
  have hne (m : Message K W.Unknown) (h : ok = true) : (S.turn W b m bs).rest ≠ .done false := by
    rw [hturn.rest_eq m _, hrest, h]
    exact fun h ↦ by cases h
  exact {
    snd_eq m m' := by rw [heq, heq]
    inv hm := by
      rw [heq]
      exact hturn.inv hm
    content_eq {m} hm h := by
      rw [heq] at h
      rw [heq, heq]
      exact hturn.content_eq hm (hne m h)
    fits h := by
      rw [heq] at h
      rw [heq]
      exact hturn.fits (hne _ h) }

/-- A turn and the rest of the run, the contents of which multiply. -/
theorem runSpec_of_more
    (hturn : TurnSpec (S := S) (M := M) b fun m : Message K W.Unknown ↦ S.turn W b m bs)
    {rest : Octets} (hrest : (S.turn W b (new K W.Unknown) bs).rest = .more rest)
    (hrun : RunSpec (S := S) (M := M) b fun m : Message K W.Unknown ↦ S.mergeFields W b m rest) :
    RunSpec (S := S) (M := M) b fun m : Message K W.Unknown ↦ S.mergeFields W b m bs := by
  have hnew : S.Inv M (new K W.Unknown) := inv_new
  have hmore (m : Message K W.Unknown) : (S.turn W b m bs).rest = .more rest :=
    (hturn.rest_eq m _).trans hrest
  have heq (m : Message K W.Unknown) :
      S.mergeFields W b m bs = S.mergeFields W b (S.turn W b m bs).message rest := by
    rw [mergeFields_eq]
    exact finish_eq_of_more (hmore m)
  have hne (m : Message K W.Unknown) : (S.turn W b m bs).rest ≠ .done false := by
    rw [hmore m]
    exact fun h ↦ by cases h
  have hcontent {m : Message K W.Unknown} (hm : S.Inv M m)
      (h : (S.mergeFields W b m bs).2 = true) :
      S.content M (S.mergeFields W b m bs).1 = S.content M m *
        (S.content M (S.turn W b (new K W.Unknown) bs).message *
          S.content M (S.mergeFields W b (new K W.Unknown) rest).1) := by
    rw [heq] at h ⊢
    rw [hrun.content_eq (hturn.inv hm) h, hturn.content_eq hm (hne m), mul_assoc]
  exact {
    snd_eq m m' := by
      rw [heq, heq]
      exact hrun.snd_eq _ _
    inv hm := by
      rw [heq]
      exact hrun.inv (hturn.inv hm)
    content_eq {m} hm h := by
      have h' : (S.mergeFields W b (new K W.Unknown) bs).2 = true := by
        rw [heq] at h ⊢
        rwa [hrun.snd_eq _ (S.turn W b m bs).message]
      rw [hcontent hm h, hcontent hnew h', content_new, one_mul]
    fits h := by
      have h' : (S.mergeFields W b (new K W.Unknown) rest).2 = true := by
        rw [heq] at h
        rwa [hrun.snd_eq _ (S.turn W b (new K W.Unknown) bs).message]
      rw [hcontent hnew h, content_new, one_mul]
      exact (S.Fits W M b).mul_mem (hturn.fits (hne _)) (hrun.fits h') }

/-- By induction on the bytes that are left. -/
theorem runSpec_mergeFields (hW : W.Lawful) (hS : S.WellFormed) (b : ℕ) (bs : Octets) :
    RunSpec (S := S) (M := M) b fun m ↦ S.mergeFields W b m bs := by
  generalize hn : bs.length = n
  induction n using Nat.strong_induction_on generalizing bs with
  | _ n ih =>
      have hturn := turnSpec (S := S) (M := M) hW hS b bs
      cases hrest : (S.turn W b (new K W.Unknown) bs).rest with
      | done ok => exact runSpec_of_done hturn hrest
      | more rest =>
          have hlt : rest.length < n := hn ▸ length_lt_of_turn hrest
          exact runSpec_of_more hturn hrest (ih rest.length hlt rest rfl)

theorem runSpec (hW : W.Lawful) (hS : S.WellFormed) (b : ℕ) (bs : Octets) :
    RunSpec (S := S) (M := M) b fun m ↦ S.mergePartialFromCodedStream W b m bs := by
  simpa only [mergePartialFromCodedStream_eq hW hS] using
    runSpec_mergeFields (M := M) hW hS b bs

/-! ## Reading what was written -/

variable (S W M) in
/-- The loop takes `p` off the stream and multiplies the message by `c`. -/
def Absorbs (b : ℕ) (p : Octets) (c : S.Content M W.Unknown) : Prop :=
  ∀ m rest, S.Inv M m → ∃ m', S.Inv M m' ∧ S.content M m' = S.content M m * c ∧
    S.mergeFields W b m (p ++ rest) = S.mergeFields W b m' rest

namespace Absorbs

theorem nil : S.Absorbs W M b [] 1 :=
  fun m _ hm ↦ ⟨m, hm, (mul_one _).symm, rfl⟩

theorem append {p q : Octets} {c d : S.Content M W.Unknown} (hp : S.Absorbs W M b p c)
    (hq : S.Absorbs W M b q d) : S.Absorbs W M b (p ++ q) (c * d) := by
  intro m rest hm
  obtain ⟨m₁, hm₁, hc, hmerge⟩ := hp m (q ++ rest) hm
  obtain ⟨m₂, hm₂, hd, hmerge'⟩ := hq m₁ rest hm₁
  refine ⟨m₂, hm₂, ?_, ?_⟩
  · rw [hd, hc, mul_assoc]
  · rw [List.append_assoc, hmerge, hmerge']

theorem flatten {ps : List Octets} {cs : List (S.Content M W.Unknown)}
    (h : List.Forall₂ (S.Absorbs W M b) ps cs) : S.Absorbs W M b ps.flatten cs.prod := by
  induction h with
  | nil => exact nil
  | cons hp _ ih => exact hp.append ih

/-- A turn that yields more of the stream absorbs what it has taken off. -/
theorem of_turn (hW : W.Lawful) (hS : S.WellFormed) {p : Octets} {c : S.Content M W.Unknown}
    (h : ∀ rest, (S.turn W b (new K W.Unknown) (p ++ rest)).rest = .more rest ∧
      S.content M (S.turn W b (new K W.Unknown) (p ++ rest)).message = c) :
    S.Absorbs W M b p c := by
  intro m rest hm
  obtain ⟨hrest, hcontent⟩ := h rest
  have hturn := turnSpec (S := S) (M := M) hW hS b (p ++ rest)
  have hmore : (S.turn W b m (p ++ rest)).rest = .more rest :=
    (hturn.rest_eq m _).trans hrest
  refine ⟨_, hturn.inv hm, ?_, ?_⟩
  · rw [hturn.content_eq hm (by rw [hmore]; exact fun h ↦ by cases h), hcontent]
  · rw [mergeFields_eq, finish_eq_of_more hmore]

/-- A payload behind its tag. -/
theorem writeField (hW : W.Lawful) (hS : S.WellFormed) {f : F} {b' : ℕ}
    (hd : S.depth b f = some b') {p : Octets} {c : (M f).Content}
    (h : ∀ rest, ((K f).read b' ⟨(S.row f).repeated, (K f).default⟩ (p ++ rest)).2 = some rest ∧
      (M f).content ((K f).read b' ⟨(S.row f).repeated, (K f).default⟩ (p ++ rest)).1.value = c) :
    S.Absorbs W M b (S.writeField W f p) (S.single M W.Unknown f c) := by
  obtain ⟨hpos, hle⟩ := hS.tag_bounds f
  refine of_turn hW hS fun rest ↦ ?_
  have hnew : S.Inv M (new K W.Unknown) := inv_new
  obtain ⟨hread, hcontent⟩ := h rest
  have hturn : S.turn W b (new K W.Unknown) (S.writeField W f p ++ rest) =
      S.fieldTurn b (new K W.Unknown) f (p ++ rest) := by
    rw [turn, Schema.writeField, List.append_assoc, hW.readTag_writeTag _ _ hpos (by omega)]
    simp only [hS.dispatch_tag f]
  have hsome : ((K f).read b' ((new K W.Unknown).slot S f) (p ++ rest)).2.isSome = true := by
    rw [slot_new, hread]
    rfl
  rw [hturn, fieldTurn_of_read hd rfl, content_store_read hS hnew hsome]
  refine ⟨?_, ?_⟩
  · rw [slot_new, hread]
    rfl
  · rw [content_new, one_mul, hcontent]

/-- An unknown field. -/
theorem writeUnknown (hW : W.Lawful) (hS : S.WellFormed) {u : W.Unknown}
    (h : S.Skippable W b u) : S.Absorbs W M b (W.writeField u) (1, .of u) := by
  refine of_turn hW hS fun rest ↦ ?_
  have hskip : W.skipField b (W.tagOf u) (W.writeUnknown u ++ rest) = ([u], some rest) :=
    h.skips rest
  have hnot : ¬(W.tagOf u = 0 ∨ W.tagOf u % 8 = 4) :=
    not_or.mpr ⟨Nat.pos_iff_ne_zero.mp h.tag_bounds.1, h.not_endGroup⟩
  have hturn : S.turn W b (new K W.Unknown) (W.writeField u ++ rest) =
      ⟨{ new K W.Unknown with unknown := (new K W.Unknown).unknown ++ [u] }, .more rest⟩ := by
    rw [turn, WireFormat.writeField, List.append_assoc,
      hW.readTag_writeTag _ _ h.tag_bounds.1 h.tag_bounds.2]
    simp only [h.dispatch_eq, skipTurn]
    rw [hW.readTag_writeTag _ _ h.tag_bounds.1 h.tag_bounds.2, if_neg hnot, hskip]
    rfl
  rw [hturn]
  refine ⟨rfl, ?_⟩
  rw [content_append_unknown, content_new, one_mul]
  rfl

end Absorbs

@[simp] theorem single_one {U : Type} (f : F) : S.single M U f 1 = 1 :=
  Prod.ext (Pi.mulSingle_one f) rfl

theorem prod_map_single {U : Type} (f : F) (cs : List (M f).Content) :
    (cs.map (S.single M U f)).prod = S.single M U f cs.prod := by
  induction cs with
  | nil => simp
  | cons c cs ih => simp [ih, single, Pi.mulSingle_mul]

/-- The product of single fields, each once, is the message. -/
theorem prod_map_single_fields {U : Type} (x : ∀ f, (M f).Content) {l : List F} (hl : l.Nodup) :
    (l.map fun f ↦ S.single M U f (x f)).prod = (fun f ↦ if f ∈ l then x f else 1, 1) := by
  induction l with
  | nil => exact Prod.ext (funext fun g ↦ by simp) rfl
  | cons f l ih =>
      obtain ⟨hf, hl⟩ := List.nodup_cons.mp hl
      rw [List.map_cons, List.prod_cons, ih hl]
      refine Prod.ext (funext fun g ↦ ?_) (mul_one _)
      by_cases hg : g = f
      · subst hg
        simp [single, hf]
      · simp [single, hg]

/-- What is written of a field is absorbed as the content of the field. -/
theorem absorbs_payloads (hW : W.Lawful) (hS : S.WellFormed) (hm : S.Inv M m)
    (hfits : S.content M m ∈ S.Fits W M b) (f : F)
    (hlen : m.present S f = true → ∀ p ∈ (K f).payloads (m.value f), p.length < 2 ^ 31) :
    S.Absorbs W M b
      (if m.present S f then ((K f).payloads (m.value f)).flatMap (S.writeField W f) else [])
      (S.single M W.Unknown f ((m.slot S f).meaning (M f).content)) := by
  cases hp : m.present S f with
  | false =>
      have hone : S.single M W.Unknown f ((m.slot S f).meaning (M f).content) = 1 := by
        rw [meaning_eq_one (s := m.slot S f) hp, single_one]
      rw [hone, if_neg Bool.false_ne_true]
      exact .nil
  | true =>
      have hvalid := hm.valid_value hp
      have hwithin : (M f).content (m.value f) ∈ S.within M b f := by
        have hmem : (m.slot S f).meaning (M f).content ∈ S.within M b f := (mem_Fits.mp hfits).1 f
        rwa [meaning_eq (s := m.slot S f) hp] at hmem
      rw [if_pos rfl, meaning_eq (s := m.slot S f) hp, List.flatMap]
      simp only [within] at hwithin
      split at hwithin
      · next hd =>
          -- without a budget there is nothing in the field
          have hone : (M f).content (m.value f) = 1 := Submonoid.mem_bot.mp hwithin
          have hval : (m.slot S f).value = m.value f := rfl
          rw [hval, hone, single_one]
          by_cases hr : (S.row f).repeated = true
          · rw [(M f).payloads_eq_nil hr hvalid hone]
            exact .nil
          · exact absurd hone ((M f).content_ne_one (Bool.eq_false_iff.mpr hr) _)
      · next b' hd =>
          obtain ⟨cs, hcs, hprod⟩ := (M f).read_payloads hvalid hwithin (hlen hp)
          have hval : (m.slot S f).value = m.value f := rfl
          rw [hval, ← hprod, ← prod_map_single]
          refine .flatten ?_
          rw [List.forall₂_map_left_iff, List.forall₂_map_right_iff]
          exact hcs.imp fun p c h ↦ .writeField hW hS hd h

/-- What a message writes is absorbed as its content. -/
theorem absorbs_serialize (hW : W.Lawful) (hS : S.WellFormed) (hm : S.Inv M m)
    (hfits : S.content M m ∈ S.Fits W M b)
    (hlen : ∀ f, m.present S f = true → ∀ p ∈ (K f).payloads (m.value f), p.length < 2 ^ 31) :
    S.Absorbs W M b (S.serializeWithCachedSizes W m) (S.content M m) := by
  have hfields : S.Absorbs W M b (S.fields.flatMap fun f ↦ if m.present S f then
      ((K f).payloads (m.value f)).flatMap (S.writeField W f) else [])
      ((S.content M m).1, 1) := by
    have hprod := prod_map_single_fields (S := S) (U := W.Unknown) (S.content M m).1 hS.nodup
    simp only [hS.mem_fields, if_true] at hprod
    rw [← hprod, List.flatMap]
    refine .flatten ?_
    rw [List.forall₂_map_left_iff, List.forall₂_map_right_iff, List.forall₂_same]
    exact fun f _ ↦ absorbs_payloads hW hS hm hfits f (hlen f)
  have hunknown : S.Absorbs W M b (m.unknown.flatMap W.writeField) (1, (S.content M m).2) := by
    have hprod : (m.unknown.map fun u ↦ ((1, .of u) : S.Content M W.Unknown)).prod =
        (1, (S.content M m).2) := by
      have hmap := map_list_prod (MonoidHom.inr (∀ f, (M f).Content) (FreeMonoid W.Unknown))
        (m.unknown.map fun u ↦ .of (id u))
      rw [prod_map_of, List.map_map, List.map_id] at hmap
      exact hmap.symm
    rw [← hprod, List.flatMap]
    refine .flatten ?_
    rw [List.forall₂_map_left_iff, List.forall₂_map_right_iff, List.forall₂_same]
    exact fun u hu ↦ .writeUnknown hW hS ((mem_Fits.mp hfits).2 u hu)
  have happend := hfields.append hunknown
  rwa [Prod.mk_mul_mk, mul_one, one_mul] at happend

/-! ## Sizes -/

omit [DecidableEq F] in
theorem length_le_flatMap {α β : Type} {l : List α} {g : α → List β} {x : α} (h : x ∈ l) :
    (g x).length ≤ (l.flatMap g).length := by
  obtain ⟨xs, ys, rfl⟩ := List.append_of_mem h
  simp only [List.flatMap_append, List.flatMap_cons, List.length_append]
  omega

omit [DecidableEq F] in
theorem length_payload_le (hS : S.WellFormed) {f : F} (hp : m.present S f = true) {p : Octets}
    (h : p ∈ (K f).payloads (m.value f)) :
    p.length ≤ (S.serializeWithCachedSizes W m).length := by
  have hfield := length_le_flatMap (g := S.writeField W f) h
  have hfields := length_le_flatMap (g := fun f ↦ if m.present S f then
    ((K f).payloads (m.value f)).flatMap (S.writeField W f) else []) (hS.mem_fields f)
  simp only [hp, if_true] at hfields
  rw [serializeWithCachedSizes, List.length_append]
  simp only [writeField, List.length_append] at hfield hfields
  omega

omit [DecidableEq F] in
/-- A consistent field takes as much as its type says. -/
theorem length_writeField (hW : W.Lawful) (hS : S.WellFormed) (hm : S.Inv M m) {f : F}
    (hp : m.present S f = true) :
    BitVec.ofNat 32 (((K f).payloads (m.value f)).flatMap (S.writeField W f)).length =
      (K f).size (m.value f) := by
  have htag : (W.writeTag (S.row f).tag).length = 1 :=
    hW.length_writeTag _ (Nat.lt_succ_of_le (hS.tag_bounds f).2)
  rw [(M f).size_eq (hm.valid_value hp), List.length_flatMap]
  simp only [writeField, List.length_append, htag]

omit [DecidableEq F] in
theorem sum_map_filter {l : List F} (p : F → Prop) [DecidablePred p] (g : F → BitVec 32) :
    ((l.filter p).map g).sum + ((l.filter fun f ↦ ¬p f).map g).sum = (l.map g).sum := by
  induction l with
  | nil => rfl
  | cons f l ih =>
      by_cases hf : p f
      · simp [hf, ← ih, add_assoc]
      · simp [hf, ← ih, add_left_comm]

omit [DecidableEq F] in
theorem not_repeated_of_required {f : F} (h : (S.row f).label = .required) :
    (S.row f).repeated = false := by
  rw [Row.repeated, h]
  rfl

omit [DecidableEq F] in
/-- The mask of the required fields stands for the required fields. -/
theorem and_requiredMask_iff (hS : S.WellFormed) :
    m.hasBits &&& S.requiredMask = S.requiredMask ↔
      ∀ f, (S.row f).label = .required → m.has S f = true := by
  rw [hS.requiredMask_eq, and_foldr_eq_iff]
  constructor
  · intro h f hf
    have hmask := h (S.row f).mask (List.mem_map.mpr ⟨f, by simp [hS.mem_fields, hf], rfl⟩)
    refine bne_iff_ne.mpr ?_
    rw [hmask]
    exact hS.mask_ne_zero (not_repeated_of_required hf)
  · intro h k hk
    obtain ⟨f, hf, rfl⟩ := List.mem_map.mp hk
    have hreq : (S.row f).label = .required := by simpa using (List.mem_filter.mp hf).2
    obtain ⟨i, hi⟩ := hS.mask_eq f (not_repeated_of_required hreq)
    exact and_eq_of_twoPow hi (bne_iff_ne.mp (h f hreq))

omit [DecidableEq F] in
/-- **`ByteSize`** is the length of what is written, as an `int`, on the fast path and on the other
one. -/
theorem byteSize_eq (hW : W.Lawful) (hS : S.WellFormed) (hm : S.Inv M m) :
    S.byteSize W m = BitVec.ofNat 32 (S.serializeWithCachedSizes W m).length := by
  have hfields : BitVec.ofNat 32 (S.fields.flatMap fun f ↦ if m.present S f then
      ((K f).payloads (m.value f)).flatMap (S.writeField W f) else []).length =
      (S.fields.map fun f ↦ if m.present S f then (K f).size (m.value f) else 0).sum := by
    rw [List.length_flatMap, ofNat_sum]
    congr 1
    refine List.map_congr_left fun f _ ↦ ?_
    split
    · next hp => exact length_writeField hW hS hm hp
    · rfl
  have hunknown : BitVec.ofNat 32 (m.unknown.flatMap W.writeField).length =
      (m.unknown.map W.unknownSize).sum := by
    rw [List.length_flatMap, ofNat_sum]
    congr 1
    exact List.map_congr_left fun u _ ↦ (hW.unknownSize_eq u).symm
  have hpresent {f : F} (hf : f ∈ S.fields.filter fun f ↦ (S.row f).label = .required) :
      (if m.has S f then (K f).size (m.value f) else 0) =
        if m.present S f then (K f).size (m.value f) else 0 := by
    have hreq : (S.row f).label = .required := by simpa using (List.mem_filter.mp hf).2
    simp [Message.present, not_repeated_of_required hreq]
  have hrequired : (if S.sizeMask.any fun k ↦ (m.hasBits &&& k) ^^^ k == 0 then
        ((S.fields.filter fun f ↦ (S.row f).label = .required).map fun f ↦
          (K f).size (m.value f)).sum
      else S.requiredFieldsByteSizeFallback m) =
      ((S.fields.filter fun f ↦ (S.row f).label = .required).map fun f ↦
        if m.present S f then (K f).size (m.value f) else 0).sum := by
    rw [requiredFieldsByteSizeFallback, List.map_congr_left fun f ↦ hpresent]
    split
    · next hfast =>
        -- on the fast path all required fields are there
        obtain ⟨k, hk, hbits⟩ := (Option.any_eq_true _ _).mp hfast
        rw [beq_iff_eq, BitVec.ofNat_eq_ofNat, BitVec.xor_eq_zero_iff,
          hS.sizeMask_eq k hk] at hbits
        congr 1
        refine List.map_congr_left fun f hf ↦ ?_
        have hreq : (S.row f).label = .required := by simpa using (List.mem_filter.mp hf).2
        rw [if_pos]
        simp [Message.present, (and_requiredMask_iff hS).mp hbits f hreq]
    · rfl
  rw [byteSize, hrequired, sum_map_filter, serializeWithCachedSizes, List.length_append,
    BitVec.ofNat_add, hfields, hunknown]

/-! ## The model -/

omit [DecidableEq F] in
theorem serialize_congr (hm : S.Inv M m) (hm' : S.Inv M m')
    (h : S.content M m = S.content M m') :
    S.serializeWithCachedSizes W m = S.serializeWithCachedSizes W m' := by
  have hunknown : m.unknown = m'.unknown := congrArg FreeMonoid.toList (congrArg Prod.snd h)
  rw [serializeWithCachedSizes, serializeWithCachedSizes, hunknown]
  congr 2
  funext f
  obtain ⟨hpresent, hcontent⟩ := present_congr h f
  cases hp : m.present S f with
  | false =>
      rw [← hpresent, hp]
      rfl
  | true =>
      have hp' : m'.present S f = true := hpresent ▸ hp
      rw [hp', (M f).payloads_congr (hm.valid_value hp) (hm'.valid_value hp') (hcontent hp)]

omit [DecidableEq F] in
theorem isInitialized_iff (hS : S.WellFormed) :
    S.isInitialized m = true ↔ (∀ f, (S.row f).label = .required → m.present S f = true) ∧
      ∀ f, m.present S f = true → (K f).isInitialized (m.value f) = true := by
  rw [isInitialized, Bool.and_eq_true, beq_iff_eq, and_requiredMask_iff hS, List.all_eq_true]
  refine and_congr (forall_congr' fun f ↦ imp_congr_right fun hf ↦ ?_) ?_
  · simp [Message.present, not_repeated_of_required hf]
  · refine forall_congr' fun f ↦ ?_
    simp only [hS.mem_fields, true_imp_iff, Bool.or_eq_true, Bool.not_eq_true']
    rw [← Bool.not_eq_true, ← imp_iff_not_or]

omit [DecidableEq F] in
theorem isInitialized_congr (hS : S.WellFormed) (hm : S.Inv M m) (hm' : S.Inv M m')
    (h : S.content M m = S.content M m') : S.isInitialized m = S.isInitialized m' := by
  rw [Bool.eq_iff_iff, isInitialized_iff hS, isInitialized_iff hS]
  refine and_congr (forall_congr' fun f ↦ ?_) (forall_congr' fun f ↦ ?_)
  · rw [(present_congr h f).1]
  · obtain ⟨hpresent, hcontent⟩ := present_congr h f
    rw [← hpresent]
    refine imp_congr_right fun hp ↦ ?_
    rw [(M f).isInitialized_congr (hm.valid_value hp) (hm'.valid_value (hpresent ▸ hp))
      (hcontent hp)]

/-- What a message has written is read first, whatever comes behind it. -/
theorem mergePartial_serialize_append (hW : W.Lawful) (hS : S.WellFormed) (bs : Octets)
    (hm : S.Inv M m) (hm' : S.Inv M m') (hfits : S.content M m' ∈ S.Fits W M b)
    (hlen : (S.serializeWithCachedSizes W m').length < 2 ^ 31) :
    ∃ m₁, S.Inv M m₁ ∧ S.content M m₁ = S.content M m * S.content M m' ∧
      S.mergePartialFromCodedStream W b m (S.serializeWithCachedSizes W m' ++ bs) =
        S.mergePartialFromCodedStream W b m₁ bs := by
  have hlen' f (hp : m'.present S f = true) p (h : p ∈ (K f).payloads (m'.value f)) :
      p.length < 2 ^ 31 := Nat.lt_of_le_of_lt (length_payload_le (W := W) hS hp h) hlen
  obtain ⟨m₁, hm₁, hcontent, hmerge⟩ := absorbs_serialize hW hS hm' hfits hlen' m bs hm
  refine ⟨m₁, hm₁, hcontent, ?_⟩
  rw [mergePartialFromCodedStream_eq hW hS, mergePartialFromCodedStream_eq hW hS, hmerge]

theorem mergePartialFromCodedStream_nil (hW : W.Lawful) (hS : S.WellFormed) :
    S.mergePartialFromCodedStream W b m [] = (m, true) := by
  rw [mergePartialFromCodedStream_eq hW hS, mergeFields_eq, turn_nil hW, finish_done]

variable (M) in
/-- **A generated class means what its table says.** -/
def model (hW : W.Lawful) (hS : S.WellFormed) : (S.toClass K W).Model where
  Content := S.Content M W.Unknown
  content := S.content M
  Inv := S.Inv M
  Fits := S.Fits W M
  inv_new := inv_new
  content_new := content_new
  inv_mergePartial b bs hm := (runSpec hW hS b bs).inv hm
  mergePartial_snd b m m' bs := (runSpec (M := M) hW hS b bs).snd_eq m m'
  content_mergePartial {b _ bs} hm h := (runSpec hW hS b bs).content_eq hm h
  fits_mergePartial {b bs} h := (runSpec hW hS b bs).fits h
  mergePartial_nil _ _ := mergePartialFromCodedStream_nil hW hS
  mergePartial_append bs hm hm' hfits hlen := by
    obtain ⟨m₁, hm₁, hcontent, hmerge⟩ :=
      mergePartial_serialize_append hW hS bs hm hm' hfits hlen
    have hrun := runSpec (M := M) hW hS
    simp only [toClass, hmerge]
    refine ⟨(hrun _ bs).snd_eq _ _, fun h ↦ ?_⟩
    rw [(hrun _ bs).content_eq hm₁ (((hrun _ bs).snd_eq _ _).trans h), hcontent]
  serialize_congr := serialize_congr
  byteSize_eq := byteSize_eq hW hS
  inv_mergeFrom := inv_mergeFrom hS
  content_mergeFrom := content_mergeFrom hS
  inv_clear := inv_clear hS
  content_clear := content_clear hS
  isInitialized_congr := isInitialized_congr hS

end Kiteq.Lib.Schema

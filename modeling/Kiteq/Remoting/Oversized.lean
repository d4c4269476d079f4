import Kiteq.Remoting.Neighbours

/-!
# Oversized frames

The branch of `async_read_pkgdata` for a frame that is too long stands between `commit` and
`consume` and calls the handler without an error.  The packet of the last accepted frame is
dispatched again, and the bytes stay in `read_buffer_`, in front of everything that follows:
from then on each frame is parsed from bytes that arrived earlier.

That an oversized frame is never contained is shown for any history of the session.  The later
frames that tell the difference have the length of a header each; the bytes they push out of
the buffer are the peer's to choose on one side, and fixed by the oversized frame on the other.
-/

namespace Kiteq

open Lib

/-- What the handler dispatches. -/
def dispatched (es : List Event) : List Delivery :=
  (handled es).filterMap fun pkg ↦ pkg.bind KitePacket.dispatch

/-- What is made of frames: the results of `parseFrom`, and the calls of the handler. -/
inductive Outcome where
  | parsed (ok : Bool)
  | handled (pkg : Option KitePacket)

def outcomes (es : List Event) : List Outcome := es.filterMap fun
  | .parse _ _ _ ok => some (.parsed ok)
  | .deliver pkg => some (.handled (some pkg))
  | .failed => some (.handled none)
  | _ => none

/-- The results of `parseFrom` alone. -/
def results (os : List Outcome) : List Bool := os.filterMap fun
  | .parsed ok => some ok
  | .handled _ => none

@[simp] theorem outcomes_append (es fs : List Event) :
    outcomes (es ++ fs) = outcomes es ++ outcomes fs := List.filterMap_append

@[simp] theorem results_append (os ps : List Outcome) :
    results (os ++ ps) = results os ++ results ps := List.filterMap_append

/-- The read loop on a new connection. -/
def fed (E : Platform) (P : Protobuf) (pkg : KitePacket) (bs : List CChar) :
    Reader × List Event :=
  (readLoop E P).run ⟨Session.start pkg, bs, false⟩

/-- The frame behind `before` is contained: it has nothing dispatched, and either it ends the
loop with an error for the handler, or what follows comes out as it would without the frame. -/
def Contained (E : Platform) (P : Protobuf) (pkg : KitePacket) (before frame : List CChar) :
    Prop :=
  dispatched (fed E P pkg (before ++ frame)).2 = dispatched (fed E P pkg before).2 ∧
    ((fed E P pkg (before ++ frame)).1.session.pending = none ∧
        .failed ∈ (fed E P pkg (before ++ frame)).2 ∨
      ∀ later, ∃ os,
        outcomes (fed E P pkg (before ++ frame ++ later)).2 =
          outcomes (fed E P pkg (before ++ frame)).2 ++ os ∧
        outcomes (fed E P pkg (before ++ later)).2 = outcomes (fed E P pkg before).2 ++ os)

section

variable {E : Platform} {P : Protobuf} {pkg : KitePacket} {s : Session}

/-- A stream that left the session at a frame boundary is continued from there. -/
theorem fed_append {bs : List CChar} (h : (fed E P pkg bs).1 = ⟨s, [], false⟩)
    (more : List CChar) :
    fed E P pkg (bs ++ more) =
      (((readLoop E P).run ⟨s, more, false⟩).1,
        (fed E P pkg bs).2 ++ ((readLoop E P).run ⟨s, more, false⟩).2) := by
  have harrive := run_arrive (E := E) (P := P) (Session.start pkg) bs more
  simp only [fed] at h ⊢
  rw [h] at harrive
  exact harrive

/-- A frame behind such a stream, and the session it leaves. -/
theorem fed_frame {bs : List CChar} (h : (fed E P pkg bs).1 = ⟨s, [], false⟩)
    (hp : s.pending = some .pkglen) (f : RawFrame) :
    fed E P pkg (bs ++ f.bytes) =
      (⟨(s.readFrame E P f).1, [], false⟩,
        (fed E P pkg bs).2 ++ (s.readFrame E P f).2) := by
  have hrun : (readLoop E P).run ⟨s, f.bytes ++ [], false⟩ = _ := run_frame hp f
  rw [run_nil (Session.pending_readFrame s f), List.append_nil, List.append_nil] at hrun
  rw [fed_append h, hrun]

/-! ## Frames of the header's length -/

/-- A frame of nineteen bytes. -/
def shortFrame (y : ℕ → CChar) (i : ℕ) : RawFrame :=
  .short ((List.range 19).map fun j ↦ y (19 * i + j))
    ((List.length_map _).trans List.length_range)

@[simp] theorem length_body_shortFrame (y : ℕ → CChar) (i : ℕ) :
    (shortFrame y i).body.length = 19 := (List.length_map _).trans List.length_range

/-- The content of the frames of nineteen bytes. -/
def content (y : ℕ → CChar) (n : ℕ) : List CChar :=
  (List.range n).flatMap fun i ↦ (shortFrame y i).body

theorem content_eq (y : ℕ → CChar) (n : ℕ) : content y n = (List.range (19 * n)).map y := by
  induction n with
  | zero => rfl
  | succ n ih =>
      have hsplit : content y (n + 1) = content y n ++ (shortFrame y n).body := by
        simp [content, List.range_succ]
      rw [hsplit, ih, Nat.mul_succ, List.range_add, List.map_append, List.map_map]
      rfl

/-- Whether `parseFrom` accepts the first nineteen bytes as a frame. -/
def frontAccepted (E : Platform) (bs : List CChar) : Bool :=
  (KitePacket.accepted (E.memory (bs.take 19)) 19).isSome

/-- Acceptance is decided by the header. -/
theorem accepted_congr {p q : Mem} (h : ∀ i < 19, p i = q i) (len : CInt) :
    KitePacket.accepted p len = KitePacket.accepted q len := by
  have hslice : p.slice 15 4 = q.slice 15 4 := by
    refine List.map_congr_left fun i hi ↦ h _ ?_
    have := List.mem_range.mp hi
    omega
  have hbody : KitePacket.bodyLength p = KitePacket.bodyLength q := by
    simp only [KitePacket.bodyLength, hslice]
  rw [KitePacket.accepted, KitePacket.accepted, hbody, h 4 (by omega)]

theorem frontAccepted_eq (bs : List CChar) :
    frontAccepted E bs = (KitePacket.accepted (E.memory bs) 19).isSome := by
  have hmem : ∀ i < 19, E.memory (bs.take 19) i = E.memory bs i := by
    intro i hi
    simp [Platform.memory, List.getD_eq_getElem?_getD, hi]
  rw [frontAccepted, accepted_congr hmem]

theorem fst_parsed {buf : Mem} {len : CInt} :
    (KitePacket.parsed E P pkg buf len).1 = (KitePacket.accepted buf len).isSome := by
  cases h : KitePacket.accepted buf len with
  | none => simp only [KitePacket.parsed_of_rejected h, Option.isSome_none]
  | some k => simp only [KitePacket.parsed_of_accepted h, Option.isSome_some]

/-- A frame of nineteen bytes pushes the nineteen bytes in front out of the buffer, and they are
what is parsed. -/
theorem readFrame_shortFrame (y : ℕ → CChar) (i : ℕ) :
    (s.readFrame E P (shortFrame y i)).1.readBuffer =
        (s.readBuffer ++ (shortFrame y i).body).drop 19 ∧
      results (outcomes (s.readFrame E P (shortFrame y i)).2) =
        [frontAccepted E (s.readBuffer ++ (shortFrame y i).body)] := by
  have hlen : (shortFrame y i).body.length = 19 := length_body_shortFrame y i
  have hread := Session.readFrame_of_lt (E := E) (P := P) (s := s) (f := shortFrame y i)
    (by rw [hlen]; decide) rfl rfl
  have hhead : lengthOf (shortFrame y i).head = 19 := by
    rw [show (shortFrame y i).head = [0, 0, 0, 19] from rfl]; decide
  have hfront : (KitePacket.parsed E P s.readPkg
      (E.memory (s.readBuffer ++ (shortFrame y i).body)) (lengthOf (shortFrame y i).head)).1 =
      frontAccepted E (s.readBuffer ++ (shortFrame y i).body) := by
    rw [fst_parsed, frontAccepted_eq, hhead]
  refine ⟨by rw [hread, hlen], ?_⟩
  rw [hread, hfront]
  cases frontAccepted E (s.readBuffer ++ (shortFrame y i).body) <;> simp [outcomes, results]

/-- A run over frames of nineteen bytes parses the buffer and what arrives in windows of
nineteen. -/
theorem results_run_shortFrames (y : ℕ → CChar) (hp : s.pending = some .pkglen) (n k : ℕ) :
    results (outcomes ((readLoop E P).run ⟨s,
        (List.range' k n).flatMap fun i ↦ (shortFrame y i).bytes, false⟩).2) =
      (List.range n).map fun i ↦ frontAccepted E
        ((s.readBuffer ++ (List.range' k n).flatMap fun i ↦ (shortFrame y i).body).drop
          (19 * i)) := by
  induction n generalizing s k with
  | zero => rw [List.range'_zero, List.flatMap_nil, run_nil hp]; rfl
  | succ n ih =>
      obtain ⟨hbuf, hres⟩ := readFrame_shortFrame (E := E) (P := P) (s := s) y k
      have hlen : (shortFrame y k).body.length = 19 := length_body_shortFrame y k
      set rest := (List.range' (k + 1) n).flatMap fun i ↦ (shortFrame y i).body with hrest
      have hfirst : frontAccepted E (s.readBuffer ++ (shortFrame y k).body) =
          frontAccepted E (s.readBuffer ++ ((shortFrame y k).body ++ rest)) := by
        have hle : 19 ≤ (s.readBuffer ++ (shortFrame y k).body).length := by simp [hlen]
        rw [frontAccepted, frontAccepted, ← List.append_assoc, List.take_append_of_le_length hle]
      have hdrop : (s.readBuffer ++ (shortFrame y k).body).drop 19 ++ rest =
          (s.readBuffer ++ ((shortFrame y k).body ++ rest)).drop 19 := by
        rw [← List.append_assoc s.readBuffer]
        exact (List.drop_append_of_le_length (by rw [List.length_append, hlen]; omega)).symm
      rw [List.range'_succ, List.flatMap_cons, run_frame hp, outcomes_append, results_append,
        hres, ih (Session.pending_readFrame s _), hbuf, List.range_succ_eq_map, List.map_cons,
        List.map_map, List.singleton_append, List.flatMap_cons, ← hrest, hdrop, hfirst]
      refine congrArg₂ List.cons rfl (List.map_congr_left fun i _ ↦ ?_)
      rw [List.drop_drop, Function.comp_apply, show 19 + 19 * i = 19 * i.succ by omega]

/-! ## The two continuations -/

/-- The result for the last of the frames. -/
theorem getElem_results (y : ℕ → CChar) (hp : s.pending = some .pkglen) (k : ℕ) :
    (results (outcomes ((readLoop E P).run ⟨s,
        (List.range' 0 (k + 1)).flatMap fun i ↦ (shortFrame y i).bytes, false⟩).2))[k]? =
      some (frontAccepted E ((s.readBuffer ++ content y (k + 1)).drop (19 * k))) := by
  rw [results_run_shortFrames y hp, ← List.range_eq_range']
  simp [content]

/-- Behind what the buffer held, the window of the last frame is the peer's to choose. -/
theorem take_drop_content {buf : List CChar} {k d : ℕ} (h : 19 * k = buf.length + d)
    (y : ℕ → CChar) :
    ((buf ++ content y (k + 1)).drop (19 * k)).take 19 =
      (List.range 19).map fun j ↦ y (d + j) := by
  rw [h, List.drop_length_add_append, content_eq]
  apply List.ext_getElem
  · simp; omega
  · intro j _ _
    simp

/-- In front of an oversized body, the window is part of that body. -/
theorem take_drop_body {buf body more : List CChar} {k d : ℕ} (h : 19 * k = buf.length + d)
    (hbody : d + 19 ≤ body.length) :
    ((buf ++ body ++ more).drop (19 * k)).take 19 = (body.drop d).take 19 := by
  rw [h, List.append_assoc, List.drop_length_add_append, List.drop_append_of_le_length (by omega),
    List.take_append_of_le_length (by rw [List.length_drop]; omega)]

/-- The platform does not matter to a window of nineteen bytes. -/
theorem frontAccepted_of_take {bs cs : List CChar} (h : bs.take 19 = cs) (hcs : cs.length = 19) :
    frontAccepted E bs = (KitePacket.accepted (Platform.gcc.memory cs) 19).isSome := by
  rw [frontAccepted, h]
  refine congrArg Option.isSome (accepted_congr (fun i hi ↦ ?_) 19)
  rw [E.memory_of_lt (hcs ▸ hi), Platform.memory_of_lt _ (hcs ▸ hi)]

/-- **Oversized frames.** Whatever was processed before, an oversized frame is not contained. -/
theorem not_contained {before : List CChar} (hbefore : (fed E P pkg before).1 = ⟨s, [], false⟩)
    (hp : s.pending = some .pkglen) {f : RawFrame}
    (hf : KitePacket.getMaxFrameLength.toInt ≤ f.body.length) :
    ¬Contained E P pkg before f.bytes := by
  have hframe := fed_frame hbefore hp f
  have hpending := Session.pending_readFrame (E := E) (P := P) s f
  rintro ⟨-, ⟨hend, -⟩ | hsame⟩
  · rw [hframe, hpending] at hend
    cases hend
  -- the number of frames that push everything out of the buffer, and what is left over
  obtain ⟨k, d, hk, hd⟩ : ∃ k d, 19 * k = s.readBuffer.length + d ∧ d < 19 :=
    ⟨(s.readBuffer.length + 18) / 19, 19 * ((s.readBuffer.length + 18) / 19) -
      s.readBuffer.length, by omega, by omega⟩
  have hbody : d + 19 ≤ f.body.length := by
    have : (32768 : ℤ) ≤ f.body.length := hf
    omega
  have hwindow (y : ℕ → CChar) :
      frontAccepted E ((s.readBuffer ++ f.body ++ content y (k + 1)).drop (19 * k)) =
        frontAccepted E ((s.readBuffer ++ content y (k + 1)).drop (19 * k)) := by
    obtain ⟨os, h₁, h₂⟩ := hsame
      ((List.range' 0 (k + 1)).flatMap fun i ↦ (shortFrame y i).bytes)
    rw [fed_append (congrArg Prod.fst hframe), outcomes_append] at h₁
    rw [fed_append hbefore, outcomes_append] at h₂
    have heq := (List.append_cancel_left h₁).trans (List.append_cancel_left h₂).symm
    have hget := congrArg (fun os ↦ (results os)[k]?) heq
    simp only [getElem_results y hpending, getElem_results y hp] at hget
    have hfront := Option.some.inj hget
    rwa [Session.readFrame_of_oversized hf] at hfront
  -- zeros are rejected in that window, and a heartbeat is accepted
  have hzero := hwindow fun _ ↦ 0
  have hone := hwindow fun j ↦ if j = d + 4 then 1 else 0
  rw [frontAccepted, take_drop_body hk hbody, frontAccepted_of_take (take_drop_content hk _)
    (by simp)] at hzero hone
  simp only [Nat.add_left_cancel_iff] at hone
  exact absurd (hzero.symm.trans hone) (by decide)

/-- A frame of `2 ^ 16` zeros. -/
def oversizedFrame : RawFrame where
  head := [0, 1, 0, 0]
  body := List.replicate (2 ^ 16) 0
  length_head := rfl
  lengthOf_head := by rw [List.length_replicate]; decide

theorem le_length_oversizedFrame :
    KitePacket.getMaxFrameLength.toInt ≤ oversizedFrame.body.length := by
  rw [oversizedFrame, List.length_replicate]
  decide

/-- It is not contained as the first frame of a connection. -/
theorem not_contained_oversizedFrame :
    ¬Contained .gcc proto2 blankPacket [] oversizedFrame.bytes :=
  not_contained (s := Session.start blankPacket)
    (by rw [fed, run_nil (Session.pending_start _)]) (Session.pending_start _)
    le_length_oversizedFrame

/-- Behind a heartbeat, an oversized frame has the response dispatched a second time. -/
theorem dispatched_oversizedFrame :
    dispatched (fed .gcc proto2 blankPacket heartBeatFrame.bytes).2 =
        [.receiveResponse ⟨7, some (.heartBeat ⟨some 1⟩)⟩] ∧
      dispatched (fed .gcc proto2 blankPacket (heartBeatFrame.bytes ++ oversizedFrame.bytes)).2 =
        [.receiveResponse ⟨7, some (.heartBeat ⟨some 1⟩)⟩,
          .receiveResponse ⟨7, some (.heartBeat ⟨some 1⟩)⟩] ∧
      ¬Contained .gcc proto2 blankPacket heartBeatFrame.bytes oversizedFrame.bytes := by
  have hnil : (fed .gcc proto2 blankPacket []).1 = ⟨Session.start blankPacket, [], false⟩ := by
    rw [fed, run_nil (Session.pending_start _)]
  have hfirst := fed_frame hnil (Session.pending_start _) heartBeatFrame
  have hsecond := fed_frame (congrArg Prod.fst hfirst) (Session.pending_readFrame _ _)
    oversizedFrame
  rw [List.nil_append] at hfirst hsecond
  rw [Session.readFrame_of_oversized le_length_oversizedFrame, hfirst] at hsecond
  have hone : dispatched (fed .gcc proto2 blankPacket heartBeatFrame.bytes).2 =
      [.receiveResponse ⟨7, some (.heartBeat ⟨some 1⟩)⟩] := by
    rw [hfirst, fed, run_nil (Session.pending_start _)]
    decide
  have htwo : dispatched (fed .gcc proto2 blankPacket
      (heartBeatFrame.bytes ++ oversizedFrame.bytes)).2 =
        [.receiveResponse ⟨7, some (.heartBeat ⟨some 1⟩)⟩,
          .receiveResponse ⟨7, some (.heartBeat ⟨some 1⟩)⟩] := by
    rw [hsecond, fed, run_nil (Session.pending_start _)]
    decide
  refine ⟨hone, htwo, fun h ↦ ?_⟩
  have hsame := h.1
  rw [hone, htwo] at hsame
  cases hsame

end

end Kiteq

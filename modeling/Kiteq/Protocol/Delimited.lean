import Kiteq.Protocol.Packet
import Mathlib.Data.List.Infix

/-!
# Packets that end in CRLF

`KitePacket::delimPacket` looks for the end of a packet in what has been received: the length up to
and with the first CRLF, or zero if there is none yet.  `delimPacket_iff` says that this is what it
finds, that it reads nothing outside of the buffer, and that more bytes behind the CRLF make no
difference.
-/

namespace Kiteq

/-- `Protocol::CMD_STR_CRLF`. -/
def Protocol.CMD_STR_CRLF : List CChar := [13, 10]

namespace KitePacket

/-- The loop of `delimPacket` from `i` on, with the number of turns left. -/
def delimFrom (buf : Mem) : ℕ → ℕ → Peek CInt
  | 0, _ => pure 0
  | n + 1, i => do
    let dChar1 ← load buf (i - 1)
    let dChar2 ← load buf i
    if dChar1 = 13 ∧ dChar2 = 10 then pure (BitVec.ofNat 32 (i + 1)) else delimFrom buf n (i + 1)

def delimPacket (buf : Mem) (bufsize : CInt) : Peek CInt :=
  delimFrom buf (bufsize.toInt - 1).toNat 1

/-! ## The first CRLF -/

open Protocol

/-- The length up to and with the first CRLF. -/
def firstDelim : List CChar → Option ℕ
  | c :: d :: rest =>
    if c = 13 ∧ d = 10 then some 2 else (firstDelim (d :: rest)).map (· + 1)
  | _ => none

/-- There is no CRLF in these bytes. -/
def Undelimited (p : List CChar) : Prop := ¬CMD_STR_CRLF <:+: p

theorem undelimited_cons_cons {c d : CChar} {p : List CChar} :
    Undelimited (c :: d :: p) ↔ ¬(c = 13 ∧ d = 10) ∧ Undelimited (d :: p) := by
  simp [Undelimited, CMD_STR_CRLF, List.infix_cons_iff, List.cons_prefix_cons, eq_comm]

theorem undelimited_of_length_le {p : List CChar} (h : p.length ≤ 1) : Undelimited p :=
  fun hin ↦ absurd (Nat.le_trans hin.length_le h) (by decide)

theorem firstDelim_of_crlf (rest : List CChar) : firstDelim (13 :: 10 :: rest) = some 2 := rfl

theorem firstDelim_cons_cons {c d : CChar} (h : ¬(c = 13 ∧ d = 10)) (rest : List CChar) :
    firstDelim (c :: d :: rest) = (firstDelim (d :: rest)).map (· + 1) := by
  rw [firstDelim, if_neg h]

theorem firstDelim_eq_none_iff {l : List CChar} : firstDelim l = none ↔ Undelimited l := by
  induction l using firstDelim.induct with
  | case1 c d rest h => simp [firstDelim, h, undelimited_cons_cons]
  | case2 c d rest h ih =>
      rw [firstDelim_cons_cons h, Option.map_eq_none_iff, ih, undelimited_cons_cons]
      exact (and_iff_right h).symm
  | case3 l h =>
      refine iff_of_true ?_ (undelimited_of_length_le ?_)
      all_goals
        rcases l with _ | ⟨c, _ | ⟨d, rest⟩⟩
        · simp [firstDelim]
        · simp [firstDelim]
        · exact absurd rfl (h c d rest)

/-- Behind bytes without a CRLF the first one is found. -/
theorem firstDelim_append {p : List CChar} (h : Undelimited p) (rest : List CChar) :
    firstDelim (p ++ 13 :: 10 :: rest) = some (p.length + 2) := by
  induction p with
  | nil => exact firstDelim_of_crlf rest
  | cons c p ih =>
      cases p with
      | nil =>
          have hc : ¬(c = 13 ∧ (13 : CChar) = 10) := fun h ↦ absurd h.2 (by decide)
          rw [List.singleton_append, firstDelim_cons_cons hc, firstDelim_of_crlf]
          rfl
      | cons d p =>
          obtain ⟨hne, hp⟩ := undelimited_cons_cons.mp h
          rw [List.cons_append, List.cons_append, firstDelim_cons_cons hne, ← List.cons_append,
            ih hp]
          rfl

/-- The first CRLF follows bytes in which there is none. -/
theorem firstDelim_eq_some_iff {l : List CChar} {n : ℕ} : firstDelim l = some n ↔
    ∃ p rest, l = p ++ 13 :: 10 :: rest ∧ Undelimited p ∧ n = p.length + 2 := by
  constructor
  · intro h
    induction l using firstDelim.induct generalizing n with
    | case1 c d rest hcd =>
        obtain ⟨rfl, rfl⟩ := hcd
        cases h
        exact ⟨[], rest, rfl, undelimited_of_length_le (by simp), rfl⟩
    | case2 c d rest hcd ih =>
        rw [firstDelim_cons_cons hcd] at h
        obtain ⟨n, hn, rfl⟩ := Option.map_eq_some_iff.mp h
        obtain ⟨p, rest', hl, hp, rfl⟩ := ih hn
        refine ⟨c :: p, rest', by rw [hl, List.cons_append], ?_, rfl⟩
        cases p with
        | nil => exact undelimited_of_length_le (by simp)
        | cons e p =>
            obtain rfl : d = e := (List.cons.inj hl).1
            exact undelimited_cons_cons.mpr ⟨hcd, hp⟩
    | case3 l hl =>
        rw [firstDelim] at h
        · cases h
        · exact hl
  · rintro ⟨p, rest, rfl, hp, rfl⟩
    exact firstDelim_append hp rest

/-! ## What `delimPacket` finds -/

/-- One turn of the loop reads two bytes. -/
theorem delimFrom_succ (buf : Mem) (n i : ℕ) (log : List Access) :
    delimFrom buf (n + 1) (i + 1) log =
      if buf i = 13 ∧ buf (i + 1) = 10 then
        (BitVec.ofNat 32 (i + 2), log ++ [.byte i, .byte (i + 1)])
      else delimFrom buf n (i + 2) (log ++ [.byte i, .byte (i + 1)]) := by
  have hlog : log ++ [Access.byte i, .byte (i + 1)] = (log ++ [.byte i]) ++ [.byte (i + 1)] := by
    simp
  have hturn : delimFrom buf (n + 1) (i + 1) log =
      (if buf i = 13 ∧ buf (i + 1) = 10 then pure (BitVec.ofNat 32 (i + 2))
        else delimFrom buf n (i + 2)) (log ++ [.byte i] ++ [.byte (i + 1)]) := rfl
  rw [hturn, hlog]
  split <;> rfl

/-- These are accesses to a buffer of this size. -/
def Within (size : ℕ) (accesses : List Access) : Prop := ∀ a ∈ accesses, ∃ i < size, a = .byte i

/-- **Loop lemma.** -/
theorem delimFrom_spec {buf : Mem} {l front : List CChar} (hbuf : buf.Holds (front ++ l))
    (hlen : (front ++ l).length < 2 ^ 31) (log : List Access) :
    (delimFrom buf (l.length - 1) (front.length + 1) log).1.toNat =
        (firstDelim l).elim 0 (front.length + ·) ∧
      ∃ new, (delimFrom buf (l.length - 1) (front.length + 1) log).2 = log ++ new ∧
        Within (front ++ l).length new := by
  induction l using firstDelim.induct generalizing front log with
  | case1 c d rest h =>
      obtain ⟨rfl, rfl⟩ := h
      have hc : buf front.length = 13 := hbuf.apply_of_append rfl
      have hd : buf (front.length + 1) = 10 := by
        have hbuf : buf.Holds ((front ++ [13]) ++ 10 :: rest) := by simpa using hbuf
        exact hbuf.apply_of_append (by simp)
      rw [List.length_cons, List.length_cons, Nat.add_sub_cancel, delimFrom_succ, hc, hd,
        if_pos ⟨rfl, rfl⟩, firstDelim_of_crlf]
      simp only [List.length_append, List.length_cons] at hlen
      refine ⟨BitVec.toNat_ofNat .. |>.trans (Nat.mod_eq_of_lt (by omega)), _, rfl, ?_⟩
      simp [Within]
  | case2 c d rest h ih =>
      have happend : (front ++ [c]) ++ d :: rest = front ++ c :: d :: rest := by simp
      have hc : buf front.length = c := hbuf.apply_of_append rfl
      have hd : buf (front.length + 1) = d := (happend ▸ hbuf).apply_of_append (by simp)
      obtain ⟨hvalue, new, hnew, hin⟩ := ih (happend.symm ▸ hbuf) (happend.symm ▸ hlen)
        (log ++ [.byte front.length, .byte (front.length + 1)])
      rw [List.length_append, List.length_singleton, List.length_cons, Nat.add_sub_cancel]
        at hvalue hnew
      rw [List.length_cons, List.length_cons, Nat.add_sub_cancel, delimFrom_succ, hc, hd,
        if_neg h, firstDelim_cons_cons h]
      refine ⟨?_, _, hnew.trans (List.append_assoc ..), ?_⟩
      · rw [hvalue]
        cases firstDelim (d :: rest) <;> simp [Nat.add_assoc, Nat.add_comm]
      · rw [happend] at hin
        intro a ha
        rcases List.mem_append.mp ha with ha | ha
        · simp only [List.mem_cons, List.not_mem_nil, or_false] at ha
          rcases ha with rfl | rfl
          · exact ⟨_, by simp, rfl⟩
          · exact ⟨_, by simp, rfl⟩
        · exact hin a ha
  | case3 l h =>
      have hshort : l.length - 1 = 0 ∧ firstDelim l = none := by
        rcases l with _ | ⟨c, _ | ⟨d, rest⟩⟩
        · exact ⟨rfl, rfl⟩
        · exact ⟨rfl, rfl⟩
        · exact absurd rfl (h c d rest)
      rw [hshort.1, hshort.2]
      exact ⟨rfl, [], (List.append_nil log).symm, by simp [Within]⟩

/-- **The end of a packet** is found where it is, once it is there, and nothing outside of the
buffer is read in search of it. -/
theorem delimPacket_iff {buf : Mem} {bs : List CChar} (hbuf : buf.Holds bs)
    (hlen : bs.length < 2 ^ 31) (log : List Access) :
    (∀ n, 0 < n → ((delimPacket buf (BitVec.ofNat 32 bs.length) log).1.toNat = n ↔
        ∃ p rest, bs = p ++ CMD_STR_CRLF ++ rest ∧ Undelimited p ∧
          n = (p ++ CMD_STR_CRLF).length)) ∧
      ((delimPacket buf (BitVec.ofNat 32 bs.length) log).1.toNat = 0 ↔ Undelimited bs) ∧
      ∃ new, (delimPacket buf (BitVec.ofNat 32 bs.length) log).2 = log ++ new ∧
        Within bs.length new := by
  have hsize : ((BitVec.ofNat 32 bs.length).toInt - 1).toNat = bs.length - 1 := by
    rw [toInt_ofNat_of_lt hlen]
    omega
  obtain ⟨hvalue, hnew⟩ := @delimFrom_spec buf bs [] hbuf hlen log
  have hvalue : (delimPacket buf (BitVec.ofNat 32 bs.length) log).1.toNat =
      (firstDelim bs).elim 0 fun n ↦ n := by
    rw [delimPacket, hsize]
    simpa using hvalue
  have hpos {n : ℕ} (h : firstDelim bs = some n) : 0 < n := by
    obtain ⟨p, rest, -, -, rfl⟩ := firstDelim_eq_some_iff.mp h
    exact Nat.succ_pos _
  refine ⟨fun n hn ↦ ?_, ?_, by simpa [delimPacket, hsize] using hnew⟩
  · have hsome : ((firstDelim bs).elim 0 fun n ↦ n) = n ↔ firstDelim bs = some n := by
      cases h : firstDelim bs with
      | none => simp [Nat.ne_of_lt hn]
      | some m => simp
    rw [hvalue, hsome, firstDelim_eq_some_iff]
    simp [CMD_STR_CRLF]
  · rw [hvalue, ← firstDelim_eq_none_iff]
    cases h : firstDelim bs with
    | none => simp
    | some m => simp [Nat.ne_of_gt (hpos h)]

/-- A packet and the beginning of the next. -/
theorem delimPacket_two_packets :
    (delimPacket (Platform.gcc.memory [65, 13, 66, 13, 10, 67]) 6 []).1.toNat = 5 :=
  ((delimPacket_iff (Platform.gcc.holds_memory [65, 13, 66, 13, 10, 67]) (by decide) []).1 5
    (by decide)).mpr ⟨[65, 13, 66], [67], rfl, firstDelim_eq_none_iff.mp rfl, rfl⟩

end KitePacket

end Kiteq

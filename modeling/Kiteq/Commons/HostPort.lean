import Kiteq.Commons.Platform
import Kiteq.Lib.Separator

/-!
# `HostPort`

The address of a server, as `commons/HostPort.hpp` keeps it: two strings, with defaults for empty
ones.  Its `toString` is the key under which a client registers its listener and looks it up.

The addresses `parse` produces are the canonical ones, with a host and a port that are not empty
and contain no colon.  On these `toString` is injective, and `parse` undoes it.
-/

namespace Kiteq

open Lib

structure HostPort where
  host : List CChar
  port : List CChar
deriving DecidableEq, Repr

namespace HostPort

def colon : CChar := 0x3A
def questionMark : CChar := 0x3F
def backslash : CChar := 0x5C

/-- `127.0.0.1`. -/
def defaultHost : List CChar := [0x31, 0x32, 0x37, 0x2E, 0x30, 0x2E, 0x30, 0x2E, 0x31]

/-- `13800`. -/
def defaultPort : List CChar := [0x31, 0x33, 0x38, 0x30, 0x30]

/-- `static shared_ptr<HostPort> parse(const string &)`, `none` for a null pointer. -/
def parse (hostport : List CChar) : Option HostPort :=
  match hostport.splitOn colon with
  | [front, back] => some {
      host := if front.length ≠ 0 then front else defaultHost
      port := if back.length ≠ 0 then back else defaultPort }
  | _ => none

def toString (hp : HostPort) : List CChar := hp.host ++ colon :: hp.port

/-- The `hostPort` of a client: the part of the server URL in front of the first `?` or `\`. -/
def ofServerUrl (serverUrl : List CChar) : Option HostPort :=
  parse ((serverUrl.splitOnP fun c ↦ c = backslash || c = questionMark).headD [])

/-! ## Canonical addresses -/

/-- Neither part is empty, and neither contains a colon. -/
structure Canonical (hp : HostPort) : Prop where
  host_ne_nil : hp.host ≠ []
  port_ne_nil : hp.port ≠ []
  colon_notMem_host : colon ∉ hp.host
  colon_notMem_port : colon ∉ hp.port

variable {s : List CChar} {hp hp' : HostPort}

theorem parse_of_splitOn {front back : List CChar} (h : s.splitOn colon = [front, back]) :
    parse s = some {
      host := if front.length ≠ 0 then front else defaultHost
      port := if back.length ≠ 0 then back else defaultPort } := by
  rw [parse, h]

/-- What is parsed has been split into two. -/
theorem exists_splitOn_of_parse (h : parse s = some hp) :
    ∃ front back, s.splitOn colon = [front, back] := by
  unfold parse at h
  split at h
  · exact ⟨_, _, ‹_›⟩
  · cases h

theorem isSome_parse_iff : (parse s).isSome ↔ s.count colon = 1 := by
  rw [← exists_splitOn_eq_pair_iff, Option.isSome_iff_exists]
  constructor
  · rintro ⟨hp, h⟩
    exact exists_splitOn_of_parse h
  · rintro ⟨front, back, h⟩
    exact ⟨_, parse_of_splitOn h⟩

/-- A field that is empty is replaced by a default that has no colon either. -/
theorem filled (default : List CChar) {part : List CChar} (hne : default ≠ [])
    (hdefault : colon ∉ default) (hpart : colon ∉ part) :
    (if part.length ≠ 0 then part else default) ≠ [] ∧
      colon ∉ if part.length ≠ 0 then part else default := by
  split
  · rename_i hlen
    exact ⟨List.ne_nil_of_length_pos (Nat.pos_of_ne_zero hlen), hpart⟩
  · exact ⟨hne, hdefault⟩

theorem Canonical.of_parse (h : parse s = some hp) : hp.Canonical := by
  obtain ⟨front, back, hsplit⟩ := exists_splitOn_of_parse h
  obtain ⟨-, hfront, hback⟩ := splitOn_eq_pair_iff.mp hsplit
  rw [parse_of_splitOn hsplit] at h
  cases h
  have hhost := filled defaultHost (by decide) (by decide) hfront
  have hport := filled defaultPort (by decide) (by decide) hback
  exact ⟨hhost.1, hport.1, hhost.2, hport.2⟩

/-- The printed form of a canonical address is parsed back. -/
theorem Canonical.parse_toString (h : hp.Canonical) : parse hp.toString = some hp := by
  have hsplit : hp.toString.splitOn colon = [hp.host, hp.port] :=
    splitOn_eq_pair_iff.mpr ⟨rfl, h.colon_notMem_host, h.colon_notMem_port⟩
  rw [parse_of_splitOn hsplit, if_pos (mt List.eq_nil_of_length_eq_zero h.host_ne_nil),
    if_pos (mt List.eq_nil_of_length_eq_zero h.port_ne_nil)]

/-- The canonical addresses are the ones that can be parsed. -/
theorem exists_parse_iff : (∃ s, parse s = some hp) ↔ hp.Canonical := by
  constructor
  · rintro ⟨s, h⟩
    exact .of_parse h
  · intro h
    exact ⟨_, h.parse_toString⟩

theorem Canonical.toString_inj (h : hp.Canonical) (h' : hp'.Canonical) :
    hp.toString = hp'.toString ↔ hp.host = hp'.host ∧ hp.port = hp'.port :=
  append_cons_inj ⟨h.colon_notMem_host, h.colon_notMem_port⟩
    ⟨h'.colon_notMem_host, h'.colon_notMem_port⟩

end HostPort

end Kiteq

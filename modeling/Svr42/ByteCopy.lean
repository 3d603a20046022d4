import Mathlib.Data.List.Basic

/-! Copies of bytes into a buffer and out of it. -/

namespace Svr42
open Function List Nat

def copyIn (data : Nat → UInt8) (i : Nat) : List UInt8 → Nat → UInt8
  | [] => data
  | c :: cs => copyIn (update data i c) (i + 1) cs

def copyOut (data : Nat → UInt8) (i n : Nat) : List UInt8 := (List.range' i n).map data

variable {cs : List UInt8}

variable {data : Nat → UInt8}

theorem copyIn_of_lt {i j : Nat} (h : j < i) : copyIn data i cs j = data j := by
  induction cs generalizing data i with
  | nil => rfl
  | cons c cs ih =>
    rw [copyIn, ih (lt_succ_of_lt h), update_of_ne (Nat.ne_of_lt h)]

theorem copyOut_copyIn {i : Nat} : copyOut (copyIn data i cs) i cs.length = cs := by
  induction cs generalizing data i with
  | nil => rfl
  | cons c cs ih =>
    have hfirst : copyIn (update data i c) (i + 1) cs i = c := by
      rw [copyIn_of_lt (lt_succ_self i), update_self]
    have hrest : copyOut (copyIn (update data i c) (i + 1) cs) (i + 1) cs.length = cs := ih
    rw [copyOut] at hrest
    rw [copyOut, length_cons, range'_succ, map_cons, copyIn, hfirst, hrest]

theorem copyOut_fill {first last : Nat} (h : first ≤ last) :
    copyOut (copyIn data last cs) first (last + cs.length - first) =
      copyOut data first (last - first) ++ cs := by
  have hlen : last + cs.length - first = (last - first) + cs.length := by omega
  have hold : ∀ i ∈ range' first (last - first), copyIn data last cs i = data i := by
    intro i hi
    obtain ⟨-, hlt⟩ := mem_range'_1.mp hi
    exact copyIn_of_lt (by omega)
  have hnew : (range' last cs.length).map (copyIn data last cs) = cs := copyOut_copyIn
  calc copyOut (copyIn data last cs) first (last + cs.length - first)
      = (range' first ((last - first) + cs.length)).map (copyIn data last cs) := by
        rw [copyOut, hlen]
    _ = (range' first (last - first)).map (copyIn data last cs) ++
          (range' (first + (last - first)) cs.length).map (copyIn data last cs) := by
        rw [← range'_append_1, map_append]
    _ = copyOut data first (last - first) ++ cs := by
        rw [map_congr_left hold, Nat.add_sub_cancel' h, hnew, copyOut]

theorem copyOut_split (data : Nat → UInt8) (first n k : Nat) :
    copyOut data first (n + k) = copyOut data first n ++ copyOut data (first + n) k := by
  rw [copyOut, copyOut, copyOut, ← range'_append_1, map_append]

theorem copyOut_one (data : Nat → UInt8) (i : Nat) : copyOut data i 1 = [data i] := rfl

theorem length_copyOut (data : Nat → UInt8) (i n : Nat) : (copyOut data i n).length = n := by
  rw [copyOut, length_map, length_range']

end Svr42

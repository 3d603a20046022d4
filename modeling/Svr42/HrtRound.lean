import Svr42.HrtNewres

/-! Conversions between resolutions are exact, as long as the rounded fraction stays below a
second. -/

namespace Svr42.Hrt
open Int Nat Option

open Dlong

variable {htp : Hrtime} {rem res newRes p : Nat} {rnd : Rounding} {r : Except Errno Int}

/-! ### Rounding in whole numbers -/

def rounded (rem res newRes : Nat) (rnd : Rounding) : Nat := (rem * newRes + drem res rnd) / res

theorem add_div (hres : 0 < res) {c : Nat} (hc : c < res) :
    (p + c) / res = p / res + if res ≤ p % res + c then 1 else 0 := by
  have hp := div_add_mod p res
  have hmod := mod_lt p hres
  calc (p + c) / res = (res * (p / res) + (p % res + c)) / res := by
        rw [← add_assoc, hp]
    _ = p / res + (p % res + c) / res := mul_add_div hres _ _
    _ = p / res + if res ≤ p % res + c then 1 else 0 := by
        refine congrArg (p / res + ·) ?_
        split_ifs with hup
        · exact Nat.div_eq_of_lt_le (by omega) (by omega)
        · exact div_eq_of_lt (by omega)

theorem apply_eq (hres : 0 < res) :
    rnd.apply (((rem : Int) : ℚ) * newRes / res) = (rounded rem res newRes rnd : Nat) := by
  have hpos : (0 : ℚ) < res := by exact_mod_cast hres
  have hnum : ((rem : Int) : ℚ) * newRes = ((rem * newRes : Nat) : ℚ) := by push_cast; ring
  rw [hnum]
  obtain ⟨p, hp⟩ : ∃ p, p = rem * newRes := ⟨_, rfl⟩
  rw [rounded, ← hp]
  cases rnd with
  | hrtTrunc =>
    show ⌊(p : ℚ) / res⌋ = ((p + 0) / res : Nat)
    rw [Rat.floor_natCast_div_natCast, add_zero, natCast_div]
  | hrtRnd =>
    show ⌊(p : ℚ) / res + 1 / 2⌋ = ((p + res / 2) / res : Nat)
    have hhalf : (p : ℚ) / res + 1 / 2 = ((2 * p + res : Nat) : ℚ) / ((2 * res : Nat) : ℚ) := by
      push_cast
      field_simp
    have hnat : (2 * p + res) / (2 * res) = (p + res / 2) / res := by
      rw [← Nat.div_div_eq_div_mul]
      congr 1
      omega
    rw [hhalf, Rat.floor_natCast_div_natCast, ← hnat, natCast_div]
  | hrtRndup =>
    show ⌈(p : ℚ) / res⌉ = ((p + (res - 1)) / res : Nat)
    have hlow := div_mul_le_self (p + (res - 1)) res
    have hhigh := lt_div_mul_add (a := p + (res - 1)) hres
    rw [Int.ceil_eq_iff, lt_div_iff₀ hpos, div_le_iff₀ hpos]
    obtain ⟨q, hq⟩ : ∃ q, q = (p + (res - 1)) / res := ⟨_, rfl⟩
    rw [← hq] at hlow hhigh ⊢
    constructor
    · have hint : ((q : Int) - 1) * res < p := by
        rw [sub_mul, one_mul]
        omega
      exact_mod_cast hint
    · have hnat : p ≤ q * res := by omega
      exact_mod_cast hnat

theorem drem_lt (hres : 0 < res) : drem res rnd < res := by
  cases rnd with
  | hrtTrunc => exact hres
  | hrtRnd => exact div_lt_self hres (by decide)
  | hrtRndup => exact sub_lt hres one_pos

theorem rounded_le (hrem : rem < res) : rounded rem res newRes rnd ≤ newRes := by
  have hres : 0 < res := zero_lt_of_lt hrem
  have hd : drem res rnd < res := drem_lt hres
  have hprod : rem * newRes + newRes ≤ res * newRes := by
    rw [← succ_mul]
    exact mul_le_mul_right newRes hrem
  refine le_of_lt_succ ((div_lt_iff_lt_mul hres).mpr ?_)
  rw [succ_mul, mul_comm newRes res]
  omega

/-! ### The two calculations -/

theorem long_eq {v : Int} (hlow : 0 ≤ v) (hhigh : v < 0x80000000) : long v = v := by
  rw [long, bmod_def]
  split_ifs
  · omega
  · omega

theorem ulong_long (v : Int) : ulong (long v) = ulong v := by
  rw [ulong, ulong, long, bmod_def]
  split_ifs
  · omega
  · omega

theorem ulong_long_sub (v w : Int) : ulong (long v - w) = ulong (v - w) := by
  rw [ulong, ulong, long, bmod_def]
  split_ifs
  · omega
  · omega

/-- What the resolutions and the fraction may be. -/
structure InRange (rem res newRes : Nat) : Prop where
  rem_lt : rem < res
  res_le : res ≤ NANOSEC
  newRes_pos : 0 < newRes
  newRes_le : newRes ≤ NANOSEC

theorem InRange.prod_lt (h : InRange rem res newRes) : rem * newRes < 0xde0b6b3a7640000 :=
  calc rem * newRes ≤ rem * NANOSEC := mul_le_mul_left rem h.newRes_le
    _ < NANOSEC * NANOSEC := mul_lt_mul_of_pos_right (h.rem_lt.trans_le h.res_le) (by decide)
    _ = 0xde0b6b3a7640000 := rfl

theorem dlOf_toNat {v : Nat} (hv : v < 0x10000000000000000) : (dlOf v).toNat = v :=
  (BitVec.toNat_ofNat v 64).trans (mod_eq_of_lt hv)

theorem double_eq (h : InRange rem res newRes) :
    double rem res newRes rnd = .ok (rounded rem res newRes rnd : Nat) := by
  have hprod := h.prod_lt
  obtain ⟨hrem, hres, hnew, hnewle⟩ := h
  have hd : drem res rnd < res := drem_lt (zero_lt_of_lt hrem)
  have hle : rounded rem res newRes rnd ≤ newRes := rounded_le hrem
  unfold NANOSEC at hres hnewle
  have hinterval : ulong rem = rem := by
    unfold ulong
    omega
  have hmul : (lmul (dlOf (ulong rem)) (dlOf newRes)).toNat = rem * newRes := by
    rw [hinterval, lmul_toNat, dlOf_toNat (by omega), dlOf_toNat (by omega)]
    · rw [dlOf_toNat (by omega)]
      omega
    · rw [dlOf_toNat (by omega), dlOf_toNat (by omega)]
      omega
  have hsum : (ladd (lmul (dlOf (ulong rem)) (dlOf newRes)) (dlOf (drem res rnd))).toNat =
      rem * newRes + drem res rnd := by
    rw [ladd, BitVec.toNat_add, hmul, dlOf_toNat (by omega), mod_eq_of_lt (by omega)]
  have hquot : (ldivide (ladd (lmul (dlOf (ulong rem)) (dlOf newRes)) (dlOf (drem res rnd)))
      (dlOf res)).toNat = rounded rem res newRes rnd := by
    rw [ldivide_toNat (by omega) (by rw [dlOf_toNat (by omega)]; omega)
      (by rw [dlOf_toNat (by omega)]; omega), hsum, dlOf_toNat (by omega)]
    rfl
  have hhop : dlHop (ldivide (ladd (lmul (dlOf (ulong rem)) (dlOf newRes)) (dlOf (drem res rnd)))
      (dlOf res)) = 0 := by
    rw [dlHop, hquot]
    omega
  have hlop : dlLop (ldivide (ladd (lmul (dlOf (ulong rem)) (dlOf newRes)) (dlOf (drem res rnd)))
      (dlOf res)) = rounded rem res newRes rnd := by
    rw [dlLop, hquot]
    omega
  rw [double, if_neg (not_not.mpr hhop), hlop, long_eq (by omega) (by omega)]

theorem increment_eq {v : Nat} (hv : v < 0x7fffffff) : increment v = .ok ((v + 1 : Nat) : Int) := by
  have hup : long ((v : Int) + 1) = v + 1 := long_eq (by omega) (by omega)
  have hback : long ((v : Int) + 1 - 1) = v := by
    rw [Int.add_sub_cancel]
    exact long_eq (by omega) (by omega)
  rw [increment, hup, if_pos hback]
  rfl

/-- The shortcut is taken when the product fits, and is right then. -/
theorem single_eq (h : InRange rem res newRes) (hsingle : single rem res newRes rnd = some r) :
    r = .ok ((rounded rem res newRes rnd : Nat) : Int) := by
  obtain ⟨hrem, hres, hnew, hnewle⟩ := h
  have hle : rounded rem res newRes .hrtTrunc ≤ newRes := rounded_le hrem
  have hpos : 0 < res := zero_lt_of_lt hrem
  unfold NANOSEC at hres hnewle
  obtain ⟨p, hp⟩ : ∃ p, p = rem * newRes := ⟨_, rfl⟩
  have hcast : (rem : Int) * newRes = p := by
    rw [hp, natCast_mul]
  have hbits : ulong (long ((rem : Int) * newRes)) = p % 0x100000000 := by
    rw [ulong_long, hcast, ulong]
    omega
  have hinterval : ulong rem = rem := by
    unfold ulong
    omega
  unfold single at hsingle
  simp only [hbits, hinterval] at hsingle
  by_cases hfits : p % 0x100000000 / newRes = rem
  · have hback := div_mul_le_self (p % 0x100000000) newRes
    rw [hfits, ← hp] at hback
    have hsmall : p % 0x100000000 = p := by omega
    have hquot : rounded rem res newRes .hrtTrunc = p / res := by
      rw [rounded, ← hp]
      rfl
    rw [hquot] at hle
    have hmax : p / res < 0x7fffffff := lt_of_le_of_lt (hle.trans hnewle) (by decide)
    have hresult : long ((p / res : Nat) : Int) = (p / res : Nat) := long_eq (by omega) (by omega)
    have hsplit : p / res * res + p % res = p := by
      rw [mul_comm]
      exact div_add_mod p res
    have hmod := mod_lt p hpos
    have hmul : ((p / res : Nat) : Int) * res = (p / res * res : Nat) := (natCast_mul _ _).symm
    rw [if_pos hfits, hsmall, hresult, hmul] at hsingle
    rw [rounded, ← hp, add_div hpos (drem_lt hpos)]
    cases rnd with
    | hrtTrunc =>
      have hdown : ¬ res ≤ p % res + drem res .hrtTrunc := not_le.mpr hmod
      rw [if_neg hdown]
      exact (some.inj hsingle).symm
    | hrtRnd =>
      have hmodulus : ulong (long ((rem : Int) * newRes) - (p / res * res : Nat)) = p % res := by
        rw [ulong_long_sub, hcast, ulong]
        omega
      have htwo : ulong ((2 * (p % res) : Nat) : Int) = 2 * (p % res) := by
        unfold ulong
        omega
      simp only [hmodulus, htwo] at hsingle
      rw [if_pos (by omega)] at hsingle
      by_cases hup : res ≤ 2 * (p % res)
      · have hup' : res ≤ p % res + drem res .hrtRnd := by
          show res ≤ p % res + res / 2
          omega
        rw [if_pos hup, increment_eq hmax] at hsingle
        rw [if_pos hup']
        exact (some.inj hsingle).symm
      · have hdown : ¬ res ≤ p % res + drem res .hrtRnd := by
          show ¬ res ≤ p % res + res / 2
          omega
        rw [if_neg hup] at hsingle
        rw [if_neg hdown]
        exact (some.inj hsingle).symm
    | hrtRndup =>
      have hprod : ulong ((p / res * res : Nat) : Int) = p / res * res := by
        unfold ulong
        omega
      simp only [hprod] at hsingle
      by_cases hup : p / res * res ≠ p
      · have hup' : res ≤ p % res + drem res .hrtRndup := by
          show res ≤ p % res + (res - 1)
          omega
        rw [if_pos hup, increment_eq hmax] at hsingle
        rw [if_pos hup']
        exact (some.inj hsingle).symm
      · have hdown : ¬ res ≤ p % res + drem res .hrtRndup := by
          show ¬ res ≤ p % res + (res - 1)
          omega
        rw [if_neg hup] at hsingle
        rw [if_neg hdown]
        exact (some.inj hsingle).symm
  · rw [if_neg hfits] at hsingle
    cases hsingle

/-! ### `hrt_newres` -/

def StaysBelow (rem res newRes : Nat) : Rounding → Prop
  | .hrtTrunc => True
  | .hrtRnd => res < 2 * (newRes * (res - rem))
  | .hrtRndup => res ≤ newRes * (res - rem)

theorem rounded_lt_iff (h : InRange rem res newRes) :
    rounded rem res newRes rnd < newRes ↔ StaysBelow rem res newRes rnd := by
  have hpos : 0 < res := Nat.zero_lt_of_lt h.rem_lt
  have hsplit : newRes * res = rem * newRes + newRes * (res - rem) := by
    rw [mul_comm rem newRes, ← Nat.mul_add, Nat.add_sub_cancel' h.rem_lt.le]
  have hleft : 0 < newRes * (res - rem) := Nat.mul_pos h.newRes_pos (Nat.sub_pos_of_lt h.rem_lt)
  have hiff : rounded rem res newRes rnd < newRes ↔ drem res rnd < newRes * (res - rem) := by
    rw [rounded, Nat.div_lt_iff_lt_mul hpos, hsplit]
    exact Nat.add_lt_add_iff_left
  rw [hiff]
  cases rnd with
  | hrtTrunc => exact iff_of_true hleft trivial
  | hrtRnd =>
    show res / 2 < newRes * (res - rem) ↔ res < 2 * (newRes * (res - rem))
    omega
  | hrtRndup =>
    show res - 1 < newRes * (res - rem) ↔ res ≤ newRes * (res - rem)
    omega

/-- What is left where, whatever the rounding. -/
theorem hrtNewres_eq (h : InRange rem res newRes) (secs : Nat) : hrtNewres ⟨secs, rem, res⟩ newRes rnd =
      (⟨secs, (rounded rem res newRes rnd : Nat), newRes⟩, none) := by
  have hres := h.res_le
  have hlt := h.rem_lt
  have hle := h.newRes_le
  have hpos := h.newRes_pos
  have hcheck : hrtCheckres newRes = none := if_neg (by omega)
  have hbits : ulong rem = rem := by
    unfold NANOSEC at hres
    unfold ulong
    omega
  have hcarry : carry ⟨secs, rem, res⟩ = ⟨secs, rem, res⟩ :=
    if_neg (not_le.mpr (by rw [hbits]; exact hlt))
  rw [hrtNewres, hcheck]
  simp only [hcarry]
  by_cases hzero : (rem : Int) = 0
  · have hrem : rem = 0 := natCast_eq_zero.mp hzero
    have hnone : rounded rem res newRes rnd = 0 := by
      rw [rounded, hrem, zero_mul, zero_add]
      exact div_eq_of_lt (drem_lt (zero_lt_of_lt hlt))
    rw [if_pos hzero, hnone, hrem]
  · have hcalc : (single rem res newRes rnd).getD (double rem res newRes rnd) =
        .ok ((rounded rem res newRes rnd : Nat) : Int) := by
      cases hsingle : single rem res newRes rnd with
      | none => exact double_eq h
      | some r => exact single_eq h hsingle
    rw [if_neg hzero, hcalc]

/-- The conversion is the rounded one, of less than a second behind the seconds, exactly when the
rounding does not make a whole second of the fraction: there is no carry. The two calculations agree
everywhere. -/
theorem hrtNewres_converts_iff (h : InRange rem res newRes) (secs : Nat) (hsecs : secs < 0x100000000) :
    (hrtNewres ⟨secs, rem, res⟩ newRes rnd = (converted ⟨secs, rem, res⟩ newRes rnd, none) ∧
      ∀ r, single rem res newRes rnd = some r → double rem res newRes rnd = r) ↔
    StaysBelow rem res newRes rnd := by
  have hagree : ∀ r, single rem res newRes rnd = some r → double rem res newRes rnd = r :=
    fun r hr => (double_eq h).trans (single_eq h hr).symm
  have hticks : rnd.apply (((rem : Int) : ℚ) * newRes / res) = (rounded rem res newRes rnd : Nat) :=
    apply_eq (zero_lt_of_lt h.rem_lt)
  have hconverted : converted ⟨secs, rem, res⟩ newRes rnd =
      ⟨ulong (secs + (rounded rem res newRes rnd / newRes : Nat)),
        (rounded rem res newRes rnd % newRes : Nat), newRes⟩ := by
    unfold converted
    simp only [hticks, natCast_div, natCast_mod]
  rw [hrtNewres_eq h, hconverted, and_iff_left hagree, ← rounded_lt_iff h, Prod.mk.injEq,
    and_iff_left rfl, Hrtime.mk.injEq]
  constructor
  · rintro ⟨-, hrem, -⟩
    rw [natCast_inj.mp hrem]
    exact mod_lt _ h.newRes_pos
  · intro hlt
    rw [div_eq_of_lt hlt, mod_eq_of_lt hlt]
    refine ⟨?_, rfl, rfl⟩
    unfold ulong
    omega

/-- Half a second in tenths, in sixtieths. -/
theorem hrtNewres_converts_half :
    (hrtNewres ⟨7, (5 : Nat), 10⟩ 60 .hrtRnd = (converted ⟨7, (5 : Nat), 10⟩ 60 .hrtRnd, none) ∧
      ∀ r, single (5 : Nat) 10 60 .hrtRnd = some r → double (5 : Nat) 10 60 .hrtRnd = r) ↔
    StaysBelow 5 10 60 .hrtRnd :=
  hrtNewres_converts_iff ⟨by decide, by decide, by decide, by decide⟩ 7 (by decide)

theorem converted_second : converted ⟨7, 9, 10⟩ 5 .hrtRndup = ⟨8, 0, 5⟩ := by
  have hceil : ⌈(9 : ℚ) * 5 / 10⌉ = 5 := by norm_num [Int.ceil_eq_iff]
  unfold converted Rounding.apply
  norm_num [hceil]
  decide

theorem hrtNewres_no_carry : hrtNewres ⟨7, 9, 10⟩ 5 .hrtRndup = (⟨7, 5, 5⟩, none) ∧
      hrtNewres ⟨7, 9, 10⟩ 5 .hrtRndup ≠ (converted ⟨7, 9, 10⟩ 5 .hrtRndup, none) := by
  have hresult : hrtNewres ⟨7, 9, 10⟩ 5 .hrtRndup = (⟨7, 5, 5⟩, none) := by decide
  rw [converted_second, hresult]
  exact ⟨rfl, by decide⟩

end Svr42.Hrt

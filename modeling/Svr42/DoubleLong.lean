import Mathlib.Data.Nat.Bitwise
import Mathlib.Data.BitVec

/-! Double longs: 64 bits in two's complement, with a multiplication that shifts and adds and a
division that shifts and subtracts. -/

namespace Svr42.Dlong
open Nat

abbrev Dl : Type := BitVec 64

def ladd (lop rop : Dl) : Dl := lop + rop

def lsub (lop rop : Dl) : Dl := lop - rop

def lshiftl (arg : Dl) (cnt : Int) : Dl :=
  if 0 ≤ cnt then arg <<< cnt.toNat else arg.sshiftRight (-cnt).toNat

def lsign (arg : Dl) : Bool := arg.msb

def dlLop (arg : Dl) : Nat := arg.toNat % 0x100000000

def dlHop (arg : Dl) : Nat := arg.toNat / 0x100000000

/-- The turns of the loop of `lmul` from bit `jj` on. -/
def lmulLoop (lop rop : Dl) : Nat → Nat → Dl → Dl
  | 0, _, ans => ans
  | n + 1, jj, ans =>
      if dlLop (lshiftl rop (-jj)) % 2 = 0 then lmulLoop lop rop n (jj + 1) ans
      else
        let tmp := lshiftl lop jj &&& 0x7fffffffffffffff
        lmulLoop lop rop n (jj + 1) (ladd ans tmp)

def lmul (lop rop : Dl) : Dl := lmulLoop lop rop 64 0 0

/-- The turns of the loop of `ldivide`. -/
def ldivideLoop (rop : Dl) : Nat → Dl → Dl → Dl → Dl
  | 0, _, ans, _ => ans
  | n + 1, lop, ans, div =>
      let div := lshiftl div 1
      let lop := lshiftl lop 1
      let div := if lsign lop then div ||| 1 else div
      let tmp := lsub div rop
      let ans := lshiftl ans 1
      if lsign tmp then ldivideLoop rop n lop ans div
      else ldivideLoop rop n lop (ans ||| 1) tmp

def ldivide (lop rop : Dl) : Dl :=
  let lop := if lsign lop then lsub 0 lop else lop
  let rop := if lsign rop then lsub 0 rop else rop
  ldivideLoop rop 63 lop 0 0

variable {lop rop ans div : Dl} {jj n : Nat}

theorem lsign_false (h : lop.toNat < 2 ^ 63) : lsign lop = false :=
  BitVec.msb_eq_false_iff_two_mul_lt.mpr (by omega)

/-! ### Multiplication -/

theorem lshiftl_left (arg : Dl) (n : Nat) : lshiftl arg n = arg <<< n := by
  rw [lshiftl, if_pos (Int.natCast_nonneg n), Int.toNat_natCast]

theorem lshiftl_toNat (h : lop.toNat * 2 ^ n < 2 ^ 64) : (lshiftl lop n).toNat = lop.toNat * 2 ^ n := by
  rw [lshiftl_left, BitVec.toNat_shiftLeft, shiftLeft_eq, mod_eq_of_lt h]

theorem lshiftl_bit (h : rop.toNat < 2 ^ 63) :
    dlLop (lshiftl rop (-jj)) % 2 = rop.toNat / 2 ^ jj % 2 := by
  have hshift : (lshiftl rop (-jj)).toNat = rop.toNat / 2 ^ jj := by
    unfold lshiftl
    split_ifs with hsign
    · obtain rfl : jj = 0 := by omega
      simp
    · rw [BitVec.sshiftRight_eq_of_msb_false (lsign_false h), BitVec.toNat_ushiftRight,
        shiftRight_eq_div_pow, Int.neg_neg, Int.toNat_natCast]
  unfold dlLop
  rw [hshift]
  omega

section

variable (hrop : rop.toNat < 2 ^ 63) (hprod : lop.toNat * rop.toNat < 2 ^ 63)
include hrop hprod

theorem lmulLoop_toNat (hn : jj + n = 64) (hans : ans.toNat = lop.toNat * (rop.toNat % 2 ^ jj)) :
    (lmulLoop lop rop n jj ans).toNat = lop.toNat * rop.toNat := by
  induction n generalizing jj ans with
  | zero =>
    have hjj : jj = 64 := hn
    rw [lmulLoop, hans, hjj, mod_eq_of_lt rop.isLt]
  | succ n ih =>
    have hsplit : rop.toNat % 2 ^ (jj + 1) =
        rop.toNat % 2 ^ jj + 2 ^ jj * (rop.toNat / 2 ^ jj % 2) := mod_pow_succ
    rw [lmulLoop, lshiftl_bit hrop]
    split_ifs with hbit
    · apply ih (by omega)
      rw [hsplit, hbit, mul_zero, add_zero, hans]
    · have hone : rop.toNat / 2 ^ jj % 2 = 1 := by omega
      rw [hone, mul_one] at hsplit
      have hle : rop.toNat % 2 ^ (jj + 1) ≤ rop.toNat := mod_le _ _
      have hall := mul_le_mul_left lop.toNat hle
      rw [hsplit, mul_add] at hall
      -- the mask takes nothing off, and nothing is carried out
      have htmp : (lshiftl lop jj &&& 0x7fffffffffffffff).toNat = lop.toNat * 2 ^ jj := by
        rw [BitVec.toNat_and, lshiftl_toNat (by omega)]
        exact and_two_pow_sub_one_of_lt_two_pow (n := 63) (by omega)
      apply ih (by omega)
      rw [ladd, BitVec.toNat_add, htmp, hans, hsplit, mul_add, mod_eq_of_lt (by omega)]

theorem lmul_toNat : (lmul lop rop).toNat = lop.toNat * rop.toNat := by
  apply lmulLoop_toNat hrop hprod (zero_add 64)
  rw [pow_zero, mod_one]
  rfl

end

/-! ### Division -/

theorem shift_one (h : div.toNat < 2 ^ 63) : (lshiftl div 1).toNat = 2 * div.toNat := by
  have hshift := @lshiftl_toNat div 1 (by omega)
  rw [cast_one] at hshift
  omega

theorem shift_or_one (h : div.toNat < 2 ^ 63) : (lshiftl div 1 ||| 1).toNat = 2 * div.toNat + 1 := by
  have hor := two_pow_add_eq_or_of_lt (i := 1) (b := 1) (by decide) div.toNat
  rw [BitVec.toNat_or, shift_one h]
  exact hor.symm

theorem lsign_shift {dividend : Nat} (hlop : lop.toNat = dividend * 2 ^ (62 - n) % 2 ^ 64)
    (hn : n ≤ 62) : lsign (lshiftl lop 1) = dividend.testBit n ∧
      (lshiftl lop 1).toNat = dividend * 2 ^ (63 - n) % 2 ^ 64 := by
  have hnext : (lshiftl lop 1).toNat = dividend * 2 ^ (63 - n) % 2 ^ 64 := by
    have hshift := lshiftl_left lop 1
    rw [Nat.cast_one] at hshift
    rw [hshift, BitVec.toNat_shiftLeft, Nat.shiftLeft_eq, hlop, Nat.mod_mul_mod, mul_assoc,
      ← Nat.pow_succ, show (62 - n).succ = 63 - n by omega]
  refine ⟨?_, hnext⟩
  rw [lsign, BitVec.msb_eq_getLsbD_last, BitVec.getLsbD, hnext, Nat.testBit_mod_two_pow,
    Nat.testBit_mul_two_pow]
  simp only [show 64 - 1 = 63 from rfl, show 63 - (63 - n) = n by omega]
  simp

theorem lsign_lsub (hdiv : div.toNat < 2 ^ 63) (hrop : rop.toNat < 2 ^ 63) :
    lsign (lsub div rop) = decide (div.toNat < rop.toNat) := by
  rw [lsign, lsub, BitVec.msb_eq_decide, BitVec.toNat_sub]
  refine decide_eq_decide.mpr ?_
  omega

theorem lsub_toNat (h : rop.toNat ≤ div.toNat) : (lsub div rop).toNat = div.toNat - rop.toNat :=
  BitVec.toNat_sub_of_le (BitVec.le_def.mpr h)

/-- `ans` and `div` are the quotient and the remainder of the bits that have come to the front. -/
theorem ldivideLoop_toNat {dividend : Nat} (hdividend : dividend < 2 ^ 63) (hrop : rop.toNat < 2 ^ 62)
    (hn : n ≤ 63) (hlop : lop.toNat = dividend * 2 ^ (63 - n) % 2 ^ 64)
    (hans : dividend / 2 ^ n = ans.toNat * rop.toNat + div.toNat) (hdiv : div.toNat < rop.toNat) :
    (ldivideLoop rop n lop ans div).toNat = dividend / rop.toNat := by
  induction n generalizing lop ans div with
  | zero =>
    rw [Nat.pow_zero, Nat.div_one, mul_comm] at hans
    rw [ldivideLoop]
    calc ans.toNat = (rop.toNat * ans.toNat + div.toNat) / rop.toNat := by
          rw [Nat.mul_add_div (by omega), Nat.div_eq_of_lt hdiv, add_zero]
      _ = dividend / rop.toNat := by rw [← hans]
  | succ n ih =>
    obtain ⟨hsign, hnext⟩ := @lsign_shift lop n dividend
      (by rw [hlop, show 63 - (n + 1) = 62 - n by omega]) (by omega)
    obtain ⟨bit, hbit⟩ : ∃ bit, bit = dividend / 2 ^ n % 2 := ⟨_, rfl⟩
    have hhalf : dividend / 2 ^ n / 2 = dividend / 2 ^ (n + 1) := by
      rw [Nat.div_div_eq_div_mul, Nat.pow_succ]
    have hmore : (if lsign (lshiftl lop 1) then lshiftl div 1 ||| 1 else lshiftl div 1).toNat =
        2 * div.toNat + bit := by
      rw [hsign, Nat.testBit_eq_decide_div_mod_eq, ← hbit]
      by_cases hone : bit = 1
      · rw [decide_eq_true hone, if_pos rfl, shift_or_one (by omega), hone]
      · rw [decide_eq_false hone, if_neg Bool.false_ne_true, shift_one (by omega)]
        omega
    have hquot : ans.toNat ≤ dividend / 2 ^ (n + 1) := by
      rw [hans]
      exact le_trans (Nat.le_mul_of_pos_right _ (by omega)) (Nat.le_add_right _ _)
    have hsmall : ans.toNat < 2 ^ 63 := by
      have hle := Nat.div_le_self dividend (2 ^ (n + 1))
      omega
    have hprefix : dividend / 2 ^ n = 2 * (ans.toNat * rop.toNat + div.toNat) + bit := by
      rw [← hans]
      omega
    rw [ldivideLoop]
    generalize (if lsign (lshiftl lop 1) then lshiftl div 1 ||| 1 else lshiftl div 1) = div' at hmore ⊢
    rw [lsign_lsub (by omega) (by omega)]
    by_cases hless : div'.toNat < rop.toNat
    · rw [decide_eq_true hless, if_pos rfl]
      apply ih (by omega) hnext
      · rw [shift_one hsmall, hmore, hprefix, mul_assoc]
        omega
      · exact hless
    · rw [decide_eq_false hless, if_neg Bool.false_ne_true]
      have hsub := lsub_toNat (Nat.le_of_not_lt hless)
      apply ih (by omega) hnext
      · rw [shift_or_one hsmall, hsub, hmore, hprefix, Nat.add_mul, mul_assoc]
        omega
      · omega

theorem ldivide_toNat (hlop : lop.toNat < 2 ^ 63) (hrop : rop.toNat < 2 ^ 62) (hpos : 0 < rop.toNat) :
    (ldivide lop rop).toNat = lop.toNat / rop.toNat := by
  unfold ldivide
  rw [lsign_false hlop, lsign_false (by omega), if_neg Bool.false_ne_true,
    if_neg Bool.false_ne_true]
  apply ldivideLoop_toNat hlop hrop (Nat.le_refl 63)
  · rw [Nat.sub_self, Nat.pow_zero, mul_one, Nat.mod_eq_of_lt lop.isLt]
  · rw [Nat.div_eq_of_lt hlop]
    simp
  · exact hpos

end Svr42.Dlong

import Mathlib.Data.BitVec

/-! Bitmaps of 32-bit words: `BT_TEST`, `BT_SET`, `BT_CLEAR` and `bt_gethighbit`. -/

namespace Svr42.Bitmap
open Bool Nat

abbrev Words := Nat → BitVec 32

def btTest (bitmap : Words) (bitindex : Nat) : Bool :=
  (bitmap (bitindex >>> 5)).getLsbD (bitindex &&& 0x1f)

def btSet (bitmap : Words) (bitindex : Nat) : Words :=
  Function.update bitmap (bitindex >>> 5)
    (bitmap (bitindex >>> 5) ||| (1#32 <<< (bitindex &&& 0x1f)))

def btClear (bitmap : Words) (bitindex : Nat) : Words :=
  Function.update bitmap (bitindex >>> 5)
    (bitmap (bitindex >>> 5) &&& ~~~(1#32 <<< (bitindex &&& 0x1f)))

/-- The binary search of `bt_gethighbit` in a word that is not zero. -/
def highBit (word : BitVec 32) : Nat :=
  if word &&& 0xffff0000 ≠ 0 then
    if word &&& 0xff000000 ≠ 0 then
      if word &&& 0xf0000000 ≠ 0 then
        if word &&& 0xc0000000 ≠ 0 then
          if word &&& 0x80000000 ≠ 0 then 31 else 30
        else if word &&& 0x20000000 ≠ 0 then 29 else 28
      else if word &&& 0x0c000000 ≠ 0 then
        if word &&& 0x08000000 ≠ 0 then 27 else 26
      else if word &&& 0x02000000 ≠ 0 then 25 else 24
    else if word &&& 0x00f00000 ≠ 0 then
      if word &&& 0x00c00000 ≠ 0 then
        if word &&& 0x00800000 ≠ 0 then 23 else 22
      else if word &&& 0x00200000 ≠ 0 then 21 else 20
    else if word &&& 0x000c0000 ≠ 0 then
      if word &&& 0x00080000 ≠ 0 then 19 else 18
    else if word &&& 0x00020000 ≠ 0 then 17 else 16
  else if word &&& 0x0000ff00 ≠ 0 then
    if word &&& 0x0000f000 ≠ 0 then
      if word &&& 0x0000c000 ≠ 0 then
        if word &&& 0x00008000 ≠ 0 then 15 else 14
      else if word &&& 0x00002000 ≠ 0 then 13 else 12
    else if word &&& 0x00000c00 ≠ 0 then
      if word &&& 0x00000800 ≠ 0 then 11 else 10
    else if word &&& 0x00000200 ≠ 0 then 9 else 8
  else if word &&& 0x000000f0 ≠ 0 then
    if word &&& 0x000000c0 ≠ 0 then
      if word &&& 0x00000080 ≠ 0 then 7 else 6
    else if word &&& 0x00000020 ≠ 0 then 5 else 4
  else if word &&& 0x0000000c ≠ 0 then
    if word &&& 0x00000008 ≠ 0 then 3 else 2
  else if word &&& 0x00000002 ≠ 0 then 1 else 0

/-- Find the highest bit that is on within or below the word `wx`; -1 if none is. -/
def btGethighbit (mapp : Words) : Nat → Int
  | 0 => if mapp 0 = 0 then -1 else ((0 <<< 5 ||| highBit (mapp 0) : Nat) : Int)
  | wx + 1 =>
      if mapp (wx + 1) = 0 then btGethighbit mapp wx
      else (((wx + 1) <<< 5 ||| highBit (mapp (wx + 1)) : Nat) : Int)

variable {map : Words} {word : BitVec 32} {i j k lo n wx : Nat}

/-! ### Single bits -/

theorem index_eq (i : Nat) : i >>> 5 = i / 32 := shiftRight_eq_div_pow i 5

theorem bit_eq (i : Nat) : i &&& 0x1f = i % 32 := and_two_pow_sub_one_eq_mod i 5

theorem index_ext (hword : i >>> 5 = j >>> 5) (hbit : i &&& 0x1f = j &&& 0x1f) : i = j := by
  rw [index_eq, index_eq] at hword
  rw [bit_eq, bit_eq] at hbit
  omega

theorem getLsbD_one (hj : j < 32) : (1#32 <<< i).getLsbD j = decide (j = i) := by
  rw [BitVec.getLsbD_shiftLeft, BitVec.getLsbD_one]
  by_cases heq : j = i
  · simp [heq] ; omega
  · simp [heq]
    omega

theorem btTest_btSet : btTest (btSet map i) j = (btTest map j || decide (j = i)) := by
  unfold btTest btSet
  have hj : j &&& 0x1f < 32 := by
    rw [bit_eq]
    omega
  by_cases hword : j >>> 5 = i >>> 5
  · have hiff : (j &&& 0x1f = i &&& 0x1f) ↔ j = i := ⟨index_ext hword, fun heq => by rw [heq]⟩
    rw [hword, Function.update_self, BitVec.getLsbD_or, getLsbD_one hj]
    simp only [hiff]
  · have hne : j ≠ i := fun heq => hword (by rw [heq])
    rw [Function.update_of_ne hword, decide_eq_false hne, Bool.or_false]

theorem btTest_btClear : btTest (btClear map i) j = (btTest map j && !decide (j = i)) := by
  unfold btTest btClear
  have hj : j &&& 0x1f < 32 := by
    rw [bit_eq]
    omega
  by_cases hword : j >>> 5 = i >>> 5
  · have hiff : (j &&& 0x1f = i &&& 0x1f) ↔ j = i := ⟨index_ext hword, fun heq => by rw [heq]⟩
    rw [hword, Function.update_self, BitVec.getLsbD_and, BitVec.getLsbD_not, getLsbD_one hj,
      decide_eq_true hj, Bool.true_and]
    simp only [hiff]
  · have hne : j ≠ i := fun heq => hword (by rw [heq])
    rw [Function.update_of_ne hword, decide_eq_false hne, Bool.not_false, Bool.and_true]

/-! ### The search in a word -/

def span : Nat → Nat
  | 0 => 1
  | k + 1 => span k + span k

def mask (lo len : Nat) : BitVec 32 := (BitVec.allOnes 32 >>> (32 - len)) <<< lo

/-- The search as it goes on: `k` more tests, from bit `lo`. -/
def halves : Nat → Nat → BitVec 32 → Nat
  | 0, lo, _ => lo
  | k + 1, lo, word =>
      if word &&& mask (lo + span k) (span k) ≠ 0 then halves k (lo + span k) word
      else halves k lo word

theorem highBit_eq (word : BitVec 32) : highBit word = halves 5 0 word := rfl

theorem getLsbD_mask {len : Nat} (hlen : lo + len ≤ 32) (hi : i < 32) :
    (mask lo len).getLsbD i = decide (lo ≤ i ∧ i < lo + len) := by
  unfold mask
  rw [BitVec.getLsbD_shiftLeft, BitVec.getLsbD_ushiftRight, BitVec.getLsbD_allOnes]
  rw [Bool.eq_iff_iff]
  simp only [Bool.and_eq_true, Bool.not_eq_true', decide_eq_true_eq, decide_eq_false_iff_not]
  omega

theorem zero_off : (0 : BitVec 32).getLsbD i = false := BitVec.getLsbD_zero

theorem and_mask_ne {len : Nat} (hlen : lo + len ≤ 32) :
    word &&& mask lo len ≠ 0 ↔ ∃ i, lo ≤ i ∧ i < lo + len ∧ word.getLsbD i = true := by
  constructor
  · intro hne
    by_contra hnone
    apply hne
    apply BitVec.eq_of_getLsbD_eq
    intro i hi
    rw [BitVec.getLsbD_and, getLsbD_mask hlen hi]
    by_cases hin : lo ≤ i ∧ i < lo + len
    · have hoff : word.getLsbD i = false := by
        rw [eq_false_iff]
        exact fun hon => hnone ⟨i, hin.1, hin.2, hon⟩
      rw [hoff, Bool.false_and, zero_off]
    · rw [decide_eq_false hin, Bool.and_false, zero_off]
  · intro hsome heq
    obtain ⟨i, hle, hlt, hon⟩ := hsome
    have hbit : (word &&& mask lo len).getLsbD i = false := by
      rw [heq, zero_off]
    rw [BitVec.getLsbD_and, getLsbD_mask hlen (by omega), hon,
      decide_eq_true (And.intro hle hlt)] at hbit
    cases hbit

/-- A bit that is on, with none on above it below `n`. -/
structure Highest (bits : Nat → Bool) (n b : Nat) : Prop where
  lt : b < n
  on : bits b = true
  above : ∀ i, b < i → i < n → bits i = false

theorem halves_ok (hlen : lo + span k ≤ 32)
    (hsome : ∃ i, lo ≤ i ∧ i < lo + span k ∧ word.getLsbD i = true) :
    Highest word.getLsbD (lo + span k) (halves k lo word) := by
  induction k generalizing lo with
  | zero =>
    obtain ⟨i, hle, hlt, hon⟩ := hsome
    have hi : i = lo := by
      unfold span at hlt
      omega
    rw [hi] at hon
    refine ⟨lt_succ_self lo, hon, fun i hgt hlt => ?_⟩
    unfold span at hlt
    rw [halves] at hgt
    omega
  | succ k ih =>
    have hspan : lo + span (k + 1) = lo + span k + span k := by
      rw [span, add_assoc]
    rw [hspan] at hlen hsome ⊢
    rw [halves]
    split_ifs with hhigh
    · exact ih hlen ((and_mask_ne hlen).mp hhigh)
    · have hoff : ∀ i, lo + span k ≤ i → i < lo + span k + span k → word.getLsbD i = false := by
        intro i hle hlt
        rw [eq_false_iff]
        exact fun hon => hhigh ((and_mask_ne hlen).mpr ⟨i, hle, hlt, hon⟩)
      obtain ⟨i, hle, hlt, hon⟩ := hsome
      have hi : i < lo + span k := by
        by_contra hge
        rw [hoff i (not_lt.mp hge) hlt] at hon
        cases hon
      have hlow := ih (le_trans (le_add_right _ _) hlen) ⟨i, hle, hi, hon⟩
      refine ⟨hlow.lt.trans_le (le_add_right _ _), hlow.on, fun i hgt hlt => ?_⟩
      by_cases hin : i < lo + span k
      · exact hlow.above i hgt hin
      · exact hoff i (not_lt.mp hin) hlt

theorem highBit_ok (hword : word ≠ 0) : Highest word.getLsbD 32 (highBit word) := by
  have hsome : ∃ i, 0 ≤ i ∧ i < 0 + span 5 ∧ word.getLsbD i = true := by
    by_contra hnone
    apply hword
    apply BitVec.eq_of_getLsbD_eq
    intro i hi
    rw [zero_off, eq_false_iff]
    exact fun hon => hnone ⟨i, zero_le i, hi, hon⟩
  rw [highBit_eq]
  exact halves_ok (by decide) hsome

/-! ### The search in the map -/

def Top (bits : Nat → Bool) (n : Nat) (b : Int) : Prop :=
  (b = -1 ∧ ∀ i < n, bits i = false) ∨ ∃ top : Nat, b = top ∧ Highest bits n top

variable {bits : Nat → Bool} {m : Nat}

theorem Top.up {b : Int} (h : Top bits n b) (hle : n ≤ m) (hoff : ∀ i, n ≤ i → i < m → bits i = false) :
    Top bits m b := by
  rcases h with ⟨hnone, hlow⟩ | ⟨top, htop, hhigh⟩
  · refine .inl ⟨hnone, fun i hi => ?_⟩
    by_cases hin : i < n
    · exact hlow i hin
    · exact hoff i (not_lt.mp hin) hi
  · refine .inr ⟨top, htop, hhigh.lt.trans_le hle, hhigh.on, fun i hgt hi => ?_⟩
    by_cases hin : i < n
    · exact hhigh.above i hgt hin
    · exact hoff i (not_lt.mp hin) hi

/-- The highest bit of all is the highest one below any bound the bits keep to. -/
theorem Top.cut {b : Int} (h : Top bits m b) (hm : ∀ i, m ≤ i → bits i = false)
    (hn : ∀ i, n ≤ i → bits i = false) : Top bits n b := by
  rcases h with ⟨hnone, hlow⟩ | ⟨top, htop, hhigh⟩
  · refine .inl ⟨hnone, fun i _ => ?_⟩
    by_cases him : i < m
    · exact hlow i him
    · exact hm i (not_lt.mp him)
  refine .inr ⟨top, htop, ?_, hhigh.on, fun i hgt _ => ?_⟩
  · by_contra hge
    have hon := hhigh.on
    rw [hn top (not_lt.mp hge)] at hon
    cases hon
  · by_cases him : i < m
    · exact hhigh.above i hgt him
    · exact hm i (not_lt.mp him)

theorem Top.set {bits' : Nat → Bool} {b : Int} (h : Top bits n b) (hj : j < n)
    (hbits : ∀ i, bits' i = (bits i || decide (i = j))) : Top bits' n (if b < j then j else b) := by
  have hon : bits' j = true := by
    rw [hbits, decide_eq_true rfl, Bool.or_true]
  have hother : ∀ i, i ≠ j → bits i = false → bits' i = false := by
    intro i hne hoff
    rw [hbits, hoff, decide_eq_false hne, Bool.or_false]
  rcases h with ⟨hnone, hlow⟩ | ⟨top, htop, hhigh⟩
  · rw [hnone, if_pos (by omega)]
    exact .inr ⟨j, rfl, hj, hon, fun i hgt hi => hother i hgt.ne' (hlow i hi)⟩
  split_ifs with hlt
  · exact .inr ⟨j, rfl, hj, hon, fun i hgt hi =>
      hother i hgt.ne' (hhigh.above i (by omega) hi)⟩
  · refine .inr ⟨top, htop, hhigh.lt, ?_, fun i hgt hi =>
      hother i (by omega) (hhigh.above i hgt hi)⟩
    rw [hbits, hhigh.on, Bool.true_or]

theorem Top.clear {bits' : Nat → Bool} {b : Int} (h : Top bits n b) (hne : (j : Int) ≠ b)
    (hbits : ∀ i, bits' i = (bits i && !decide (i = j))) : Top bits' n b := by
  rcases h with ⟨hnone, hlow⟩ | ⟨top, htop, hhigh⟩
  · refine .inl ⟨hnone, fun i hi => ?_⟩
    rw [hbits, hlow i hi, Bool.false_and]
  refine .inr ⟨top, htop, hhigh.lt, ?_, fun i hgt hi => ?_⟩
  · have htop_ne : top ≠ j := by omega
    rw [hbits, hhigh.on, decide_eq_false htop_ne]
    rfl
  · rw [hbits, hhigh.above i hgt hi, Bool.false_and]

theorem btTest_word {b : Nat} (hb : b < 32) : btTest map (wx * 32 + b) = (map wx).getLsbD b := by
  unfold btTest
  rw [index_eq, bit_eq, show (wx * 32 + b) / 32 = wx by omega,
    show (wx * 32 + b) % 32 = b by omega]

theorem shift_or {b : Nat} (hb : b < 32) : wx <<< 5 ||| b = wx * 32 + b := by
  rw [shiftLeft_eq, mul_comm, ← two_pow_add_eq_or_of_lt (show b < 2 ^ 5 from hb)]

/-- The highest bit of a word that is not zero is the highest one up to that word. -/
theorem word_top (hword : map wx ≠ 0) :
    Top (btTest map) ((wx + 1) * 32) ((wx <<< 5 ||| highBit (map wx) : Nat) : Int) := by
  have hhigh := highBit_ok hword
  refine .inr ⟨_, rfl, ?_⟩
  rw [shift_or hhigh.lt]
  refine ⟨?_, ?_, fun i hgt hlt => ?_⟩
  · have hlt := hhigh.lt
    omega
  · rw [btTest_word hhigh.lt]
    exact hhigh.on
  · obtain ⟨b, rfl⟩ : ∃ b, i = wx * 32 + b := ⟨i - wx * 32, by omega⟩
    have hb : b < 32 := by omega
    rw [btTest_word hb]
    exact hhigh.above b (by omega) hb

theorem word_off (hword : map wx = 0) : ∀ i, wx * 32 ≤ i → i < (wx + 1) * 32 → btTest map i = false := by
  intro i hle hlt
  obtain ⟨b, rfl⟩ : ∃ b, i = wx * 32 + b := ⟨i - wx * 32, by omega⟩
  rw [btTest_word (by omega), hword, zero_off]

theorem btGethighbit_ok : Top (btTest map) ((wx + 1) * 32) (btGethighbit map wx) := by
  induction wx with
  | zero =>
    rw [btGethighbit]
    split_ifs with hword
    · exact .inl ⟨rfl, fun i hi => word_off hword i (zero_le i) hi⟩
    · exact word_top hword
  | succ wx ih =>
    rw [btGethighbit]
    split_ifs with hword
    · exact ih.up (mul_le_mul_right _ (le_succ _)) (word_off hword)
    · exact word_top hword

end Svr42.Bitmap

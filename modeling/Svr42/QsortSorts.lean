import Svr42.QsortHalves

/-! The insertion sort of `qsort`, whose sentinel is the least element, and what `qsort` does with arrays of all sizes. -/

namespace Svr42.Qsort
open Int List Nat Option
open SelectSort

variable {α : Type} [Inhabited α] {cmp : α → α → Int} {a a' : List α} {hi i j k lo min size todo : Nat}

theorem smallest_spec (htotal : ∀ x y, cmp x y ≤ 0 ∨ cmp y x ≤ 0)
    (htrans : ∀ x y z, cmp x y ≤ 0 → cmp y z ≤ 0 → cmp x z ≤ 0) (hj : j < lo)
    (hend : lo + todo ≤ a.length) (hleast : ∀ k, k < lo → cmp (get a j) (get a k) ≤ 0) :
    ∃ j', smallest cmp a todo lo j = some j' ∧ j' < lo + todo ∧
      ∀ k, k < lo + todo → cmp (get a j') (get a k) ≤ 0 := by
  induction todo generalizing lo j with
  | zero => exact ⟨j, rfl, hj, hleast⟩
  | succ todo ih =>
    rw [smallest, qcmp_some (by omega) (by omega), bind_some,
      show lo + (todo + 1) = lo + 1 + todo by omega]
    split_ifs with hless
    · have hle := le_of_pos htotal hless
      refine ih (by omega) (by omega) fun k hk => ?_
      rcases Nat.lt_succ_iff_lt_or_eq.mp hk with hk' | rfl
      · exact htrans _ _ _ hle (hleast k hk')
      · exact (htotal _ _).elim id id
    · refine ih (by omega) (by omega) fun k hk => ?_
      rcases Nat.lt_succ_iff_lt_or_eq.mp hk with hk' | rfl
      · exact hleast k hk'
      · omega

/-! ### One insertion -/

theorem scanBack_spec (hhi : 0 < hi) (hmin : hi ≤ min) (hend : min < a.length)
    (hleast : cmp (get a 0) (get a min) ≤ 0) :
    ∃ hi', scanBack cmp a min hi = some hi' ∧ 0 < hi' ∧ hi' ≤ hi ∧
      (∀ k, hi' ≤ k → k < hi → 0 < cmp (get a k) (get a min)) ∧
      cmp (get a (hi' - 1)) (get a min) ≤ 0 := by
  induction hi with
  | zero => omega
  | succ hi ih =>
    rw [scanBack, qcmp_some (by omega) hend, bind_some]
    split_ifs with hmore
    · have hpos : 0 < hi := by
        rcases Nat.eq_zero_or_pos hi with rfl | hpos
        · omega
        · exact hpos
      obtain ⟨hi', hrun, h1, h2, hpassed, hstop⟩ := ih hpos (by omega)
      refine ⟨hi', hrun, h1, by omega, fun k hk1 hk2 => ?_, hstop⟩
      rcases Nat.lt_succ_iff_lt_or_eq.mp hk2 with hk | rfl
      · exact hpassed k hk1 hk
      · exact hmore
    · exact ⟨hi + 1, rfl, hhi, Nat.le_refl _, fun k hk1 hk2 => by omega, by
        rw [Nat.add_sub_cancel]
        omega⟩

theorem shift_get {c : α} (hhi : 0 < hi) (hle : hi ≤ i) (hi' : i < a.length) : get (shift hi c i a) k =
      if k = hi then c else if hi < k ∧ k ≤ i then get a (k - 1) else get a k := by
  induction i generalizing a with
  | zero => omega
  | succ i ih =>
    rw [shift]
    by_cases hge : i ≥ hi
    · rw [if_pos hge, ih hge (by rw [length_set]; omega)]
      rcases Nat.lt_trichotomy k (i + 1) with hk | rfl | hk
      · rw [get_set hi', get_set hi', if_neg (show i + 1 ≠ k - 1 by omega),
          if_neg (show i + 1 ≠ k by omega)]
        by_cases hin : hi < k
        · rw [if_pos (show hi < k ∧ k ≤ i by omega), if_pos (show hi < k ∧ k ≤ i + 1 by omega)]
        · rw [if_neg (show ¬ (hi < k ∧ k ≤ i) by omega),
            if_neg (show ¬ (hi < k ∧ k ≤ i + 1) by omega)]
      · rw [if_neg (show i + 1 ≠ hi by omega), if_neg (show i + 1 ≠ hi by omega),
          if_neg (show ¬ (hi < i + 1 ∧ i + 1 ≤ i) by omega),
          if_pos (show hi < i + 1 ∧ i + 1 ≤ i + 1 by omega), get_set hi', if_pos rfl,
          Nat.add_sub_cancel]
      · rw [if_neg (show k ≠ hi by omega), if_neg (show k ≠ hi by omega),
          if_neg (show ¬ (hi < k ∧ k ≤ i) by omega),
          if_neg (show ¬ (hi < k ∧ k ≤ i + 1) by omega), get_set hi',
          if_neg (show i + 1 ≠ k by omega)]
    · obtain rfl : hi = i + 1 := by omega
      rw [if_neg hge, get_set hi']
      by_cases hk : k = i + 1
      · rw [if_pos hk.symm, if_pos hk]
      · rw [if_neg (fun h => hk h.symm), if_neg hk, if_neg (show ¬ (i + 1 < k ∧ k ≤ i + 1) by omega)]

theorem shift_perm {c : α} (hle : hi ≤ i) (hi' : i < a.length) : (shift hi c i a).Perm (a.set i c) := by
  induction i generalizing a with
  | zero => exact List.Perm.refl _
  | succ i ih =>
    rw [shift]
    by_cases hge : i ≥ hi
    · rw [if_pos hge]
      refine (ih hge (by rw [length_set]; omega)).trans ?_
      -- the hole moves by one place
      have hex : exchange (a.set (i + 1) c) i (i + 1) = (a.set (i + 1) (get a i)).set i c := by
        rw [exchange, get_set hi', get_set hi', if_pos rfl, if_neg (show i + 1 ≠ i by omega),
          set_comm _ _ (show i ≠ i + 1 by omega), set_set,
          set_comm _ _ (show i + 1 ≠ i by omega),
          set_comm _ _ (show i ≠ i + 1 by omega)]
      rw [← hex]
      exact exchange_perm (by rw [length_set]; omega) (by rw [length_set]; omega)
    · rw [if_neg hge]

def SortedBefore (cmp : α → α → Int) (min : Nat) (a : List α) : Prop :=
  ∀ i j, i < j → j < min → cmp (get a i) (get a j) ≤ 0

/-- What the insertion of the element `min` leaves. -/
theorem insert_spec (htotal : ∀ x y, cmp x y ≤ 0 ∨ cmp y x ≤ 0)
    (htrans : ∀ x y z, cmp x y ≤ 0 → cmp y z ≤ 0 → cmp x z ≤ 0) (hmin : 0 < min) (hend : min < a.length)
    (hleast : ∀ x ∈ a, cmp (get a 0) x ≤ 0) (hsorted : SortedBefore cmp min a) :
    ∃ hi, scanBack cmp a min min = some hi ∧
      (if hi ≠ min then shift hi (get a min) min a else a).Perm a ∧
      get (if hi ≠ min then shift hi (get a min) min a else a) 0 = get a 0 ∧
      SortedBefore cmp (min + 1) (if hi ≠ min then shift hi (get a min) min a else a) := by
  obtain ⟨hi, hrun, hpos, hle, hpassed, hstop⟩ :=
    scanBack_spec hmin (Nat.le_refl min) hend (hleast _ (get_mem hend))
  refine ⟨hi, hrun, ?_⟩
  -- nothing before the place is larger
  have hbefore : ∀ k, k < hi → cmp (get a k) (get a min) ≤ 0 := by
    intro k hk
    rcases Nat.eq_or_lt_of_le (show k ≤ hi - 1 by omega) with rfl | hlt
    · exact hstop
    · exact htrans _ _ _ (hsorted k (hi - 1) hlt (by omega)) hstop
  by_cases heq : hi = min
  · rw [if_neg (not_not.mpr heq)]
    refine ⟨List.Perm.refl a, rfl, fun i j hij hj => ?_⟩
    rcases Nat.lt_succ_iff_lt_or_eq.mp hj with hj' | rfl
    · exact hsorted i j hij hj'
    · exact hbefore i (by omega)
  rw [if_pos heq]
  refine ⟨?_, ?_, ?_⟩
  · refine (shift_perm hle hend).trans ?_
    rw [SelectSort.get, getD_eq_getElem a default hend, set_getElem_self]
  · rw [shift_get hpos hle hend, if_neg (show 0 ≠ hi by omega),
      if_neg (show ¬ (hi < 0 ∧ 0 ≤ min) by omega)]
  · intro i j hij hj
    rw [shift_get hpos hle hend, shift_get hpos hle hend]
    rcases Nat.lt_trichotomy j hi with hjhi | rfl | hjhi
    · rw [if_neg (show i ≠ hi by omega), if_neg (show ¬ (hi < i ∧ i ≤ min) by omega),
        if_neg (show j ≠ hi by omega), if_neg (show ¬ (hi < j ∧ j ≤ min) by omega)]
      exact hsorted i j hij (by omega)
    · rw [if_pos rfl, if_neg (show i ≠ j by omega), if_neg (show ¬ (j < i ∧ i ≤ min) by omega)]
      exact hbefore i hij
    · rw [if_neg (show j ≠ hi by omega), if_pos (show hi < j ∧ j ≤ min by omega)]
      rcases Nat.lt_trichotomy i hi with hihi | rfl | hihi
      · rw [if_neg (show i ≠ hi by omega), if_neg (show ¬ (hi < i ∧ i ≤ min) by omega)]
        exact hsorted i (j - 1) (by omega) (by omega)
      · rw [if_pos rfl]
        exact le_of_pos htotal (hpassed (j - 1) (by omega) (by omega))
      · rw [if_neg (show i ≠ hi by omega), if_pos (show hi < i ∧ i ≤ min by omega)]
        exact hsorted (i - 1) (j - 1) (by omega) (by omega)

/-! ### The whole sort -/

theorem insertion_spec (htotal : ∀ x y, cmp x y ≤ 0 ∨ cmp y x ≤ 0)
    (htrans : ∀ x y z, cmp x y ≤ 0 → cmp y z ≤ 0 → cmp x z ≤ 0) (hmin : 0 < min)
    (hend : min + todo = a.length) (hleast : ∀ x ∈ a, cmp (get a 0) x ≤ 0)
    (hsorted : SortedBefore cmp min a) :
    ∃ a', insertion cmp todo min a = some a' ∧ a'.Perm a ∧ SortedBefore cmp a'.length a' := by
  induction todo generalizing min a with
  | zero => exact ⟨a, rfl, List.Perm.refl a, by rw [← hend]; exact hsorted⟩
  | succ todo ih =>
    obtain ⟨hi, hrun, hperm, hfirst, hsorted'⟩ :=
      insert_spec htotal htrans hmin (by omega) hleast hsorted
    rw [insertion, hrun, bind_some]
    obtain ⟨a', hrun', hperm', hall⟩ := ih (by omega) (by rw [hperm.length_eq]; omega)
      (fun x hx => by rw [hfirst]; exact hleast x (hperm.subset hx)) hsorted'
    exact ⟨a', hrun', hperm'.trans hperm, hall⟩

theorem SortedBefore.pairwise (h : SortedBefore cmp a.length a) : a.Pairwise fun x y => cmp x y ≤ 0 := by
  rw [pairwise_iff_getElem]
  intro i j hi hj hij
  have := h i j hij hj
  rwa [SelectSort.get, SelectSort.get, getD_eq_getElem a default hi,
    getD_eq_getElem a default hj] at this

section

variable (htotal : ∀ x y, cmp x y ≤ 0 ∨ cmp y x ≤ 0)
  (htrans : ∀ x y z, cmp x y ≤ 0 → cmp y z ≤ 0 → cmp x z ≤ 0)
include htotal htrans

/-- After `qst`, or without it, the rest of `qsort` sorts if the least element is found. -/
theorem sort_after {n : Nat} (hn : n = a.length) (htwo : 2 ≤ n) (hleast : LeastFirst cmp 0 n a) :
    ∃ a', ((smallest cmp a ((if n ≥ 4 then 4 else n) - 1) 1 0).bind fun j =>
        (if j ≠ 0 then swap a j 0 else some a).bind fun a => insertion cmp (n - 1) 1 a) =
          some a' ∧ a'.Perm a ∧ a'.Pairwise fun x y => cmp x y ≤ 0 := by
  have hbound : 2 ≤ (if n ≥ 4 then 4 else n) ∧ (if n ≥ 4 then 4 else n) ≤ n ∧
      ((if n ≥ 4 then 4 else n) = 4 ∨ (if n ≥ 4 then 4 else n) = n) := by
    split_ifs
    · omega
    · omega
  revert hbound
  generalize (if n ≥ 4 then 4 else n) = hi
  intro hbound
  obtain ⟨j, hrun, hj, hsmall⟩ := smallest_spec htotal htrans (show 0 < 1 by omega)
    (show 1 + (hi - 1) ≤ a.length by omega) fun k hk => by
      obtain rfl : k = 0 := by omega
      exact (htotal _ _).elim id id
  -- what is least among the first ones is least
  have hall : ∀ x ∈ a, cmp (get a j) x ≤ 0 := by
    intro x hx
    obtain ⟨i, hi', hget⟩ := getElem_of_mem hx
    obtain ⟨k, -, hk4, hkn, hk⟩ := hleast
    have hx' := hk i (zero_le i) (hn ▸ hi')
    rw [SelectSort.get.eq_1 a i, getD_eq_getElem a default hi', hget] at hx'
    exact htrans _ _ _ (hsmall k (by omega)) hx'
  rw [hrun, bind_some]
  have hswap : ∃ b, (if j ≠ 0 then swap a j 0 else some a) = some b ∧ b.Perm a ∧ get b 0 = get a j := by
    by_cases hzero : j = 0
    · rw [if_neg (not_not.mpr hzero)]
      exact ⟨a, rfl, List.Perm.refl a, by rw [hzero]⟩
    · rw [if_pos hzero, swap_some (by omega) (by omega)]
      exact ⟨_, rfl, exchange_perm (by omega) (by omega), get_right (by omega) (by omega)⟩
  obtain ⟨b, hb, hperm, hget⟩ := hswap
  have hlength := hperm.length_eq
  rw [hb, bind_some]
  obtain ⟨a', hrun', hperm', hsorted⟩ := insertion_spec htotal htrans (show 0 < 1 by omega)
    (show 1 + (n - 1) = b.length by omega)
    (fun x hx => by rw [hget]; exact hall x (hperm.subset hx)) fun i j h1 h2 => by omega
  exact ⟨a', hrun', hperm'.trans hperm, hsorted.pairwise⟩

theorem qsort_sorts (hsize : 0 < size) (h : a.length < 4 ∨ a.length * size < 0x80000000) :
    ∃ a', qsort cmp size a = some a' ∧ a'.Perm a ∧ a'.Pairwise fun x y => cmp x y ≤ 0 := by
  rw [qsort]
  dsimp only
  by_cases hone : a.length ≤ 1
  · rw [if_pos hone]
    refine ⟨a, rfl, List.Perm.refl a, ?_⟩
    rw [pairwise_iff_getElem]
    intro i j hi hj hij
    omega
  rw [if_neg hone]
  by_cases hfour : a.length ≥ 4
  · obtain ⟨b, hrun, hw, hleast⟩ := qst_spec htotal htrans hsize
      (show 0 + 4 ≤ a.length by omega) (Nat.le_refl _) (by omega)
      (show a.length - 0 < a.length + 1 by omega)
    obtain ⟨a', hrest, hperm, hsorted⟩ := sort_after htotal htrans hw.length.symm (by omega) hleast
    rw [if_pos hfour, hrun, bind_some]
    exact ⟨a', hrest, hperm.trans hw.perm, hsorted⟩
  · rw [if_neg hfour, bind_some]
    exact sort_after htotal htrans rfl (by omega)
      (leastFirst_of_small htotal htrans (by omega) (by omega))

end

/-- The bytes of a large array are counted as a negative number, and the middle element is before the first. -/
theorem qsort_strays (hfour : 4 ≤ a.length) (hlarge : 0x80000000 ≤ a.length * size) (hsize : 0 < size)
    (hfits : a.length * size ≤ MAXUVADR) : qsort cmp size a = none := by
  rw [MAXUVADR] at hfits
  have hfour_bytes : 4 * size ≤ a.length * size := mul_le_mul_right size hfour
  have hqsz : int size = size := int_small (by omega) (by omega)
  have hlo : int (((a.length : Int) - (0 : Nat)) * size) =
      -((0x100000000 - a.length * size : Nat) : Int) := by
    rw [Int.natCast_zero, Int.sub_zero, ← natCast_mul, int, bmod_def]
    omega
  have hmid : (((0 : Nat) : Int) +
      (-((0x100000000 - a.length * size : Nat) : Int)).tdiv size / 2) < (0 : Nat) := by
    rw [Int.neg_tdiv, ← ofNat_tdiv]
    have hone : 1 ≤ (0x100000000 - a.length * size) / size := (le_div_iff_mul_le hsize).mpr (by omega)
    omega
  rw [qsort]
  dsimp only
  rw [if_neg (by omega), if_pos hfour, hqsz, qst]
  rw [hlo, if_pos hmid, bind_none]

/-- `qsort` ends, stays in the array and sorts it, exactly if the array has fewer than four elements or fewer than 2^31 bytes. -/
theorem qsort_sorts_iff (cmp : α → α → Int) (size : Nat) (a : List α)
    (htotal : ∀ x y, cmp x y ≤ 0 ∨ cmp y x ≤ 0)
    (htrans : ∀ x y z, cmp x y ≤ 0 → cmp y z ≤ 0 → cmp x z ≤ 0) (hsize : 0 < size)
    (hfits : a.length * size ≤ MAXUVADR) :
    (∃ a', qsort cmp size a = some a' ∧ a'.Perm a ∧ a'.Pairwise fun x y => cmp x y ≤ 0) ↔
      a.length < 4 ∨ a.length * size < 0x80000000 := by
  constructor
  · rintro ⟨a', hrun, -⟩
    by_contra hlarge
    rw [qsort_strays (by omega) (by omega) hsize hfits] at hrun
    exact some_ne_none a' hrun.symm
  · exact qsort_sorts htotal htrans hsize

theorem qsort_sorts_iff_five :
    (∃ a', qsort (fun x y : Int => x - y) 4 [3, 1, 2, 3, 1] = some a' ∧ a'.Perm [3, 1, 2, 3, 1] ∧
      a'.Pairwise fun x y => x - y ≤ 0) ↔ 5 < 4 ∨ 5 * 4 < 0x80000000 :=
  qsort_sorts_iff (fun x y : Int => x - y) 4 [3, 1, 2, 3, 1] (fun x y => by omega)
    (fun x y z h h' => by omega) (by decide) (by decide)

/-- Four elements of 0x20000000 bytes: the first comparison is with an element before the array. -/
theorem qsort_strays_four : ¬ ∀ (cmp : Int → Int → Int) (size : Nat) (a : List Int),
      (∀ x y, cmp x y ≤ 0 ∨ cmp y x ≤ 0) → (∀ x y z, cmp x y ≤ 0 → cmp y z ≤ 0 → cmp x z ≤ 0) →
      0 < size → a.length * size ≤ MAXUVADR →
      ∃ a', qsort cmp size a = some a' ∧ a'.Perm a ∧ a'.Pairwise fun x y => cmp x y ≤ 0 := by
  intro h
  obtain ⟨a', hrun, -⟩ := h (fun x y => x - y) 0x20000000 [4, 3, 2, 1] (fun x y => by omega)
    (fun x y z h h' => by omega) (by decide) (by decide)
  have hnone : qsort (fun x y : Int => x - y) 0x20000000 [4, 3, 2, 1] = none := by decide
  exact some_ne_none a' (hrun.symm.trans hnone)

end Svr42.Qsort

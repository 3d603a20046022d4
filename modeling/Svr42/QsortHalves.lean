import Svr42.QsortPartition

/-! `qst` leaves the least element among the first `THRESH`, when the bytes of the array can be counted in an `int`. Otherwise the middle
element of the first call lies before the array. -/

namespace Svr42.Qsort
open Int Option SelectSort

variable {α : Type} [Inhabited α] {cmp : α → α → Int} {a a' a'' : List α} {base max lo hi i j mid size : Nat}

theorem int_small {v : Int} (h0 : 0 ≤ v) (h : v < 0x80000000) : int v = v := by
  rw [int, bmod_def]
  omega

omit [Inhabited α] in
/-- The bytes of a part of the array are counted right. -/
theorem int_bytes (hle : lo ≤ hi) (hhi : hi ≤ a.length) (hbytes : a.length * size < 0x80000000) :
    int (((hi : Int) - lo) * size) = ((hi - lo : Nat) : Int) * size := by
  have hpart : (hi - lo) * size ≤ a.length * size := Nat.mul_le_mul_right size (by omega)
  have hpart' : ((hi - lo : Nat) : Int) * size < 0x80000000 := by
    rw [← natCast_mul]
    omega
  rw [← ofNat_sub hle]
  apply int_small _ hpart'
  rw [← natCast_mul]
  omega

/-! ### Least elements -/

def LeastFirst (cmp : α → α → Int) (lo hi : Nat) (a : List α) : Prop :=
  ∃ k, lo ≤ k ∧ k < lo + 4 ∧ k < hi ∧ ∀ i, lo ≤ i → i < hi → cmp (get a k) (get a i) ≤ 0

section Order
variable (htotal : ∀ x y, cmp x y ≤ 0 ∨ cmp y x ≤ 0)
  (htrans : ∀ x y z, cmp x y ≤ 0 → cmp y z ≤ 0 → cmp x z ≤ 0)

include htotal htrans

theorem exists_least (a : List α) (lo len : Nat) :
    ∃ k, lo ≤ k ∧ k < lo + len + 1 ∧ ∀ i, lo ≤ i → i < lo + len + 1 → cmp (get a k) (get a i) ≤ 0 := by
  induction len with
  | zero =>
    refine ⟨lo, Nat.le_refl lo, by omega, fun i h1 h2 => ?_⟩
    obtain rfl : i = lo := by omega
    exact (htotal _ _).elim id id
  | succ len ih =>
    obtain ⟨k, h1, h2, hleast⟩ := ih
    rcases htotal (get a k) (get a (lo + len + 1)) with hle | hle
    · refine ⟨k, h1, by omega, fun i hi1 hi2 => ?_⟩
      rcases Nat.lt_or_ge i (lo + len + 1) with hi | hi
      · exact hleast i hi1 hi
      · obtain rfl : i = lo + len + 1 := by omega
        exact hle
    · refine ⟨lo + len + 1, by omega, by omega, fun i hi1 hi2 => ?_⟩
      rcases Nat.lt_or_ge i (lo + len + 1) with hi | hi
      · exact htrans _ _ _ hle (hleast i hi1 hi)
      · obtain rfl : i = lo + len + 1 := by omega
        exact (htotal _ _).elim id id

theorem leastFirst_of_small (hlt : lo < hi) (hsmall : hi < lo + 4) : LeastFirst cmp lo hi a := by
  obtain ⟨k, h1, h2, hleast⟩ := exists_least htotal htrans a lo (hi - lo - 1)
  exact ⟨k, h1, by omega, by omega, fun i hi1 hi2 => hleast i hi1 (by omega)⟩

/-- The least element before the discriminator, or the discriminator, is the least of all. -/
theorem Parted.leastFirst (h : Parted cmp base max mid mid mid a) (hbase : base ≤ mid) (hmid : mid < max)
    (hleast : base < mid → LeastFirst cmp base mid a) : LeastFirst cmp base max a := by
  rcases Nat.eq_or_lt_of_le hbase with rfl | hlt
  · refine ⟨base, Nat.le_refl base, by omega, hmid, fun i h1 h2 => ?_⟩
    rcases Nat.eq_or_lt_of_le h1 with rfl | hi
    · exact (htotal _ _).elim id id
    · exact h.above i hi h2
  · obtain ⟨k, h1, h2, h3, hk⟩ := hleast hlt
    have hdisc := h.below k h1 h3
    refine ⟨k, h1, h2, by omega, fun i hi1 hi2 => ?_⟩
    rcases Nat.lt_trichotomy i mid with hi | rfl | hi
    · exact hk i hi1 hi
    · exact hdisc
    · exact htrans _ _ _ hdisc (h.above i hi hi2)

end Order

/-! ### The two halves -/

theorem Parted.left (h : Parted cmp base max mid mid mid a) (hw : Within base mid a a') :
    Parted cmp base max mid mid mid a' := by
  constructor
  · intro k h1 h2
    rw [hw.outside mid (.inr (Nat.le_refl mid))]
    exact hw.forall (p := fun x => cmp x (get a mid) ≤ 0) h.below k h1 h2
  · intro k h1 h2
    rw [hw.outside mid (.inr (Nat.le_refl mid)), hw.outside k (.inr (by omega))]
    exact h.above k h1 h2

theorem Parted.right (h : Parted cmp base max mid mid mid a) (hw : Within (mid + 1) max a a') :
    Parted cmp base max mid mid mid a' := by
  constructor
  · intro k h1 h2
    rw [hw.outside mid (.inl (by omega)), hw.outside k (.inl (by omega))]
    exact h.below k h1 h2
  · intro k h1 h2
    rw [hw.outside mid (.inl (by omega))]
    exact hw.forall (p := fun x => cmp (get a mid) x ≤ 0) h.above k h1 h2

theorem LeastFirst.right (h : LeastFirst cmp base mid a) (hw : Within (mid + 1) max a a') :
    LeastFirst cmp base mid a' := by
  obtain ⟨k, h1, h2, h3, hk⟩ := h
  refine ⟨k, h1, h2, h3, fun i hi1 hi2 => ?_⟩
  rw [hw.outside k (.inl (by omega)), hw.outside i (.inl (by omega))]
  exact hk i hi1 hi2

/-- What a call of `qst` for a part of the array does. -/
theorem qst_spec (htotal : ∀ x y, cmp x y ≤ 0 ∨ cmp y x ≤ 0)
    (htrans : ∀ x y z, cmp x y ≤ 0 → cmp y z ≤ 0 → cmp x z ≤ 0) (hsize : 0 < size) {fuel : Nat}
    (hfour : base + 4 ≤ max) (hmax : max ≤ a.length) (hbytes : a.length * size < 0x80000000)
    (hfuel : max - base < fuel) :
    ∃ a', qst cmp (int size) fuel base max a = some a' ∧ Within base max a a' ∧
      LeastFirst cmp base max a' := by
  induction fuel generalizing base max a with
  | zero => omega
  | succ fuel ih =>
    have hfour_bytes : 4 * size ≤ a.length * size := Nat.mul_le_mul_right size (by omega)
    have hqsz : int size = size := int_small (by omega) (by omega)
    have hthresh : int (size * THRESH) = 4 * size := by
      rw [THRESH, int_small (by omega) (by omega)]
      omega
    -- a part is sorted further if it has four elements or more
    have hpart : ∀ (b : List α) (lo hi : Nat), b.length = a.length → base ≤ lo → lo ≤ hi →
        hi ≤ max → hi - lo < max - base →
        ∃ b', (if int (((hi : Int) - lo) * size) ≥ int (size * THRESH) then
            qst cmp size fuel lo hi b else some b) = some b' ∧ Within lo hi b b' ∧
          (lo < hi → LeastFirst cmp lo hi b') := by
      intro b lo hi hlength hlo hle hhi hless
      rw [int_bytes (a := b) hle (by omega) (by rw [hlength]; exact hbytes), hthresh]
      by_cases hlarge : ((hi - lo : Nat) : Int) * size ≥ 4 * size
      · rw [if_pos hlarge]
        have hmany : 4 ≤ hi - lo := by
          by_contra hfew
          have := Nat.mul_lt_mul_of_pos_right (Nat.lt_of_not_le hfew) hsize
          rw [← natCast_mul] at hlarge
          omega
        obtain ⟨b', hrun, hw, hleast⟩ := @ih b lo hi (by omega) (by omega)
          (by rw [hlength]; exact hbytes) (by omega)
        rw [hqsz] at hrun
        exact ⟨b', hrun, hw, fun _ => hleast⟩
      · rw [if_neg hlarge]
        have hfew : hi - lo < 4 := by
          by_contra hmany
          have := Nat.mul_le_mul_right size (Nat.le_of_not_lt hmany)
          rw [← natCast_mul] at hlarge
          omega
        exact ⟨b, rfl, Within.refl lo hi b, fun hlt =>
          leastFirst_of_small htotal htrans hlt (by omega)⟩
    rw [hqsz, qst, int_bytes (a := a) (by omega) hmax hbytes]
    have hmid : (base : Int) + (((max - base : Nat) : Int) * size).tdiv size / 2 =
        ((base + (max - base) / 2 : Nat) : Int) := by
      rw [mul_tdiv_cancel _ (by omega)]
      omega
    rw [hmid, if_neg (by omega), toNat_natCast]
    -- the median, if any, is a change within the part
    have hmedian : ∃ a₁, (if ((max - base : Nat) : Int) * size ≥ int (size * MTHRESH) then
        median cmp base max (base + (max - base) / 2) a else some a) = some a₁ ∧
        Within base max a a₁ := by
      split_ifs
      · exact median_spec hmax (by omega) (by omega)
      · exact ⟨a, rfl, Within.refl base max a⟩
    obtain ⟨a₁, hrun₁, hw₁⟩ := hmedian
    have hlen₁ := hw₁.length
    have hstart : Parted cmp base max base (max - 1) (base + (max - base) / 2) a₁ :=
      ⟨fun k h1 h2 => by omega, fun k h1 h2 => by omega⟩
    obtain ⟨a₂, m, hrun₂, hw₂, hm1, hm2, hparted⟩ := partition_spec htotal
      (show max ≤ a₁.length by omega) (Nat.le_refl base) (Nat.le_add_right base _)
      (show base + (max - base) / 2 ≤ max - 1 by omega) (by omega) hstart
      (show max - 1 - base < a₁.length + 1 by omega)
    have hlen₂ := hw₂.length
    rw [hrun₁, bind_some, hrun₂, bind_some]
    by_cases horder : int (((m : Int) - base) * size) ≤ int (((max : Int) - (m + 1 : Nat)) * size)
    · rw [if_pos horder]
      obtain ⟨a₃, hrun₃, hw₃, hleast₃⟩ := hpart a₂ base m (by omega) (by omega) hm1 (by omega)
        (by omega)
      have hlen₃ := hw₃.length
      obtain ⟨a₄, hrun₄, hw₄, -⟩ := hpart a₃ (m + 1) max (by omega) (by omega) (by omega)
        (by omega) (by omega)
      rw [hrun₃, bind_some, hrun₄]
      refine ⟨a₄, rfl, ?_, ?_⟩
      · exact hw₁.trans (hw₂.trans ((hw₃.mono (Nat.le_refl base) (by omega)).trans
          (hw₄.mono (by omega) (Nat.le_refl max))))
      · exact ((hparted.left hw₃).right hw₄).leastFirst htotal htrans hm1 hm2 fun hlt =>
          (hleast₃ hlt).right hw₄
    · rw [if_neg horder]
      obtain ⟨a₃, hrun₃, hw₃, -⟩ := hpart a₂ (m + 1) max (by omega) (by omega) (by omega)
        (by omega) (by omega)
      have hlen₃ := hw₃.length
      obtain ⟨a₄, hrun₄, hw₄, hleast₄⟩ := hpart a₃ base m (by omega) (by omega) hm1 (by omega)
        (by omega)
      rw [hrun₃, bind_some, hrun₄]
      refine ⟨a₄, rfl, ?_, ?_⟩
      · exact hw₁.trans (hw₂.trans ((hw₃.mono (by omega) (Nat.le_refl max)).trans
          (hw₄.mono (Nat.le_refl base) (by omega))))
      · exact ((hparted.right hw₃).left hw₄).leastFirst htotal htrans hm1 hm2 hleast₄

end Svr42.Qsort

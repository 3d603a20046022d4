import Svr42.Qsort

/-! The partition of `qst`: it ends, stays within its part of the array, and puts the discriminator in its place. -/

namespace Svr42.Qsort
open SelectSort Option

variable {α : Type} [Inhabited α] {cmp : α → α → Int} {a a' a'' : List α} {base max lo hi i j mid k : Nat}

/-! ### Changes within a part of the array -/

/-- The elements from `lo` to `hi` are in another order. -/
structure Within (lo hi : Nat) (a a' : List α) : Prop where
  perm : a'.Perm a
  outside : ∀ k, k < lo ∨ hi ≤ k → get a' k = get a k
  inside : ∀ k, lo ≤ k → k < hi → ∃ k', lo ≤ k' ∧ k' < hi ∧ get a' k = get a k'

theorem Within.refl (lo hi : Nat) (a : List α) : Within lo hi a a :=
  ⟨List.Perm.refl a, fun _ _ => rfl, fun k h1 h2 => ⟨k, h1, h2, rfl⟩⟩

section

variable (h : Within lo hi a a')
include h

theorem Within.trans (h' : Within lo hi a' a'') : Within lo hi a a'' := by
  refine ⟨h'.perm.trans h.perm, fun k hk => (h'.outside k hk).trans (h.outside k hk), ?_⟩
  intro k h1 h2
  obtain ⟨k', h1', h2', heq⟩ := h'.inside k h1 h2
  obtain ⟨k'', h1'', h2'', heq'⟩ := h.inside k' h1' h2'
  exact ⟨k'', h1'', h2'', heq.trans heq'⟩

theorem Within.mono {lo' hi' : Nat} (hlo : lo' ≤ lo) (hhi : hi ≤ hi') : Within lo' hi' a a' := by
  refine ⟨h.perm, fun k hk => h.outside k (by omega), fun k h1 h2 => ?_⟩
  by_cases hin : lo ≤ k ∧ k < hi
  · obtain ⟨k', h1', h2', heq⟩ := h.inside k hin.1 hin.2
    exact ⟨k', by omega, by omega, heq⟩
  · exact ⟨k, h1, h2, h.outside k (by omega)⟩

theorem Within.forall {p : α → Prop} (hp : ∀ k, lo ≤ k → k < hi → p (get a k))
    (k : Nat) (h1 : lo ≤ k) (h2 : k < hi) : p (get a' k) := by
  obtain ⟨k', h1', h2', heq⟩ := h.inside k h1 h2
  rw [heq]
  exact hp k' h1' h2'

theorem Within.length : a'.length = a.length := h.perm.length_eq

end

theorem get_left (hi : i < a.length) (hj : j < a.length) : get (exchange a i j) i = get a j := by
  rw [get_exchange hi hj, if_pos rfl]
  by_cases heq : j = i
  · rw [if_pos heq, heq]
  · rw [if_neg heq]

theorem get_right (hi : i < a.length) (hj : j < a.length) : get (exchange a i j) j = get a i := by
  rw [get_exchange hi hj, if_pos rfl]

theorem get_other (hi : i < a.length) (hj : j < a.length) (hki : k ≠ i) (hkj : k ≠ j) :
    get (exchange a i j) k = get a k := by
  rw [get_exchange hi hj, if_neg hkj.symm, if_neg hki.symm]

theorem Within.exchange (hhi : hi ≤ a.length) (hi1 : lo ≤ i) (hi2 : i < hi) (hj1 : lo ≤ j)
    (hj2 : j < hi) : Within lo hi a (exchange a i j) := by
  have hia : i < a.length := by omega
  have hja : j < a.length := by omega
  refine ⟨exchange_perm hia hja, fun k hk => get_other hia hja (by omega) (by omega), ?_⟩
  intro k h1 h2
  by_cases hkj : k = j
  · exact ⟨i, hi1, hi2, by rw [hkj, get_right hia hja]⟩
  · by_cases hki : k = i
    · exact ⟨j, hj1, hj2, by rw [hki, get_left hia hja]⟩
    · exact ⟨k, h1, h2, get_other hia hja hki hkj⟩

theorem qcmp_some (hi : i < a.length) (hj : j < a.length) :
    qcmp cmp a i j = some (cmp (get a i) (get a j)) := if_pos ⟨hi, hj⟩

theorem swap_some (hi : i < a.length) (hj : j < a.length) : swap a i j = some (exchange a i j) :=
  if_pos ⟨hi, hj⟩

/-! ### The scans -/

variable {fuel : Nat}

theorem scanUp_spec (cmp : α → α → Int) (hmid : mid < a.length) (hi : i ≤ mid) (hfuel : mid - i < fuel) :
    ∃ i', scanUp cmp a mid fuel i = some i' ∧ i ≤ i' ∧ i' ≤ mid ∧
      (∀ k, i ≤ k → k < i' → cmp (get a k) (get a mid) ≤ 0) ∧
      (i' < mid → 0 < cmp (get a i') (get a mid)) := by
  induction fuel generalizing i with
  | zero => omega
  | succ fuel ih =>
    rw [scanUp]
    split_ifs with hlt
    · rw [qcmp_some (by omega) hmid, bind_some]
      split_ifs with hle
      · obtain ⟨i', heq, h1, h2, hpassed, hstop⟩ := ih (i := i + 1) hlt (by omega)
        refine ⟨i', heq, by omega, h2, fun k hk1 hk2 => ?_, hstop⟩
        rcases Nat.eq_or_lt_of_le hk1 with rfl | hk
        · exact hle
        · exact hpassed k hk hk2
      · exact ⟨i, rfl, Nat.le_refl i, hi, fun k hk1 hk2 => by omega, fun _ => by omega⟩
    · exact ⟨i, rfl, Nat.le_refl i, hi, fun k hk1 hk2 => by omega, fun h => absurd h hlt⟩

theorem scanDown_spec (cmp : α → α → Int) (hj : j < a.length) (hmid : mid ≤ j) (hfuel : j - mid < fuel) :
    ∃ j', scanDown cmp a mid fuel j = some j' ∧ mid ≤ j' ∧ j' ≤ j ∧
      (∀ k, j' < k → k ≤ j → cmp (get a mid) (get a k) ≤ 0) ∧
      (mid < j' → 0 < cmp (get a mid) (get a j')) := by
  induction fuel generalizing j with
  | zero => omega
  | succ fuel ih =>
    rw [scanDown]
    split_ifs with hlt
    · rw [qcmp_some (by omega) hj, bind_some]
      split_ifs with hle
      · obtain ⟨j', heq, h1, h2, hpassed, hstop⟩ := ih (j := j - 1) (by omega) (by omega) (by omega)
        refine ⟨j', heq, h1, by omega, fun k hk1 hk2 => ?_, hstop⟩
        rcases Nat.eq_or_lt_of_le hk2 with rfl | hk
        · exact hle
        · exact hpassed k hk1 (by omega)
      · exact ⟨j, rfl, hmid, Nat.le_refl j, fun k hk1 hk2 => by omega, fun _ => by omega⟩
    · exact ⟨j, rfl, hmid, Nat.le_refl j, fun k hk1 hk2 => by omega, fun h => absurd h hlt⟩

/-! ### The partition -/

/-- The discriminator is at `mid`; the elements before `i` are not larger, those after `j` not smaller. -/
structure Parted (cmp : α → α → Int) (base max i j mid : Nat) (a : List α) : Prop where
  below : ∀ k, base ≤ k → k < i → cmp (get a k) (get a mid) ≤ 0
  above : ∀ k, j < k → k < max → cmp (get a mid) (get a k) ≤ 0

omit [Inhabited α] in
theorem le_of_pos (htotal : ∀ x y, cmp x y ≤ 0 ∨ cmp y x ≤ 0) {x y : α} (h : 0 < cmp x y) : cmp y x ≤ 0 :=
  (htotal x y).resolve_left (by omega)

theorem partition_spec (htotal : ∀ x y, cmp x y ≤ 0 ∨ cmp y x ≤ 0) (hmax : max ≤ a.length)
    (hbase : base ≤ i) (hi : i ≤ mid) (hmid : mid ≤ j) (hj : j < max)
    (hparted : Parted cmp base max i j mid a) (hfuel : j - i < fuel) :
    ∃ a' m, partition cmp fuel i j mid a = some (a', m) ∧ Within base max a a' ∧ base ≤ m ∧
      m < max ∧ Parted cmp base max m m m a' := by
  induction fuel generalizing i j mid a with
  | zero => omega
  | succ fuel ih =>
    obtain ⟨i', hup, hi1, hi2, hpassed, hstop⟩ :=
      scanUp_spec cmp (show mid < a.length by omega) hi (show mid - i < a.length + 1 by omega)
    obtain ⟨j', hdown, hj1, hj2, hpassed', hstop'⟩ :=
      scanDown_spec cmp (show j < a.length by omega) hmid (show j - mid < a.length + 1 by omega)
    have hbelow : ∀ k, base ≤ k → k < i' → cmp (get a k) (get a mid) ≤ 0 := by
      intro k h1 h2
      rcases Nat.lt_or_ge k i with h | h
      · exact hparted.below k h1 h
      · exact hpassed k h h2
    have habove : ∀ k, j' < k → k < max → cmp (get a mid) (get a k) ≤ 0 := by
      intro k h1 h2
      rcases Nat.lt_or_ge j k with h | h
      · exact hparted.above k h h2
      · exact hpassed' k h1 h
    rw [partition, hup, bind_some, hdown, bind_some]
    have hia : i' < a.length := by omega
    have hja : j' < a.length := by omega
    have hma : mid < a.length := by omega
    by_cases hright : j' > mid
    · have hless := le_of_pos htotal (hstop' hright)
      rw [if_pos hright]
      by_cases heq : i' = mid
      · -- the discriminator goes to `j`
        rw [if_pos heq, swap_some hia hja, bind_some]
        have hwithin : Within base max a (exchange a i' j') :=
          Within.exchange hmax (by omega) (by omega) (by omega) (by omega)
        have hnext : Parted cmp base max (i' + 1) j' j' (exchange a i' j') := by
          constructor
          · intro k h1 h2
            rw [get_right hia hja, heq]
            rcases Nat.lt_succ_iff_lt_or_eq.mp h2 with h | h
            · rw [get_other (heq ▸ hia) hja (by omega) (by omega)]
              exact hbelow k h1 h
            · rw [h, heq, get_left hma hja]
              exact hless
          · intro k h1 h2
            rw [get_right hia hja, heq, get_other hma hja (by omega) (by omega)]
            exact habove k h1 h2
        obtain ⟨a', m, hrun, hwithin', hm⟩ := ih (by rw [exchange_length]; exact hmax) (by omega)
          (by omega) (Nat.le_refl j') (by omega) hnext (by omega)
        exact ⟨a', m, hrun, hwithin.trans hwithin', hm⟩
      · -- both elements go to the other side
        have hmore := le_of_pos htotal (hstop (by omega))
        rw [if_neg heq, swap_some hia hja, bind_some]
        have hwithin : Within base max a (exchange a i' j') :=
          Within.exchange hmax (by omega) (by omega) (by omega) (by omega)
        have hnext : Parted cmp base max (i' + 1) (j' - 1) mid (exchange a i' j') := by
          constructor
          · intro k h1 h2
            rw [get_other hia hja (show mid ≠ i' by omega) (show mid ≠ j' by omega)]
            rcases Nat.lt_succ_iff_lt_or_eq.mp h2 with h | h
            · rw [get_other hia hja (by omega) (by omega)]
              exact hbelow k h1 h
            · rw [h, get_left hia hja]
              exact hless
          · intro k h1 h2
            rw [get_other hia hja (show mid ≠ i' by omega) (show mid ≠ j' by omega)]
            by_cases hk : k = j'
            · rw [hk, get_right hia hja]
              exact hmore
            · rw [get_other hia hja (by omega) hk]
              exact habove k (by omega) h2
        obtain ⟨a', m, hrun, hwithin', hm⟩ := ih (by rw [exchange_length]; exact hmax) (by omega)
          (by omega) (by omega) (by omega) hnext (by omega)
        exact ⟨a', m, hrun, hwithin.trans hwithin', hm⟩
    · rw [if_neg hright]
      obtain rfl : j' = mid := by omega
      by_cases heq : i' = j'
      · rw [if_pos heq]
        rw [heq] at hbelow
        exact ⟨a, j', rfl, Within.refl base max a, by omega, by omega, ⟨hbelow, habove⟩⟩
      -- the discriminator goes to `i`
      have hmore := le_of_pos htotal (hstop (by omega))
      rw [if_neg heq, swap_some hia hja, bind_some]
      have hwithin : Within base max a (exchange a i' j') :=
        Within.exchange hmax (by omega) (by omega) (by omega) (by omega)
      have hnext : Parted cmp base max i' (j' - 1) i' (exchange a i' j') := by
        constructor
        · intro k h1 h2
          rw [get_left hia hja, get_other hia hja (by omega) (by omega)]
          exact hbelow k h1 h2
        · intro k h1 h2
          rw [get_left hia hja]
          by_cases hk : k = j'
          · rw [hk, get_right hia hja]
            exact hmore
          · rw [get_other hia hja (by omega) hk]
            exact habove k (by omega) h2
      obtain ⟨a', m, hrun, hwithin', hm⟩ := ih (by rw [exchange_length]; exact hmax) (by omega)
        (Nat.le_refl i') (by omega) (by omega) hnext (by omega)
      exact ⟨a', m, hrun, hwithin.trans hwithin', hm⟩

/-! ### The median -/

theorem median_spec (hmax : max ≤ a.length) (hbase : base ≤ mid) (hmid : mid < max) :
    ∃ a', median cmp base max mid a = some a' ∧ Within base max a a' := by
  have hba : base < a.length := by omega
  have hma : mid < a.length := by omega
  have hta : max - 1 < a.length := by omega
  -- whatever is chosen is one of the three
  have hswap : ∀ j, j = base ∨ j = mid ∨ j = max - 1 →
      ∃ a', (if j ≠ mid then swap a mid j else some a) = some a' ∧ Within base max a a' := by
    intro j hj
    by_cases heq : j = mid
    · rw [if_neg (not_not.mpr heq)]
      exact ⟨a, rfl, Within.refl base max a⟩
    · rw [if_pos heq, swap_some hma (by omega)]
      exact ⟨_, rfl, Within.exchange hmax hbase hmid (by omega) (by omega)⟩
  rw [median, qcmp_some hba hma, bind_some]
  dsimp only
  have hfirst : (if cmp (get a base) (get a mid) > 0 then base else mid) = base ∨
      (if cmp (get a base) (get a mid) > 0 then base else mid) = mid := by
    split_ifs
    · exact .inl rfl
    · exact .inr rfl
  generalize (if cmp (get a base) (get a mid) > 0 then base else mid) = j at *
  have hja : j < a.length := by omega
  rw [qcmp_some hja hta, bind_some]
  by_cases hlarge : cmp (get a j) (get a (max - 1)) > 0
  · rw [if_pos hlarge]
    have hloser : (if j = base then mid else base) = base ∨ (if j = base then mid else base) = mid := by
      split_ifs
      · exact .inr rfl
      · exact .inl rfl
    generalize (if j = base then mid else base) = j at *
    rw [qcmp_some (by omega) hta, bind_some]
    apply hswap
    split_ifs
    · exact .inr (.inr rfl)
    · exact hloser.imp_right .inl
  · rw [if_neg hlarge]
    exact hswap j (hfirst.imp_right .inl)

end Svr42.Qsort

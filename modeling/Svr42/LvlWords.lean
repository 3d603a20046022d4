import Svr42.LvlIn
import Mathlib.Data.List.Perm.Basic

/-! The categories of a level structure: packed words give them in order, and determine each other. -/

namespace Svr42.Lvl
open List Nat

variable {lvl buf : MacLevel} {cat cat' : BitVec 32} {c i j k m n s w todo : Nat} {cats : List Nat}

/-! ### One word -/

def bit (cat : BitVec 32) (i : Nat) : Bool := cat.getLsbD (31 - i)

theorem catmask_eq (hi : i < 32) : catmask i = BitVec.twoPow 32 (31 - i) := by
  have hall : ∀ i < 32, catmask i = BitVec.twoPow 32 (31 - i) := by decide
  exact hall i hi

theorem and_catmask (hi : i < 32) : cat &&& catmask i ≠ 0 ↔ bit cat i = true := by
  rw [catmask_eq hi, BitVec.and_twoPow, bit]
  split_ifs with hbit
  · refine iff_of_true (fun h => ?_) hbit
    have hone : (BitVec.twoPow 32 (31 - i)).getLsbD (31 - i) = true := by
      rw [BitVec.getLsbD_twoPow]
      simp
      omega
    rw [h] at hone
    simp at hone
  · exact iff_of_false (fun h => h rfl) hbit

theorem or_catmask (hi : i < 32) (hk : k < 32) :
    bit (cat ||| catmask i) k = (bit cat k || decide (k = i)) := by
  rw [catmask_eq hi, bit, bit, BitVec.getLsbD_or, BitVec.getLsbD_twoPow]
  congr 1
  by_cases heq : k = i
  · simp [heq]
    omega
  · simp [heq]
    omega

theorem eq_of_bits (h : ∀ i < 32, bit cat i = bit cat' i) : cat = cat' := by
  apply BitVec.eq_of_getLsbD_eq
  intro i hi
  have hbit := h (31 - i) (by omega)
  rwa [bit, bit, show 31 - (31 - i) = i by omega] at hbit

theorem exists_bit (h : cat ≠ 0) : ∃ i, i < 32 ∧ bit cat i = true := by
  by_contra hnone
  apply h
  apply eq_of_bits
  intro i hi
  rw [bit, bit, show BitVec.getLsbD 0 (31 - i) = false from BitVec.getLsbD_zero]
  by_contra hbit
  exact hnone ⟨i, hi, Bool.not_eq_false _ ▸ hbit⟩

theorem mem_wordCats : c ∈ wordCats cat s ↔ ∃ i, i < 32 ∧ bit cat i = true ∧ c = 1 + (s - 1) * 32 + i := by
  rw [wordCats, mem_map]
  simp only [mem_filter, mem_range, NB_LONG, CAT_SHIFT, shiftLeft_eq, decide_eq_true_eq]
  constructor
  · rintro ⟨i, ⟨hi, hbit⟩, rfl⟩
    exact ⟨i, hi, (and_catmask hi).mp hbit, rfl⟩
  · rintro ⟨i, hi, hbit, rfl⟩
    exact ⟨i, ⟨hi, (and_catmask hi).mpr hbit⟩, rfl⟩

theorem wordCats_sorted : (wordCats cat s).Pairwise (· < ·) := by
  rw [wordCats, pairwise_map]
  refine List.Pairwise.imp ?_ (List.Pairwise.filter _ pairwise_lt_range)
  intro a b hab
  omega

/-! ### Packed words -/

/-- The first `m` words are in use, in the order of their categories, and the others are zero. -/
structure Packed (lvl : MacLevel) (m : Nat) : Prop where
  le : m ≤ CAT_SIZE
  sig : ∀ j, j < m → 0 < lvl.lvlCatsig j ∧ lvl.lvlCatsig j ≤ CAT_SIZE ∧ lvl.lvlCat j ≠ 0
  mono : ∀ i j, i < j → j < m → lvl.lvlCatsig i < lvl.lvlCatsig j
  rest : ∀ j, m ≤ j → j ≤ CAT_SIZE → lvl.lvlCatsig j = 0
  zero : ∀ j, m ≤ j → j < CAT_SIZE → lvl.lvlCat j = 0

section

variable (h : Packed lvl m)
include h

theorem Packed.categoriesFrom (hj : j ≤ m) (htodo : j + todo = CAT_SIZE) : categoriesFrom lvl todo j =
      (range' j (m - j)).flatMap fun j => wordCats (lvl.lvlCat j) (lvl.lvlCatsig j) := by
  induction todo generalizing j with
  | zero =>
    have := h.le
    rw [Lvl.categoriesFrom, show m - j = 0 by omega]
    rfl
  | succ todo ih =>
    rw [Lvl.categoriesFrom]
    rcases Nat.eq_or_lt_of_le hj with rfl | hlt
    · rw [if_pos (h.rest j (Nat.le_refl j) (by omega)), Nat.sub_self]
      rfl
    · rw [if_neg (Nat.ne_of_gt (h.sig j hlt).1), ih hlt (by omega),
        show m - j = (m - (j + 1)) + 1 by omega, range'_succ, flatMap_cons]

theorem Packed.categories : categories lvl =
    (range' 0 m).flatMap fun j => wordCats (lvl.lvlCat j) (lvl.lvlCatsig j) :=
  h.categoriesFrom (zero_le m) (Nat.zero_add CAT_SIZE)

theorem Packed.mem_categories : c ∈ Lvl.categories lvl ↔
    ∃ j i, j < m ∧ i < 32 ∧ bit (lvl.lvlCat j) i = true ∧ c = 1 + (lvl.lvlCatsig j - 1) * 32 + i := by
  rw [h.categories, mem_flatMap]
  simp only [mem_range'_1, mem_wordCats]
  constructor
  · rintro ⟨j, ⟨-, hj⟩, i, hi, hbit, hc⟩
    exact ⟨j, i, by omega, hi, hbit, hc⟩
  · rintro ⟨j, i, hj, hi, hbit, hc⟩
    exact ⟨j, ⟨zero_le j, by omega⟩, i, hi, hbit, hc⟩

theorem Packed.sorted : (Lvl.categories lvl).Pairwise (· < ·) := by
  rw [h.categories, pairwise_flatMap]
  refine ⟨fun j _ => wordCats_sorted, ?_⟩
  rw [pairwise_iff_getElem]
  intro a b ha hb hab x hx y hy
  rw [length_range'] at ha hb
  rw [getElem_range'] at hx hy
  obtain ⟨i, hi, -, rfl⟩ := mem_wordCats.mp hx
  obtain ⟨k, hk, -, rfl⟩ := mem_wordCats.mp hy
  have hlow := (h.sig (0 + 1 * a) (by omega)).1
  have hmono := h.mono (0 + 1 * a) (0 + 1 * b) (by omega) (by omega)
  omega

theorem Packed.nodup : (Lvl.categories lvl).Nodup :=
  h.sorted.imp fun hlt => ne_of_lt hlt

theorem Packed.range (hc : c ∈ Lvl.categories lvl) : 1 ≤ c ∧ c ≤ MAXCATS := by
  obtain ⟨j, i, hj, hi, -, rfl⟩ := h.mem_categories.mp hc
  obtain ⟨hlow, hhigh, -⟩ := h.sig j hj
  unfold CAT_SIZE at hhigh
  unfold MAXCATS
  omega

theorem Packed.mem_sigs : s ∈ (List.range m).map lvl.lvlCatsig ↔
    0 < s ∧ ∃ i, i < 32 ∧ 1 + (s - 1) * 32 + i ∈ Lvl.categories lvl := by
  simp only [mem_map, mem_range, h.mem_categories]
  constructor
  · rintro ⟨j, hj, rfl⟩
    obtain ⟨hlow, -, hcat⟩ := h.sig j hj
    obtain ⟨i, hi, hbit⟩ := exists_bit hcat
    exact ⟨hlow, i, hi, j, i, hj, hi, hbit, rfl⟩
  · rintro ⟨hs, i, hi, j, k, hj, hk, -, heq⟩
    have hlow := (h.sig j hj).1
    exact ⟨j, hj, by omega⟩

/-- Packed words with the same categories are the same. -/
theorem Packed.unique (h' : Packed buf n)
    (hsame : ∀ c, c ∈ Lvl.categories lvl ↔ c ∈ Lvl.categories buf) :
    m = n ∧ ∀ j, j < m → lvl.lvlCatsig j = buf.lvlCatsig j ∧ lvl.lvlCat j = buf.lvlCat j := by
  have hsorted : ∀ {lvl : MacLevel} {m : Nat}, Packed lvl m →
      ((List.range m).map lvl.lvlCatsig).Pairwise (· < ·) := by
    intro lvl m h
    rw [pairwise_map, pairwise_iff_getElem]
    intro a b ha hb hab
    rw [length_range] at ha hb
    rw [getElem_range, getElem_range]
    exact h.mono a b hab hb
  have hsigs : (List.range m).map lvl.lvlCatsig = (List.range n).map buf.lvlCatsig := by
    refine List.Perm.eq_of_pairwise (fun a b _ _ hab hba => by omega) (hsorted h) (hsorted h') ?_
    rw [perm_ext_iff_of_nodup ((hsorted h).imp fun hlt => Nat.ne_of_lt hlt)
      ((hsorted h').imp fun hlt => Nat.ne_of_lt hlt)]
    intro s
    simp only [h.mem_sigs, h'.mem_sigs, hsame]
  have hlength := congrArg List.length hsigs
  simp only [length_map, length_range] at hlength
  refine ⟨hlength, fun j hj => ?_⟩
  have hsig : lvl.lvlCatsig j = buf.lvlCatsig j := by
    have hget := congrArg (fun l => l[j]?) hsigs
    simpa [List.getElem?_map, List.getElem?_range, hj, ← hlength] using hget
  refine ⟨hsig, eq_of_bits fun i hi => ?_⟩
  have hlow := (h.sig j hj).1
  -- a bit of the word is a category
  have hbit : ∀ {lvl : MacLevel} {m : Nat}, Packed lvl m → j < m → 0 < lvl.lvlCatsig j →
      (bit (lvl.lvlCat j) i = true ↔ 1 + (lvl.lvlCatsig j - 1) * 32 + i ∈ Lvl.categories lvl) := by
    intro lvl m h hj hlow
    rw [h.mem_categories]
    constructor
    · intro hbit
      exact ⟨j, i, hj, hi, hbit, rfl⟩
    · rintro ⟨j', i', hj', hi', hbit, heq⟩
      have hlow' := (h.sig j' hj').1
      obtain rfl : i' = i := by omega
      rcases Nat.lt_trichotomy j' j with hlt | rfl | hlt
      · have := h.mono j' j hlt hj
        omega
      · exact hbit
      · have := h.mono j j' hlt hj'
        omega
  have hmine := hbit h hj hlow
  have hother := hbit h' (hlength ▸ hj) (hsig ▸ hlow)
  rw [hsig, hsame] at hmine
  exact Bool.eq_iff_iff.mpr (hmine.trans hother.symm)

end

/-! ### The comparison -/

theorem sameCats_categoriesFrom (h : sameCats lvl buf (todo + 1) i = true) :
    categoriesFrom lvl todo i = categoriesFrom buf todo i := by
  induction todo generalizing i with
  | zero => rfl
  | succ todo ih =>
    rw [sameCats] at h
    split_ifs at h with hsig hzero hcat
    · rw [categoriesFrom, categoriesFrom, not_not.mp hsig, if_pos hzero, if_pos hzero]
    · rw [categoriesFrom, categoriesFrom, not_not.mp hsig, if_neg hzero, if_neg hzero,
        not_not.mp hcat, ih h]

theorem sameCats_of_eq (h : Packed lvl m) (h' : Packed buf m)
    (hsame : ∀ j, j < m → lvl.lvlCatsig j = buf.lvlCatsig j ∧ lvl.lvlCat j = buf.lvlCat j) (hi : i ≤ m)
    (htodo : i + todo = CAT_SIZE) : sameCats lvl buf (todo + 1) i = true := by
  have hm := h.le
  induction todo generalizing i with
  | zero =>
    rw [sameCats, h.rest i (by omega) (by omega), h'.rest i (by omega) (by omega),
      if_neg (fun h => h rfl), if_pos rfl]
  | succ todo ih =>
    rw [sameCats]
    rcases Nat.eq_or_lt_of_le hi with rfl | hlt
    · rw [h.rest i (by omega) (by omega), h'.rest i (by omega) (by omega),
        if_neg (fun h => h rfl), if_pos rfl]
    obtain ⟨hsig, hcat⟩ := hsame i hlt
    rw [if_neg (not_not.mpr hsig), if_neg (Nat.ne_of_gt (h'.sig i hlt).1), if_neg (not_not.mpr hcat)]
    exact ih hlt (by omega)

theorem sameCats_iff (h : Packed lvl m) (h' : Packed buf n) :
    sameCats lvl buf (CAT_SIZE + 1) 0 = true ↔ categories lvl = categories buf := by
  constructor
  · exact sameCats_categoriesFrom
  · intro heq
    obtain ⟨rfl, hsame⟩ := h.unique h' fun c => by rw [heq]
    exact sameCats_of_eq h h' hsame (Nat.zero_le m) (Nat.zero_add CAT_SIZE)

end Svr42.Lvl

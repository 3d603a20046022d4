import Mathlib.Data.Multiset.Range

/-! Binary heaps in an array, and the hole that moves through one while an entry finds its place.
A sift shows that each of its moves is `moveUp` or `moveDown` and that it stops where `fill` can
be used. -/

namespace Svr42.HeapSift
open Function Multiset

variable {Entry Key : Type*} [LinearOrder Key] {key : Entry → Key} {a : Nat → Entry}
  {n i j k : Nat} {t : Key} {x : Entry}

def up (j : Nat) : Nat := (j - 1) / 2

def Heap (key : Entry → Key) (a : Nat → Entry) (n : Nat) : Prop :=
  ∀ i < n, 0 < i → key (a (up i)) ≤ key (a i)

/-- The entries off `j` are in heap order, and those below `j` are not before the one above it. -/
structure Hole (key : Entry → Key) (a : Nat → Entry) (n j : Nat) : Prop where
  order : ∀ i < n, 0 < i → i ≠ j → up i ≠ j → key (a (up i)) ≤ key (a i)
  bridge : 0 < j → ∀ i < n, 0 < i → up i = j → key (a (up j)) ≤ key (a i)

def Below (key : Entry → Key) (a : Nat → Entry) (n j : Nat) (t : Key) : Prop :=
  ∀ i < n, 0 < i → up i = j → t ≤ key (a i)

def Above (key : Entry → Key) (a : Nat → Entry) (j : Nat) (t : Key) : Prop :=
  0 < j → key (a (up j)) ≤ t

theorem up_lt (hj : 0 < j) : up j < j := by
  unfold up
  omega

section

variable (h : Heap key a n)
include h

theorem Heap.mono (hk : k ≤ n) : Heap key a k :=
  fun i hi => h i (hi.trans_le hk)

theorem Heap.first (hi : i < n) : key (a 0) ≤ key (a i) := by
  induction i using Nat.strongRecOn with
  | ind i ih =>
    rcases Nat.eq_zero_or_pos i with hzero | hpos
    · rw [hzero]
    · have hlt := up_lt hpos
      exact le_trans (ih (up i) hlt (by omega)) (h i hi hpos)

theorem Heap.hole (j : Nat) : Hole key a n j where
  order i hi hpos _ _ := h i hi hpos
  bridge hj i hi hpos hup := by
    have hlt := up_lt hpos
    have hbelow := h i hi hpos
    rw [hup] at hlt hbelow
    exact le_trans (h j (by omega) hj) hbelow

theorem Heap.hole_end : Hole key a (n + 1) n where
  order i hi hpos hne _ := h i (by omega) hpos
  bridge _ i hi hpos hup := by
    have hlt := up_lt hpos
    omega

end

theorem below_end : Below key a (n + 1) n t := by
  intro i hi hpos hup
  have hlt := up_lt hpos
  omega

theorem Hole.fill (h : Hole key a n j) (hbelow : Below key a n j (key x))
    (habove : Above key a j (key x)) : Heap key (update a j x) n := by
  intro i hi hpos
  have hlt := up_lt hpos
  by_cases hij : i = j
  · have hne : up i ≠ i := hlt.ne
    rw [← hij] at habove ⊢
    rw [update_self, update_of_ne hne]
    exact habove hpos
  · rw [update_of_ne hij]
    by_cases hup : up i = j
    · rw [hup, update_self]
      exact hbelow i hi hpos hup
    · rw [update_of_ne hup]
      exact h.order i hi hpos hij hup

theorem Hole.moveUp (h : Hole key a n j) (hj : 0 < j) (hjn : j < n) (ht : t < key (a (up j))) :
    Hole key (update a j (a (up j))) n (up j) ∧ Below key (update a j (a (up j))) n (up j) t := by
  have hlt := up_lt hj
  -- every child of the new hole is at or after the entry that was there
  have hchild : ∀ i < n, 0 < i → up i = up j → key (a (up j)) ≤ key (update a j (a (up j)) i) := by
    intro i hi hpos hup
    by_cases hij : i = j
    · rw [hij, update_self]
    · rw [update_of_ne hij, ← hup]
      exact h.order i hi hpos hij (by omega)
  refine ⟨⟨fun i hi hpos hne hup => ?_, fun hpos' i hi hpos hup => ?_⟩, fun i hi hpos hup => ?_⟩
  · have hij : i ≠ j := fun heq => hup (by rw [heq])
    rw [update_of_ne hij]
    by_cases hup' : up i = j
    · rw [hup', update_self]
      exact h.bridge hj i hi hpos hup'
    · rw [update_of_ne hup']
      exact h.order i hi hpos hij hup'
  · have hlt' := up_lt hpos'
    rw [update_of_ne (by omega)]
    exact le_trans (h.order (up j) (by omega) hpos' (by omega) (by omega)) (hchild i hi hpos hup)
  · exact le_trans (le_of_lt ht) (hchild i hi hpos hup)

theorem Hole.moveDown (h : Hole key a n j) (hpos : 0 < k) (hk : k < n) (hup : up k = j)
    (hleast : ∀ i < n, 0 < i → up i = j → key (a k) ≤ key (a i)) (ht : key (a k) < t) :
    Hole key (update a j (a k)) n k ∧ Above key (update a j (a k)) k t := by
  have hlt := up_lt hpos
  refine ⟨⟨fun i hi hpos' hne hup' => ?_, fun _ i hi hpos' hup' => ?_⟩, fun _ => ?_⟩
  · have hlt' := up_lt hpos'
    by_cases hij : i = j
    · rw [hij] at hlt' ⊢
      rw [update_self, update_of_ne (by omega)]
      exact h.bridge (by omega) k hk hpos hup
    rw [update_of_ne hij]
    by_cases hparent : up i = j
    · rw [hparent, update_self]
      exact hleast i hi hpos' hparent
    · rw [update_of_ne hparent]
      exact h.order i hi hpos' hij hparent
  · have hlt' := up_lt hpos'
    have hij : i ≠ j := by omega
    rw [hup, update_self, update_of_ne hij, ← hup']
    exact h.order i hi hpos' hij (by omega)
  · rw [hup, update_self]
    exact le_of_lt ht

def contents (a : Nat → Entry) (n : Nat) : Multiset Entry := (Multiset.range n).map a

def rest (a : Nat → Entry) (n j : Nat) : Multiset Entry := ((Multiset.range n).erase j).map a

theorem mem_contents : x ∈ contents a n ↔ ∃ i < n, a i = x := by
  simp [contents]

theorem contents_succ : contents a (n + 1) = a n ::ₘ contents a n := by
  rw [contents, range_succ, map_cons]
  rfl

theorem contents_eq (hj : j < n) : contents a n = a j ::ₘ rest a n j := by
  rw [contents, rest, ← map_cons, cons_erase (mem_range.mpr hj)]

theorem rest_end : rest a (n + 1) n = contents a n := by
  rw [rest, range_succ, erase_cons_head]
  rfl

theorem map_update {s : Multiset Nat} (hj : j ∉ s) : s.map (update a j x) = s.map a := by
  apply map_congr rfl
  intro i hi
  rw [update_of_ne (ne_of_mem_of_not_mem hi hj)]

theorem contents_fill (hj : j < n) : contents (update a j x) n = x ::ₘ rest a n j := by
  rw [contents_eq hj, update_self, rest, map_update]
  · rfl
  · exact (nodup_range n).notMem_erase

theorem rest_move (hj : j < n) (hk : k < n) (hne : k ≠ j) : rest (update a j (a k)) n k = rest a n j := by
  have hnodup := nodup_range n
  have hin : j ∈ (range n).erase k := (mem_erase_of_ne hne.symm).mpr (mem_range.mpr hj)
  have hin' : k ∈ (range n).erase j := (mem_erase_of_ne hne).mpr (mem_range.mpr hk)
  rw [rest, rest, ← cons_erase hin, ← cons_erase hin', map_cons,
    map_cons, update_self, map_update, erase_comm]
  exact (hnodup.erase k).notMem_erase

end Svr42.HeapSift

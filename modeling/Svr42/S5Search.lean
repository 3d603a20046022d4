import Mathlib.Order.Interval.Finset.Nat
import Svr42.S5Inodes

/-! The free inodes over all sequences of `ialloc` and `ifree`: the cache, the start of the next search,
and the one inode that the search can miss. -/

namespace Svr42.S5.Inodes
open Finset Function List Nat

variable {s t : Filsys} {faults : Faults} {mode ino n i adr x : Nat} {f : Fill} {l l' : List Nat}

/-! ### The search -/

/-- The cache filled with the free ones of some inodes. -/
def fillList (iMode : Nat → Nat) : List Nat → Nat × (Nat → Nat) → Nat × (Nat → Nat)
  | [], c => c
  | x :: l, c =>
      if c.1 = 0 then c
      else fillList iMode l (if iMode x = 0 then (c.1 - 1, Function.update c.2 (c.1 - 1) x) else c)

theorem fillList_full {iMode : Nat → Nat} {c : Nat × (Nat → Nat)} (h : c.1 = 0) :
    fillList iMode l c = c := by
  cases l with
  | nil => rfl
  | cons x l => rw [fillList, if_pos h]

theorem fillList_append (iMode : Nat → Nat) (l l' : List Nat) (c : Nat × (Nat → Nat)) :
    fillList iMode (l ++ l') c = fillList iMode l' (fillList iMode l c) := by
  induction l generalizing c with
  | nil => rfl
  | cons x l ih =>
    rw [cons_append, fillList, fillList]
    by_cases hc : c.1 = 0
    · rw [if_pos hc, if_pos hc, fillList_full hc]
    · rw [if_neg hc, if_neg hc, ih]

/-- What the cache holds of the inodes that were looked at, in ascending order: from `m` on, as far down
as it has been filled, nothing but free ones; all of them if there is room left, and otherwise all up
to the lowest entry. -/
structure Filled (iMode : Nat → Nat) (l : List Nat) (inode : Nat → Nat) (m n : Nat) : Prop where
  le : m ≤ n
  free : ∀ i, m ≤ i → i < n → inode i ∈ l ∧ iMode (inode i) = 0
  distinct : ∀ i j, m ≤ i → i < n → m ≤ j → j < n → inode i = inode j → i = j
  all : 0 < m → ∀ x ∈ l, iMode x = 0 → ∃ i, m ≤ i ∧ i < n ∧ inode i = x
  upTo : m = 0 → 0 < n → ∀ x ∈ l, iMode x = 0 → (∃ i, i < n ∧ inode i = x) ∨ inode 0 ≤ x

theorem fillList_filled (iMode : Nat → Nat) (hl : l.Pairwise (· < ·)) (c : Nat × (Nat → Nat)) :
    Filled iMode l (fillList iMode l c).2 (fillList iMode l c).1 c.1 ∧
      ∀ i, c.1 ≤ i → (fillList iMode l c).2 i = c.2 i := by
  induction l generalizing c with
  | nil =>
    refine ⟨⟨le_rfl, fun i hi hi' => ?_, fun i j hi hi' => ?_, fun _ x hx => ?_,
      fun _ _ x hx => ?_⟩, fun _ _ => rfl⟩
    · exact absurd hi' (not_lt.mpr hi)
    · exact absurd hi' (not_lt.mpr hi)
    · cases hx
    · cases hx
  | cons x l ih =>
    obtain ⟨hx, hl⟩ := pairwise_cons.mp hl
    rw [fillList]
    by_cases hc : c.1 = 0
    · rw [if_pos hc]
      refine ⟨⟨le_rfl, fun i hi hi' => ?_, fun i j hi hi' => ?_, fun hpos => ?_,
        fun _ hpos => ?_⟩, fun _ _ => rfl⟩
      · exact absurd hi' (not_lt.mpr hi)
      · exact absurd hi' (not_lt.mpr hi)
      · exact absurd hc hpos.ne'
      · exact absurd hc hpos.ne'
    rw [if_neg hc]
    by_cases hfree : iMode x = 0
    · rw [if_pos hfree]
      obtain ⟨hrest, hkept⟩ := ih hl (c.1 - 1, update c.2 (c.1 - 1) x)
      generalize fillList iMode l (c.1 - 1, update c.2 (c.1 - 1) x) = r at hrest hkept
      have hle : r.1 ≤ c.1 - 1 := hrest.le
      have htop : r.2 (c.1 - 1) = x := by
        rw [hkept (c.1 - 1) le_rfl]
        exact update_self (c.1 - 1) x c.2
      have hcase : ∀ i, i < c.1 → i < c.1 - 1 ∨ i = c.1 - 1 := fun i hi => by omega
      refine ⟨⟨by omega, fun i hi hi' => ?_, fun i j hi hi' hj hj' heq => ?_, fun hpos y hy hmode => ?_,
        fun hzero _ y hy hmode => ?_⟩, fun i hi => ?_⟩
      · rcases hcase i hi' with hlt | rfl
        · obtain ⟨hmem, hmode⟩ := hrest.free i hi hlt
          exact ⟨.tail x hmem, hmode⟩
        · rw [htop]
          exact ⟨.head _, hfree⟩
      · -- the entry at the top is not among the later ones
        have hlater : ∀ i, r.1 ≤ i → i < c.1 - 1 → r.2 i ≠ x := fun i hi hlt =>
          ne_of_gt (hx _ (hrest.free i hi hlt).1)
        rcases hcase i hi' with hlt | rfl
        · rcases hcase j hj' with hlt' | rfl
          · exact hrest.distinct i j hi hlt hj hlt' heq
          · exact absurd (heq.trans htop) (hlater i hi hlt)
        · rcases hcase j hj' with hlt' | rfl
          · exact absurd (heq.symm.trans htop) (hlater j hj hlt')
          · rfl
      · rcases mem_cons.mp hy with rfl | hmem
        · exact ⟨c.1 - 1, hle, by omega, htop⟩
        · obtain ⟨i, hi, hlt, heq⟩ := hrest.all hpos y hmem hmode
          exact ⟨i, hi, by omega, heq⟩
      · rcases mem_cons.mp hy with rfl | hmem
        · exact .inl ⟨c.1 - 1, by omega, htop⟩
        by_cases hlast : 0 < c.1 - 1
        · rcases hrest.upTo hzero hlast y hmem hmode with ⟨i, hlt, heq⟩ | hbelow
          · exact .inl ⟨i, by omega, heq⟩
          · exact .inr hbelow
        · have hzero' : c.1 - 1 = 0 := by omega
          rw [hzero'] at htop
          rw [htop]
          exact .inr (le_of_lt (hx y hmem))
      · rw [hkept i (show c.1 - 1 ≤ i by omega)]
        have hne : i ≠ c.1 - 1 := by omega
        exact update_of_ne hne x c.2
    · rw [if_neg hfree]
      obtain ⟨hrest, hkept⟩ := ih hl c
      generalize fillList iMode l c = r at hrest hkept
      have hmem : ∀ y ∈ x :: l, iMode y = 0 → y ∈ l := by
        intro y hy hmode
        refine (mem_cons.mp hy).resolve_left ?_
        rintro rfl
        exact hfree hmode
      exact ⟨⟨hrest.le, fun i hi hi' => (hrest.free i hi hi').imp (.tail x) id,
        hrest.distinct, fun hpos y hy hmode => hrest.all hpos y (hmem y hy hmode) hmode,
        fun hzero hpos y hy hmode => hrest.upTo hzero hpos y (hmem y hy hmode) hmode⟩, hkept⟩

/-- The numbers of the inodes of a file system. -/
structure Layout (s : Filsys) : Prop where
  inoshift : 0 < s.vfsInoshift
  inopb : s.vfsInopb = 1 <<< s.vfsInoshift
  isize : 2 ≤ s.sIsize
  small : lastInode s ≤ 65535

theorem uShort_eq (h : n ≤ 65535) : uShort n = n := mod_eq_of_lt (lt_succ_of_le h)

theorem inodeAt_succ (s : Filsys) (adr i : Nat) : inodeAt s adr (i + 1) = inodeAt s adr i + 1 := rfl

theorem inodeAt_next (h : 2 ≤ adr) : inodeAt s adr s.vfsInopb = inodeAt s (adr + 1) 0 := by
  unfold inodeAt
  rw [show adr + 1 - 2 = adr - 2 + 1 by omega, succ_mul, add_zero]

theorem fillBlock_eq (hino : f.ino = inodeAt s adr i) (hmax : inodeAt s adr (i + n) ≤ 65535) :
    ((fillBlock s adr n i f).ninode, (fillBlock s adr n i f).inode) =
        fillList s.iMode (range' (inodeAt s adr i) n) (f.ninode, f.inode) ∧
      ((fillBlock s adr n i f).ninode ≠ 0 → (fillBlock s adr n i f).ino = inodeAt s adr (i + n)) := by
  induction n generalizing i f with
  | zero => exact ⟨rfl, fun _ => hino⟩
  | succ n ih =>
    have hnext : uShort (f.ino + 1) = inodeAt s adr (i + 1) := by
      rw [hino, inodeAt_succ]
      apply uShort_eq
      unfold inodeAt at hmax ⊢
      omega
    have hplace : i + (n + 1) = i + 1 + n := by omega
    rw [hplace] at hmax ⊢
    rw [range'_succ, fillBlock, fillList]
    by_cases hfull : f.ninode = 0
    · rw [if_pos hfull, if_pos hfull]
      exact ⟨rfl, fun hne => absurd hfull hne⟩
    rw [if_neg hfull, if_neg hfull]
    by_cases hfree : s.iMode (inodeAt s adr i) = 0
    · rw [if_pos hfree, if_pos hfree]
      have hrest := ih (f := ⟨f.ninode - 1, update f.inode (f.ninode - 1) f.ino,
        uShort (f.ino + 1)⟩) hnext hmax
      rw [hino] at hrest ⊢
      exact hrest
    · rw [if_neg hfree, if_neg hfree]
      exact ih (f := ⟨f.ninode, f.inode, uShort (f.ino + 1)⟩) hnext hmax

theorem fillFrom_eq (hread : ∀ adr, faults.bread adr = false) (hadr : 2 ≤ adr)
    (hino : f.ino = inodeAt s adr 0) (hmax : inodeAt s (adr + n) 0 ≤ 65535) :
    ((fillFrom s faults n adr f).ninode, (fillFrom s faults n adr f).inode) =
      fillList s.iMode (range' (inodeAt s adr 0) (n * s.vfsInopb)) (f.ninode, f.inode) := by
  induction n generalizing adr f with
  | zero =>
    rw [Nat.zero_mul]
    rfl
  | succ n ih =>
    have hnext : inodeAt s adr (0 + s.vfsInopb) = inodeAt s (adr + 1) 0 := by
      rw [zero_add, inodeAt_next hadr]
    have hplace : adr + (n + 1) = adr + 1 + n := by omega
    rw [hplace] at hmax
    have hle : inodeAt s (adr + 1) 0 ≤ inodeAt s (adr + 1 + n) 0 := by
      unfold inodeAt
      have hmul := mul_le_mul_right s.vfsInopb (show adr + 1 - 2 ≤ adr + 1 + n - 2 by omega)
      omega
    obtain ⟨hblock, hcome⟩ := fillBlock_eq (n := s.vfsInopb) hino (hnext ▸ hle.trans hmax)
    rw [succ_mul, add_comm (n * _), ← range'_append_1, fillList_append, ← hblock,
      fillFrom, hread, if_neg Bool.false_ne_true]
    rw [hnext] at hcome
    have hstart : inodeAt s adr 0 + s.vfsInopb = inodeAt s (adr + 1) 0 := by
      rw [← hnext]
      unfold inodeAt
      omega
    by_cases hfull : (fillBlock s adr s.vfsInopb 0 f).ninode = 0
    · simp only [if_pos hfull]
      exact (fillList_full hfull).symm
    · simp only [if_neg hfull]
      rw [hstart]
      exact ih (by omega) (hcome hfull) hmax

def searchStart (s : Filsys) : Nat := s.sInode 0 / s.vfsInopb * s.vfsInopb + 1

section

variable (h : Layout s)
include h

theorem Layout.inopb_pos : 0 < s.vfsInopb := by
  rw [h.inopb, shiftLeft_eq, one_mul]
  exact Nat.two_pow_pos _

theorem Layout.shiftRight (x : Nat) : x >>> s.vfsInoshift = x / s.vfsInopb := by
  rw [h.inopb, shiftLeft_eq, one_mul, shiftRight_eq_div_pow]

theorem Layout.fsInos : fsInos s (s.sInode 0) = searchStart s := by
  unfold Inodes.fsInos searchStart
  rw [h.shiftRight, shiftLeft_eq]
  congr 2
  rw [h.inopb, shiftLeft_eq, one_mul]

/-- A block holds an even number of inodes, so that there is a number left behind the last. -/
theorem Layout.lastInode_lt : lastInode s < 65535 := by
  obtain ⟨k, hk⟩ := exists_eq_succ_of_ne_zero h.inoshift.ne'
  have heven : s.vfsInopb = 2 * 2 ^ k := by
    rw [h.inopb, shiftLeft_eq, one_mul, hk, succ_eq_add_one, pow_succ, mul_comm]
  have hlast : lastInode s = 2 * ((s.sIsize - 2) * 2 ^ k) := by
    unfold lastInode
    rw [heven, mul_left_comm]
  have hsmall := h.small
  omega

theorem rebuild_filled (hread : ∀ adr, faults.bread adr = false)
    (hstart : s.sInode 0 ≤ lastInode s) : ∃ inode : Nat → Nat,
    Filled s.iMode (range' (searchStart s) (lastInode s + 1 - searchStart s)) inode
        (rebuild s faults).1 NICINOD ∧
      (rebuild s faults).2 = if 0 < (rebuild s faults).1 then
        update (update inode ((rebuild s faults).1 - 1) 0) 0 0 else inode := by
  have hpos := h.inopb_pos
  have hlast := h.lastInode_lt
  have hq : s.sInode 0 / s.vfsInopb ≤ s.sIsize - 2 := Nat.div_le_of_le_mul (by
    rw [mul_comm]
    exact hstart)
  have hbelow : s.sInode 0 / s.vfsInopb * s.vfsInopb ≤ lastInode s := Nat.mul_le_mul_right _ hq
  have hino : uShort (Inodes.fsInos s (s.sInode 0)) = searchStart s := by
    rw [h.fsInos]
    apply uShort_eq
    unfold searchStart
    omega
  have hadr : fsItod s (searchStart s) = s.sInode 0 / s.vfsInopb + 2 := by
    unfold fsItod searchStart
    rw [h.shiftRight, show s.sInode 0 / s.vfsInopb * s.vfsInopb + 1 + (2 * s.vfsInopb - 1) =
      (s.sInode 0 / s.vfsInopb + 2) * s.vfsInopb by rw [Nat.add_mul]; omega, Nat.mul_div_cancel _ hpos]
  have hfirst : searchStart s = inodeAt s (s.sInode 0 / s.vfsInopb + 2) 0 := rfl
  have hend : inodeAt s (s.sInode 0 / s.vfsInopb + 2 +
      (s.sIsize - (s.sInode 0 / s.vfsInopb + 2))) 0 ≤ 65535 := by
    unfold inodeAt
    rw [show s.sInode 0 / s.vfsInopb + 2 + (s.sIsize - (s.sInode 0 / s.vfsInopb + 2)) - 2 =
      s.sIsize - 2 by have := h.isize; omega]
    exact hlast
  have hcount : (s.sIsize - (s.sInode 0 / s.vfsInopb + 2)) * s.vfsInopb =
      lastInode s + 1 - searchStart s := by
    unfold searchStart lastInode
    rw [add_comm _ 2, ← Nat.sub_sub, Nat.sub_mul, Nat.add_sub_add_right]
  have hfill := fillFrom_eq (f := ⟨NICINOD, s.sInode, searchStart s⟩) hread (Nat.le_add_left 2 _)
    hfirst hend
  rw [hcount, ← hfirst] at hfill
  have hspec := (fillList_filled s.iMode (pairwise_lt_range' (s := searchStart s)
    (n := lastInode s + 1 - searchStart s)) (NICINOD, s.sInode)).1
  rw [← hfill] at hspec
  unfold rebuild
  simp only [hino, hadr]
  exact ⟨_, hspec, rfl⟩

end

/-! ### Consistent file systems -/

def IsFree (s : Filsys) (ino : Nat) : Prop := 1 ≤ ino ∧ ino ≤ lastInode s ∧ s.iMode ino = 0

instance (s : Filsys) (ino : Nat) : Decidable (IsFree s ino) := inferInstanceAs (Decidable (_ ∧ _ ∧ _))

def Cached (s : Filsys) (i : Nat) : Prop :=
  i < s.sNinode ∧ ∀ j, i ≤ j → j < s.sNinode → s.sInode j ≠ 0

/-- Every free inode is in the cache or not below the start of the next search, the cache holds free
inodes only, each once, and `s_tinode` counts the free ones. -/
structure Consistent (s : Filsys) : Prop where
  layout : Layout s
  ninode : s.sNinode ≤ NICINOD
  free : ∀ i, Cached s i → IsFree s (s.sInode i)
  distinct : ∀ i j, Cached s i → Cached s j → s.sInode i = s.sInode j → i = j
  cover : ∀ ino, IsFree s ino → (∃ i, Cached s i ∧ s.sInode i = ino) ∨ s.sInode 0 ≤ ino
  start : s.sInode 0 ≤ lastInode s
  marker : ∀ i, i < s.sNinode → s.sInode i = 0 → s.sInode 0 = 0
  tinode : s.sTinode = ((Finset.Icc 1 (lastInode s)).filter fun ino => s.iMode ino = 0).card
  returned : ∀ ino, s.returned ino = true → s.iMode ino ≠ 0

def Searches (s : Filsys) : Prop := s.sNinode = 0 ∨ s.sInode (s.sNinode - 1) = 0

/-- The disk fails no call of `ialloc`, and no search starts at a free inode that is the last one of its
block. -/
def Clear (s : Filsys) : Event → Prop
  | .ialloc _ faults _ => (∀ ino, faults.iget ino = none) ∧ (Searches s → (∀ adr, faults.bread adr = false) ∧
      ¬ (IsFree s (s.sInode 0) ∧ s.vfsInopb ∣ s.sInode 0))
  | .ifree _ => True

theorem Consistent.cached_none (h : Searches s) (i : Nat) : ¬ Cached s i := by
  rintro ⟨hi, hall⟩
  rcases h with hzero | hmark
  · omega
  · exact hall (s.sNinode - 1) (by omega) (by omega) hmark

theorem card_take (h : IsFree s ino) (hmode : mode ≠ 0) :
    ((Finset.Icc 1 (lastInode s)).filter fun x => update s.iMode ino mode x = 0).card =
      ((Finset.Icc 1 (lastInode s)).filter fun x => s.iMode x = 0).card - 1 := by
  have hsame : ((Finset.Icc 1 (lastInode s)).filter fun x => update s.iMode ino mode x = 0) =
      ((Finset.Icc 1 (lastInode s)).filter fun x => s.iMode x = 0).erase ino := by
    ext x
    rw [Finset.mem_erase, Finset.mem_filter, Finset.mem_filter]
    by_cases hx : x = ino
    · rw [hx, update_self]
      exact ⟨fun hmem => absurd hmem.2 hmode, fun hmem => absurd rfl hmem.1⟩
    · rw [update_of_ne hx]
      exact ⟨fun hmem => ⟨hx, hmem⟩, fun hmem => hmem.2⟩
  rw [hsame, Finset.card_erase_of_mem]
  exact Finset.mem_filter.mpr ⟨Finset.mem_Icc.mpr ⟨h.1, h.2.1⟩, h.2.2⟩

theorem card_give (hfirst : 1 ≤ ino) (hlast : ino ≤ lastInode s) (hmode : s.iMode ino ≠ 0) :
    ((Finset.Icc 1 (lastInode s)).filter fun x => update s.iMode ino 0 x = 0).card =
      ((Finset.Icc 1 (lastInode s)).filter fun x => s.iMode x = 0).card + 1 := by
  have hsame : ((Finset.Icc 1 (lastInode s)).filter fun x => update s.iMode ino 0 x = 0) =
      insert ino ((Finset.Icc 1 (lastInode s)).filter fun x => s.iMode x = 0) := by
    ext x
    rw [Finset.mem_insert, Finset.mem_filter, Finset.mem_filter]
    by_cases hx : x = ino
    · rw [hx, update_self]
      exact ⟨fun _ => .inl rfl, fun _ => ⟨Finset.mem_Icc.mpr ⟨hfirst, hlast⟩, rfl⟩⟩
    · rw [update_of_ne hx]
      exact ⟨.inr, fun hmem => hmem.resolve_left hx⟩
  rw [hsame, Finset.card_insert_of_notMem]
  exact fun hmem => hmode (Finset.mem_filter.mp hmem).2

/-- The top of the cache is handed out. -/
theorem Consistent.take (h : Consistent s) (hcached : Cached s (s.sNinode - 1)) (hmode : mode ≠ 0) :
    Consistent { s with
        sNinode := s.sNinode - 1
        sTinode := s.sTinode - 1
        iMode := update s.iMode (s.sInode (s.sNinode - 1)) mode
        returned := update s.returned (s.sInode (s.sNinode - 1)) true } := by
  have hfree := h.free _ hcached
  have hlower : ∀ i, i < s.sNinode - 1 → (∀ j, i ≤ j → j < s.sNinode - 1 → s.sInode j ≠ 0) →
      Cached s i := by
    intro i hi hall
    refine ⟨by omega, fun j hj hlt => ?_⟩
    by_cases hjtop : j = s.sNinode - 1
    · rw [hjtop]
      exact hcached.2 _ le_rfl hcached.1
    · exact hall j hj (by omega)
  have hstill : ∀ x, x ≠ s.sInode (s.sNinode - 1) →
      update s.iMode (s.sInode (s.sNinode - 1)) mode x = s.iMode x :=
    fun x hx => update_of_ne hx _ _
  refine ⟨⟨h.layout.inoshift, h.layout.inopb, h.layout.isize, h.layout.small⟩, ?_, fun i hi => ?_,
    fun i j hi hj heq => ?_, fun x hx => ?_, h.start, fun i hi hzero => ?_, ?_, fun x hx => ?_⟩
  · exact (sub_le _ _).trans h.ninode
  · obtain ⟨hlt, hall⟩ := hi
    have hi := hlower i hlt hall
    have hne : s.sInode i ≠ s.sInode (s.sNinode - 1) := by
      intro heq
      exact hlt.ne (h.distinct i _ hi hcached heq)
    obtain ⟨hone, hlast, hzero⟩ := h.free i hi
    exact ⟨hone, hlast, (hstill _ hne).trans hzero⟩
  · exact h.distinct i j (hlower i hi.1 hi.2) (hlower j hj.1 hj.2) heq
  · have hne : x ≠ s.sInode (s.sNinode - 1) := by
      rintro rfl
      exact hmode ((update_self _ _ _).symm.trans hx.2.2)
    have hold : IsFree s x := ⟨hx.1, hx.2.1, (hstill x hne).symm.trans hx.2.2⟩
    refine (h.cover x hold).imp (fun hsome => ?_) id
    obtain ⟨i, hi, heq⟩ := hsome
    have hitop : i ≠ s.sNinode - 1 := by
      rintro rfl
      exact hne heq.symm
    exact ⟨i, ⟨show i < s.sNinode - 1 by have := hi.1; omega,
      fun j hj hlt => hi.2 j hj (show j < s.sNinode from hlt.trans_le (sub_le _ _))⟩, heq⟩
  · exact h.marker i (hi.trans_le (sub_le _ _)) hzero
  · rw [h.tinode]
    exact (card_take hfree hmode).symm
  · change update s.iMode _ mode x ≠ 0
    by_cases hxi : x = s.sInode (s.sNinode - 1)
    · rw [hxi, update_self]
      exact hmode
    · rw [hstill x hxi]
      exact h.returned x ((update_of_ne hxi _ _).symm.trans hx)

theorem Consistent.looked_at (h : Consistent s) (hsearch : Searches s)
    (hclear : ¬ (IsFree s (s.sInode 0) ∧ s.vfsInopb ∣ s.sInode 0)) (hfree : IsFree s ino) :
    ino ∈ range' (searchStart s) (lastInode s + 1 - searchStart s) := by
  have hle : s.sInode 0 ≤ ino := by
    refine (h.cover ino hfree).resolve_left ?_
    rintro ⟨i, hi, -⟩
    exact Consistent.cached_none hsearch i hi
  have hstart : searchStart s ≤ ino := by
    unfold searchStart
    have hmod := div_add_mod' (s.sInode 0) s.vfsInopb
    by_cases hdvd : s.vfsInopb ∣ s.sInode 0
    · have hne : s.sInode 0 ≠ ino := fun heq => hclear ⟨heq ▸ hfree, hdvd⟩
      omega
    · have hrest : s.sInode 0 % s.vfsInopb ≠ 0 := fun hzero => hdvd (dvd_of_mod_eq_zero hzero)
      omega
  rw [mem_range'_1]
  have hlast := hfree.2.1
  omega

section

variable (h : Consistent s) (hsearch : Searches s) (hread : ∀ adr, faults.bread adr = false)
  (hclear : ¬ (IsFree s (s.sInode 0) ∧ s.vfsInopb ∣ s.sInode 0))
include h hsearch hread hclear

/-- The cache after a search that has found something. -/
theorem Consistent.rebuilt (hfound : (rebuild s faults).1 ≠ NICINOD) :
    Consistent { s with sNinode := NICINOD, sInode := (rebuild s faults).2 } ∧
      ¬ Searches { s with sNinode := NICINOD, sInode := (rebuild s faults).2 } := by
  obtain ⟨inode, hfilled, hinode⟩ := rebuild_filled h.layout hread h.start
  generalize rebuild s faults = r at hfilled hinode hfound
  obtain ⟨m, new⟩ := r
  have hlt : m < NICINOD := Nat.lt_of_le_of_ne hfilled.le hfound
  have hzero : 0 < m → new (m - 1) = 0 ∧ new 0 = 0 := by
    intro hpos
    rw [show new = _ from hinode, if_pos hpos]
    refine ⟨?_, update_self _ _ _⟩
    by_cases hm : m - 1 = 0
    · rw [hm, update_self]
    · rw [update_of_ne hm, update_self]
  have hkept : ∀ i, m ≤ i → new i = inode i := by
    intro i hi
    rw [show new = _ from hinode]
    by_cases hpos : 0 < m
    · rw [if_pos hpos, update_of_ne (by omega), update_of_ne (by simp only; omega)]
    · rw [if_neg hpos]
  have hfree : ∀ i, m ≤ i → i < NICINOD → IsFree s (new i) := by
    intro i hi hi'
    obtain ⟨hmem, hmode⟩ := hfilled.free i hi hi'
    rw [hkept i hi]
    rw [mem_range'_1] at hmem
    unfold searchStart at hmem
    exact ⟨by omega, by omega, hmode⟩
  have hcached : ∀ i, Cached { s with sNinode := NICINOD, sInode := new } i ↔ m ≤ i ∧ i < NICINOD := by
    intro i
    constructor
    · rintro ⟨hi, hall⟩
      refine ⟨Nat.le_of_not_lt fun hbelow => ?_, hi⟩
      have hi : i < NICINOD := hi
      exact hall (m - 1) (by omega) (show m - 1 < NICINOD by omega) (hzero (by omega)).1
    · rintro ⟨hi, hi'⟩
      exact ⟨hi', fun j hj hj' => ne_of_gt (hfree j (hi.trans hj) hj').1⟩
  refine ⟨⟨⟨h.layout.inoshift, h.layout.inopb, h.layout.isize, h.layout.small⟩, le_rfl,
    fun i hi => ?_, fun i j hi hj heq => ?_, fun x hx => ?_, ?_, fun i hi hmark => ?_, h.tinode,
    h.returned⟩, fun hagain => ?_⟩
  · rw [hcached] at hi
    exact hfree i hi.1 hi.2
  · rw [hcached] at hi hj
    change new i = new j at heq
    rw [hkept i hi.1, hkept j hj.1] at heq
    exact hfilled.distinct i j hi.1 hi.2 hj.1 hj.2 heq
  · have hmem := h.looked_at hsearch hclear (show IsFree s x from hx)
    have hentry : ∀ i, m ≤ i → i < NICINOD → inode i = x →
        ∃ i, Cached { s with sNinode := NICINOD, sInode := new } i ∧ new i = x :=
      fun i hi hi' heq => ⟨i, (hcached i).mpr ⟨hi, hi'⟩, (hkept i hi).trans heq⟩
    by_cases hpos : 0 < m
    · obtain ⟨i, hi, hi', heq⟩ := hfilled.all hpos x hmem hx.2.2
      exact .inl (hentry i hi hi' heq)
    have hm : m = 0 := Nat.eq_zero_of_not_pos hpos
    rcases hfilled.upTo hm (by decide) x hmem hx.2.2 with ⟨i, hi, heq⟩ | hbelow
    · exact .inl (hentry i (hm ▸ Nat.zero_le i) hi heq)
    refine .inr ?_
    change new 0 ≤ x
    rw [hkept 0 hm.le]
    exact hbelow
  · change new 0 ≤ lastInode s
    by_cases hpos : 0 < m
    · rw [(hzero hpos).2]
      exact Nat.zero_le _
    · exact (hfree 0 (Nat.le_of_not_lt hpos) (by decide)).2.1
  · by_cases hpos : 0 < m
    · exact (hzero hpos).2
    · exact absurd hmark (ne_of_gt (hfree i (by omega) hi).1)
  · rcases hagain with hnone | hmark
    · cases hnone
    · exact absurd hmark (ne_of_gt (hfree (NICINOD - 1) (by omega) (by decide)).1)

theorem Consistent.none_free (hnothing : ¬ (0 < s.sTinode ∧ (rebuild s faults).1 ≠ NICINOD))
    (ino : Nat) : ¬ IsFree s ino := by
  intro hfree
  by_cases hcount : 0 < s.sTinode
  · have hnone : (rebuild s faults).1 = NICINOD := by
      by_contra hfound
      exact hnothing ⟨hcount, hfound⟩
    obtain ⟨inode, hfilled, -⟩ := rebuild_filled h.layout hread h.start
    rw [hnone] at hfilled
    obtain ⟨i, hi, hi', -⟩ := hfilled.all (by decide) ino (h.looked_at hsearch hclear hfree) hfree.2.2
    exact absurd hi' (not_lt.mpr hi)
  · have hzero : s.sTinode = 0 := Nat.eq_zero_of_not_pos hcount
    rw [h.tinode, Finset.card_eq_zero] at hzero
    have hmem : ino ∈ (Finset.Icc 1 (lastInode s)).filter fun x => s.iMode x = 0 :=
      Finset.mem_filter.mpr ⟨mem_Icc.mpr ⟨hfree.1, hfree.2.1⟩, hfree.2.2⟩
    rw [hzero] at hmem
    exact absurd hmem (notMem_empty ino)

end

theorem Consistent.exhausted (h : Consistent s) (hnone : ∀ ino, ¬ IsFree s ino) {inode : Nat → Nat}
    (hinode : inode 0 ≤ lastInode s) :
    Consistent { s with sNinode := 0, sInode := inode, sTinode := 0 } := by
  refine ⟨⟨h.layout.inoshift, h.layout.inopb, h.layout.isize, h.layout.small⟩, zero_le _,
    fun i hi => absurd hi.1 (not_lt_zero i), fun i _ hi => absurd hi.1 (not_lt_zero i),
    fun x hx => absurd hx (hnone x), hinode, fun i hi => absurd hi (not_lt_zero i), ?_,
    h.returned⟩
  refine (card_eq_zero.mpr (filter_eq_empty_iff.mpr fun {x} hx hmode => ?_)).symm
  obtain ⟨hone, hlast⟩ := mem_Icc.mp hx
  exact hnone x ⟨hone, hlast, hmode⟩

/-! ### `ialloc` and `ifree` -/

/-- What may come of `ialloc`: a free inode that nobody has, or none as there is none. -/
def Answers (s : Filsys) : Except Errno Nat → Prop
  | .ok ino => IsFree s ino ∧ s.returned ino = false
  | .error error => error = .enospc ∧ ∀ ino, ¬ IsFree s ino

theorem Consistent.top (h : ¬ Searches s) : 0 < s.sNinode ∧ s.sInode (s.sNinode - 1) ≠ 0 := by
  unfold Searches at h
  rw [not_or] at h
  exact ⟨Nat.pos_of_ne_zero h.1, h.2⟩

section

variable (h : Consistent s)
include h

theorem Consistent.ialloc_cached (hcached : ¬ Searches s)
    (higet : ∀ ino, faults.iget ino = none) (hmode : mode ≠ 0) (fuel : Nat) :
    ∃ t ino, ialloc faults mode (fuel + 1) s = some (t, .ok ino) ∧ Consistent t ∧ IsFree s ino ∧
      s.returned ino = false := by
  obtain ⟨hpos, hne⟩ := Consistent.top hcached
  have hat : Cached s (s.sNinode - 1) := by
    refine ⟨by omega, fun j hj hlt => ?_⟩
    rw [show j = s.sNinode - 1 by omega]
    exact hne
  have hfree := h.free _ hat
  refine ⟨_, _, ?_, h.take hat hmode, hfree, ?_⟩
  · rw [ialloc]
    simp only [if_pos (And.intro hpos hne), higet, if_pos hfree.2.2]
  · rw [← Bool.not_eq_true]
    exact fun hreturned => h.returned _ hreturned hfree.2.2

/-- Two rounds of `ialloc` are enough. -/
theorem Consistent.ialloc (higet : ∀ ino, faults.iget ino = none)
    (hsearch : Searches s → (∀ adr, faults.bread adr = false) ∧
      ¬ (IsFree s (s.sInode 0) ∧ s.vfsInopb ∣ s.sInode 0)) (hmode : mode ≠ 0) (fuel : Nat) :
    (fuel < 2 ∧ ialloc faults mode fuel s = none) ∨
      ∃ t result, ialloc faults mode fuel s = some (t, result) ∧ Consistent t ∧ Answers s result := by
  cases fuel with
  | zero => exact .inl ⟨by decide, rfl⟩
  | succ fuel =>
    by_cases hsearches : Searches s
    · obtain ⟨hread, hclear⟩ := hsearch hsearches
      have hnone : ¬ (0 < s.sNinode ∧ s.sInode (s.sNinode - 1) ≠ 0) := by
        rintro ⟨hpos, hne⟩
        rcases hsearches with hzero | hmark
        · omega
        · exact hne hmark
      rw [Inodes.ialloc]
      by_cases hfound : 0 < s.sTinode ∧ (rebuild s faults).1 ≠ NICINOD
      · simp only [if_neg hnone, if_pos hfound]
        obtain ⟨hrebuilt, hready⟩ := h.rebuilt hsearches hread hclear hfound.2
        cases fuel with
        | zero => exact .inl ⟨by decide, rfl⟩
        | succ fuel =>
          obtain ⟨t, ino, hrun, ht, hfree, hreturned⟩ := hrebuilt.ialloc_cached hready higet hmode fuel
          exact .inr ⟨t, .ok ino, hrun, ht, hfree, hreturned⟩
      · simp only [if_neg hnone, if_neg hfound]
        have hfree := h.none_free hsearches hread hclear hfound
        have hstart : (if 0 < s.sTinode then (rebuild s faults).2 else s.sInode) 0 ≤ lastInode s := by
          by_cases hcount : 0 < s.sTinode
          · have hfull : (rebuild s faults).1 = NICINOD := by
              by_contra hne
              exact hfound ⟨hcount, hne⟩
            obtain ⟨inode, -, hinode⟩ := rebuild_filled h.layout hread h.start
            rw [hfull, if_pos (by decide)] at hinode
            rw [if_pos hcount, hinode, update_self]
            exact zero_le _
          · rw [if_neg hcount]
            exact h.start
        exact .inr ⟨_, _, rfl, h.exhausted hfree hstart, rfl, hfree⟩
    · obtain ⟨t, ino, hrun, ht, hfree⟩ := h.ialloc_cached hsearches higet hmode fuel
      exact .inr ⟨t, .ok ino, hrun, ht, hfree⟩

/-- An inode comes back: it takes a place in the cache, or the next search will come to it. -/
theorem Consistent.give (hfirst : 1 ≤ ino) (hlast : ino ≤ lastInode s)
    (hmode : s.iMode ino ≠ 0) (ht : t = { s with
        iMode := update s.iMode ino 0
        returned := update s.returned ino false
        sTinode := uShort (s.sTinode + 1)
        sNinode := t.sNinode
        sInode := t.sInode }) (hninode : t.sNinode ≤ NICINOD) (k : Nat)
    (hcached : ∀ i, Cached t i → Cached s i ∧ t.sInode i = s.sInode i ∨ i = k ∧ t.sInode i = ino)
    (hcover : ∀ x, IsFree s x ∨ x = ino → (∃ i, Cached t i ∧ t.sInode i = x) ∨ t.sInode 0 ≤ x)
    (hstart : t.sInode 0 ≤ lastInode s)
    (hmarker : ∀ i, i < t.sNinode → t.sInode i = 0 → t.sInode 0 = 0) : Consistent t := by
  obtain ⟨inopb, inoshift, isize, ninode, inode, tinode, iMode, returned⟩ := t
  obtain ⟨rfl, rfl, rfl, -, -, rfl, rfl, rfl⟩ := Filsys.mk.inj ht
  have hcard := card_give hfirst hlast hmode
  have hfree : ∀ x, 1 ≤ x ∧ x ≤ lastInode s ∧ update s.iMode ino 0 x = 0 ↔ IsFree s x ∨ x = ino := by
    intro x
    by_cases hxi : x = ino
    · rw [hxi, update_self]
      exact ⟨fun _ => .inr rfl, fun _ => ⟨hfirst, hlast, rfl⟩⟩
    · rw [update_of_ne hxi]
      exact ⟨.inl, fun hx => hx.resolve_right hxi⟩
  have hnot : ∀ i, Cached s i → s.sInode i ≠ ino := by
    rintro i hi rfl
    exact hmode (h.free i hi).2.2
  refine ⟨⟨h.layout.inoshift, h.layout.inopb, h.layout.isize, h.layout.small⟩, hninode,
    fun i hi => ?_, fun i j hi hj heq => ?_, fun x hx => hcover x ((hfree x).mp hx), hstart, hmarker,
    ?_, fun x hx => ?_⟩
  · refine (hfree _).mpr ?_
    rcases hcached i hi with ⟨hold, heq⟩ | ⟨-, heq⟩
    · exact .inl (heq ▸ h.free i hold)
    · exact .inr heq
  · rcases hcached i hi with ⟨hold, hi⟩ | ⟨hik, hi⟩
    · rcases hcached j hj with ⟨hold', hj⟩ | ⟨-, hj⟩
      · exact h.distinct i j hold hold' (hi.symm.trans (heq.trans hj))
      · exact absurd (hi.symm.trans (heq.trans hj)) (hnot i hold)
    · rcases hcached j hj with ⟨hold', hj⟩ | ⟨hjk, -⟩
      · exact absurd (hj.symm.trans (heq.symm.trans hi)) (hnot j hold')
      · rw [hik, hjk]
  · refine Eq.trans ?_ hcard.symm
    rw [← h.tinode]
    refine uShort_eq ?_
    rw [h.tinode, ← hcard]
    refine (card_filter_le _ _).trans ?_
    rw [Nat.card_Icc, Nat.add_sub_cancel]
    exact h.layout.small
  · change update s.returned ino false x = true at hx
    change update s.iMode ino 0 x ≠ 0
    by_cases hxi : x = ino
    · rw [hxi, update_self] at hx
      cases hx
    · rw [update_of_ne hxi] at hx ⊢
      exact h.returned x hx

theorem Consistent.ifree (hfirst : 1 ≤ ino) (hlast : ino ≤ lastInode s) :
    Consistent (ifree s ino) := by
  unfold Inodes.ifree
  split_ifs with hmode
  · exact h
  · have hne : ino ≠ 0 := Nat.ne_of_gt hfirst
    by_cases hfull : NICINOD ≤ s.sNinode ∨ s.sNinode = 0
    · simp only [if_pos hfull]
      by_cases hbelow : ino < s.sInode 0
      · -- the start of the next search moves down to the inode
        rw [if_pos hbelow]
        have hat : ∀ j, update s.sInode 0 ino j ≠ 0 ↔ s.sInode j ≠ 0 := by
          intro j
          by_cases hj : j = 0
          · rw [hj, update_self]
            exact ⟨fun _ => Nat.ne_of_gt (Nat.zero_lt_of_lt hbelow), fun _ => hne⟩
          · rw [update_of_ne hj]
        have hcached : ∀ i, (i < s.sNinode ∧ ∀ j, i ≤ j → j < s.sNinode →
            update s.sInode 0 ino j ≠ 0) ↔ Cached s i := by
          intro i
          exact and_congr_right fun _ => forall_congr' fun j => imp_congr_right fun _ =>
            imp_congr_right fun _ => hat j
        refine h.give hfirst hlast hmode rfl h.ninode 0 (fun i hi => ?_) (fun x hx => ?_)
          ((update_self 0 ino s.sInode).le.trans hlast) fun i hi hzero => ?_
        · by_cases hi0 : i = 0
          · exact Or.inr ⟨hi0, by rw [hi0]; exact update_self 0 ino s.sInode⟩
          · exact Or.inl ⟨(hcached i).mp hi, update_of_ne hi0 ino s.sInode⟩
        · change _ ∨ update s.sInode 0 ino 0 ≤ x
          rw [update_self]
          rcases hx with hx | rfl
          · rcases h.cover x hx with ⟨i, hi, heq⟩ | hle
            · by_cases hi0 : i = 0
              · rw [hi0] at heq
                exact Or.inr (heq ▸ Nat.le_of_lt hbelow)
              · exact Or.inl ⟨i, (hcached i).mpr hi, (update_of_ne hi0 ino s.sInode).trans heq⟩
            · exact Or.inr ((Nat.le_of_lt hbelow).trans hle)
          · exact Or.inr (Nat.le_refl _)
        · have hold : s.sInode i = 0 := by
            by_contra hold
            exact (hat i).mpr hold hzero
          have hbad := h.marker i hi hold
          omega
      · rw [if_neg hbelow]
        refine h.give hfirst hlast hmode rfl h.ninode 0 (fun i hi => Or.inl ⟨hi, rfl⟩) (fun x hx => ?_)
          h.start h.marker
        rcases hx with hx | rfl
        · exact h.cover x hx
        · exact Or.inr (Nat.le_of_not_lt hbelow)
    · simp only [if_neg hfull]
      rw [not_or] at hfull
      have hpos : 0 < s.sNinode := Nat.pos_of_ne_zero hfull.2
      have hkept : ∀ j, j < s.sNinode → update s.sInode s.sNinode ino j = s.sInode j :=
        fun j hj => update_of_ne (Nat.ne_of_lt hj) _ _
      have htop : update s.sInode s.sNinode ino s.sNinode = ino := update_self _ _ _
      have hcached : ∀ i, Cached s i → i < s.sNinode + 1 ∧ ∀ j, i ≤ j → j < s.sNinode + 1 →
          update s.sInode s.sNinode ino j ≠ 0 := by
        intro i hi
        refine ⟨Nat.lt_succ_of_lt hi.1, fun j hj hlt => ?_⟩
        by_cases hjtop : j = s.sNinode
        · rw [hjtop, htop]
          exact hne
        · rw [hkept j (by omega)]
          exact hi.2 j hj (by omega)
      refine h.give hfirst hlast hmode rfl (by simp only; omega) s.sNinode (fun i hi => ?_)
        (fun x hx => ?_) ((hkept 0 hpos).le.trans h.start) fun i hi hzero => ?_
      · by_cases hitop : i = s.sNinode
        · exact Or.inr ⟨hitop, by rw [hitop]; exact htop⟩
        have hlt : i < s.sNinode + 1 := hi.1
        refine Or.inl ⟨⟨by omega, fun j hj hjlt => ?_⟩, hkept i (by omega)⟩
        rw [← hkept j hjlt]
        exact hi.2 j hj (Nat.lt_succ_of_lt hjlt)
      · rcases hx with hx | rfl
        · rcases h.cover x hx with ⟨i, hi, heq⟩ | hle
          · exact Or.inl ⟨i, hcached i hi, (hkept i hi.1).trans heq⟩
          · exact Or.inr ((hkept 0 hpos).le.trans hle)
        · refine Or.inl ⟨s.sNinode, ⟨Nat.lt_succ_self _, fun j hj hlt => ?_⟩, htop⟩
          have hlt : j < s.sNinode + 1 := hlt
          obtain rfl : j = s.sNinode := by omega
          exact fun hzero => hne (htop.symm.trans hzero)
      · change update s.sInode s.sNinode ino i = 0 at hzero
        change update s.sInode s.sNinode ino 0 = 0
        rw [hkept 0 hpos]
        by_cases hitop : i = s.sNinode
        · rw [hitop, htop] at hzero
          exact absurd hzero hne
        · have hlt : i < s.sNinode + 1 := hi
          rw [hkept i (by omega)] at hzero
          exact h.marker i (by omega) hzero

theorem Consistent.step {event : Event} (hclear : Clear s event) (hstep : Step s event t) :
    Consistent t ∧ ∀ mode faults result, event = .ialloc mode faults result → Answers s result := by
  cases hstep with
  | @ialloc _ mode fuel faults result hmode hrun =>
    rcases h.ialloc hclear.1 hclear.2 hmode fuel with ⟨-, hnone⟩ | ⟨t', result', hsome, ht, hanswers⟩
    · rw [hnone] at hrun
      cases hrun
    rw [hsome] at hrun
    obtain ⟨rfl, rfl⟩ := Prod.mk.inj (Option.some.inj hrun)
    refine ⟨ht, fun _ _ _ heq => ?_⟩
    cases heq
    exact hanswers
  | ifree hfirst hlast =>
    refine ⟨h.ifree hfirst hlast, fun _ _ _ heq => ?_⟩
    cases heq

end

/-- As long as the disk fails no call and no search starts at a free inode that is the last of its
block, every free inode stays in the cache or in the part still to be searched, `s_tinode` stays
right, and `ialloc` returns a free inode that nobody has, or fails as there is none. -/
theorem free_inodes_run {events : List Event} (hs : Consistent s)
    (h : Exec (Guarded Step Clear) s events t) :
    Consistent t ∧ ∀ mode faults, mode ≠ 0 → Clear t (.ialloc mode faults (.ok 0)) →
      (∃ u result, Step t (.ialloc mode faults result) u) ∧
      ∀ u result, Step t (.ialloc mode faults result) u → Answers t result := by
  have ht := h.keeps Consistent (fun _ _ _ hs hstep => (hs.step hstep.1 hstep.2).1) hs
  refine ⟨ht, fun mode faults hmode hclear => ⟨?_, fun u result hstep => ?_⟩⟩
  · rcases ht.ialloc hclear.1 hclear.2 hmode 2 with ⟨hlow, -⟩ | ⟨u, result, hrun, -⟩
    · exact absurd hlow (lt_irrefl 2)
    · exact ⟨u, result, Step.ialloc hmode hrun⟩
  · have hclear' : Clear t (.ialloc mode faults result) := hclear
    exact (ht.step hclear' hstep).2 mode faults result rfl

def noFaults : Faults := ⟨fun _ => false, fun _ => none⟩

/-- Two blocks of eight inodes. All but inode 8 are in use; it was the last that the cache held, and has
just been freed. -/
def lastOfBlock : Filsys :=
  { vfsInopb := 8
    vfsInoshift := 3
    sIsize := 4
    sNinode := 0
    sInode := fun i => if i = 0 then 8 else 0
    sTinode := 1
    iMode := fun ino => if ino = 8 then 0 else 1
    returned := fun _ => false }

theorem lastOfBlock_consistent : Consistent lastOfBlock := by
  refine ⟨⟨by decide, by decide, by decide, by decide⟩, by decide, fun i hi => ?_, fun i _ hi => ?_,
    fun x hx => .inr ?_, by decide, fun i hi => ?_, by decide, fun x hx => ?_⟩
  · exact absurd hi.1 (not_lt_zero i)
  · exact absurd hi.1 (not_lt_zero i)
  · have hmode : (if x = 8 then 0 else 1) = 0 := hx.2.2
    by_cases hx8 : x = 8
    · exact hx8.symm.le
    · rw [if_neg hx8] at hmode
      cases hmode
  · exact absurd hi (not_lt_zero i)
  · cases hx

/-- Inode 7 is freed and allocated again. -/
theorem free_inodes_run_once : ∃ t, Exec (Guarded Step Clear) lastOfBlock [.ifree 7] t ∧ Consistent t ∧
    ∃ u result, Step t (.ialloc 1 noFaults result) u := by
  have hfree : Step lastOfBlock (.ifree 7) (ifree lastOfBlock 7) := Step.ifree (by decide) (by decide)
  have hrun : Exec (Guarded Step Clear) lastOfBlock [.ifree 7] (ifree lastOfBlock 7) :=
    Exec.single ⟨trivial, hfree⟩
  have hclear : Clear (ifree lastOfBlock 7) (.ialloc 1 noFaults (.ok 0)) :=
    ⟨fun _ => rfl, fun _ => ⟨fun _ => rfl, by decide⟩⟩
  obtain ⟨ht, hnext⟩ := free_inodes_run lastOfBlock_consistent hrun
  exact ⟨_, hrun, ht, (hnext 1 noFaults (by decide) hclear).1⟩

/-- The search starts behind inode 8, finds nothing, and `ialloc` fails with a free inode there. -/
theorem last_of_block_missed : ∃ t, Consistent lastOfBlock ∧
    Step lastOfBlock (.ialloc 1 noFaults (.error .enospc)) t ∧ IsFree lastOfBlock 8 ∧
      IsFree t 8 ∧ t.sTinode = 0 := by
  obtain ⟨t, ht⟩ : ∃ t, ialloc noFaults 1 1 lastOfBlock = some (t, .error .enospc) := ⟨_, rfl⟩
  have hafter : (ialloc noFaults 1 1 lastOfBlock).map (fun r => (r.1.iMode 8, lastInode r.1, r.1.sTinode)) =
      some (0, 16, 0) := by
    decide
  rw [ht] at hafter
  obtain ⟨hmode, hrest⟩ := Prod.mk.inj (Option.some.inj hafter)
  obtain ⟨hlast, htinode⟩ := Prod.mk.inj hrest
  exact ⟨t, lastOfBlock_consistent, Step.ialloc (by decide) ht, by decide,
    ⟨by decide, by rw [hlast]; decide, hmode⟩, htinode⟩

end Svr42.S5.Inodes

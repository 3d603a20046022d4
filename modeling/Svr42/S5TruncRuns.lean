import Svr42.S5TruncSteps

/-! `s5freesp`, to its end: which blocks have been freed, and what the file is mapped to then. -/

namespace Svr42.S5.Tree
open List Nat

variable {n nshift i e keep lbn lStart : Nat} {ip ip' : Inode} {q r : Place} {Z F : Place → Prop}
  {x : Freeing}

def keepOf (nshift lStart : Nat) : Nat := (lStart + vfsBsize nshift - 1) >>> vfsBshift nshift

/-- What has been done when the entries of the inode from `e` on are done. -/
def Done (n keep e : Nat) (q : Place) : Prop := e ≤ q.entry ∧ keep ≤ first n q

theorem listBase_list : listBase n (NDADDR + i) =
    NDADDR + (if 0 < i then n else 0) + (if 1 < i then n * n else 0) := by
  unfold listBase
  rw [if_neg (show ¬ NDADDR + i < NDADDR by omega)]
  simp only [show NDADDR < NDADDR + i ↔ 0 < i by omega, show NDADDR + 1 < NDADDR + i ↔ 1 < i by omega]

theorem lastiblock_eq : lastiblock n ((keep : Int) - 1) i = if keep ≤ listBase n (NDADDR + i) then -1
    else ((keep - (listBase n (NDADDR + i) + 1) : Nat) : Int) := by
  have hsquare : ((n * n : Nat) : Int) = (n : Int) * n := Int.natCast_mul n n
  unfold lastiblock
  rw [listBase_list, ← hsquare]
  generalize n * n = square
  by_cases h0 : 0 < i
  · by_cases h1 : 1 < i
    · simp only [if_pos h0, if_pos h1]
      split_ifs <;> omega
    · simp only [if_pos h0, if_neg h1]
      split_ifs <;> omega
  · simp only [if_neg h0, if_neg (show ¬ 1 < i by omega)]
    split_ifs <;> omega

/-! ### The loops -/

theorem Trims.entry_hole (h : Trims n ip Z F x) {p : Place} {G : Place → Prop} (hzero : node ip p = 0)
    (hunder : ∀ q, G q → Under p q ∧ q ≠ p) : Trims n ip (fun q => Z q ∨ G q) (fun q => F q ∨ G q) x := by
  refine h.congr (fun q _ hne => or_iff_left fun hg => hne ((hunder q hg).1.hole hzero))
    fun entry i indices _ hne _ => or_iff_left fun hg => hne ?_
  exact ((hunder _ hg).1.parent (hunder _ hg).2).hole hzero

/-- A list that is kept in part. -/
theorem Trims.list_part (hs : Sound n ip) (hi : i < 3) (hn : 0 < n)
    (h : Trims n ip (Done n keep (NDADDR + (i + 1))) (Done n keep (NDADDR + (i + 1))) x)
    (hlow : listBase n (NDADDR + i) < keep) (hhigh : keep ≤ listBase n (NDADDR + i) + factor n (i + 1)) :
    Trims n ip (Done n keep 0) (Done n keep 0) (if ip.iAddr (NDADDR + i) ≠ 0 then
        s5indirtrunc n i (ip.iAddr (NDADDR + i)) (keep - (listBase n (NDADDR + i) + 1) : Nat) x
      else x) := by
  have hten : NDADDR = 10 := rfl
  have hnaddr : NADDR = 13 := rfl
  have hv : Place.Valid n ⟨NDADDR + i, []⟩ := Place.Valid.root (by omega)
  have hother : ∀ q, Under ⟨NDADDR + i, []⟩ q → ¬ Done n keep (NDADDR + (i + 1)) q := by
    rintro q ⟨hentry, -⟩ ⟨hge, -⟩
    dsimp only at hentry
    omega
  have hdone : ∀ q : Place, q.Valid n → (Done n keep 0 q ↔
      Done n keep (NDADDR + (i + 1)) q ∨ Cut n keep ⟨NDADDR + i, []⟩ q) := by
    intro q hq
    constructor
    · rintro ⟨-, hbeyond⟩
      rcases lt_trichotomy q.entry (NDADDR + i) with hlt | heq | hgt
      · have hbefore := first_lt hn hq hlt (by omega)
        omega
      · refine .inr ⟨⟨⟨heq, nil_suffix⟩, ?_⟩, hbeyond⟩
        rintro rfl
        exact absurd (show keep ≤ listBase n (NDADDR + i) from hbeyond) (by omega)
      · exact .inl ⟨hgt, hbeyond⟩
    · rintro (⟨-, hbeyond⟩ | ⟨-, hbeyond⟩)
      · exact ⟨zero_le _, hbeyond⟩
      · exact ⟨zero_le _, hbeyond⟩
  have hcut : Trims n ip (fun q => Done n keep (NDADDR + (i + 1)) q ∨ Cut n keep ⟨NDADDR + i, []⟩ q)
      (fun q => Done n keep (NDADDR + (i + 1)) q ∨ Cut n keep ⟨NDADDR + i, []⟩ q)
      (if ip.iAddr (NDADDR + i) ≠ 0 then
        s5indirtrunc n i (ip.iAddr (NDADDR + i)) (keep - (listBase n (NDADDR + i) + 1) : Nat) x
      else x) := by
    split_ifs with hne
    · refine h.part hs hv hne ?_ hother (fun q hunder _ => hother q hunder) (by omega) ?_
      · show 0 + (i + 1) = NDADDR + i - 9
        omega
      · show keep = listBase n (NDADDR + i) + (keep - (listBase n (NDADDR + i) + 1)) + 1
        omega
    · have hzero : node ip ⟨NDADDR + i, []⟩ = 0 := not_not.mp hne
      exact h.entry_hole hzero fun q hq => hq.1
  exact hcut.congr (fun q hq _ => hdone q hq) fun entry i indices hq _ _ => hdone _ hq

/-- A list that goes away. -/
theorem Trims.list_whole (hs : Sound n ip) (hi : i < 3)
    (h : Trims n ip (Done n keep (NDADDR + (i + 1))) (Done n keep (NDADDR + (i + 1))) x)
    (hlow : keep ≤ listBase n (NDADDR + i)) :
    Trims n ip (Done n keep (NDADDR + i)) (Done n keep (NDADDR + i)) (if ip.iAddr (NDADDR + i) ≠ 0 then
        Tree.free (s5indirtrunc n i (ip.iAddr (NDADDR + i)) (-1) x) (ip.iAddr (NDADDR + i))
      else x) := by
  have hten : NDADDR = 10 := rfl
  have hnaddr : NADDR = 13 := rfl
  have hv : Place.Valid n ⟨NDADDR + i, []⟩ := Place.Valid.root (by omega)
  have hother : ∀ q, Under ⟨NDADDR + i, []⟩ q → ¬ Done n keep (NDADDR + (i + 1)) q := by
    rintro q ⟨hentry, -⟩ ⟨hge, -⟩
    dsimp only at hentry
    omega
  have hfreed : Trims n ip (Done n keep (NDADDR + (i + 1)))
      (fun q => Done n keep (NDADDR + (i + 1)) q ∨ Under ⟨NDADDR + i, []⟩ q)
      (if ip.iAddr (NDADDR + i) ≠ 0 then
        Tree.free (s5indirtrunc n i (ip.iAddr (NDADDR + i)) (-1) x) (ip.iAddr (NDADDR + i))
      else x) := by
    split_ifs with hne
    · have hlength : List.length ([] : List Nat) + (i + 1) = depth (NDADDR + i) := by
        show 0 + (i + 1) = NDADDR + i - 9
        omega
      exact (h.whole hs hv hne hlength hother fun q hunder _ => hother q hunder).free_under hs hv hne
        (hother _ (Under.refl _))
    · exact h.congr (fun q _ hq => or_iff_left fun hunder => hq (hunder.hole (not_not.mp hne)))
        fun _ _ _ _ _ _ => .rfl
  refine hfreed.congr (fun q hq _ => ?_) fun entry j indices hq _ hnot => ?_
  · constructor
    · rintro ⟨hge, hbeyond⟩
      rcases lt_or_ge (NDADDR + i) q.entry with hgt | hle
      · exact .inl ⟨hgt, hbeyond⟩
      · exact .inr ⟨le_antisymm hle hge, nil_suffix⟩
    · rintro (⟨hge, hbeyond⟩ | ⟨hentry, -⟩)
      · exact ⟨by omega, hbeyond⟩
      · have hfirst := le_first hq
        rw [show q.entry = NDADDR + i from hentry] at hfirst
        exact ⟨hentry.symm.le, hlow.trans hfirst⟩
  · constructor
    · rintro ⟨hge, hbeyond⟩
      rcases lt_or_ge (NDADDR + i) entry with hgt | hle
      · exact ⟨hgt, hbeyond⟩
      · have hfirst := le_first hq.tail
        rw [show (⟨entry, indices⟩ : Place).entry = NDADDR + i from le_antisymm hle hge] at hfirst
        exact absurd ⟨hge, hlow.trans hfirst⟩ hnot
    · rintro ⟨hge, hbeyond⟩
      exact ⟨by dsimp only at hge ⊢; omega, hbeyond⟩

/-- The loop over the indirect blocks of the inode. -/
theorem Trims.truncIndirect (hs : Sound n ip) (hi : i ≤ 3) (hn : 0 < n)
    (h : Trims n ip (Done n keep (NDADDR + i)) (Done n keep (NDADDR + i)) x)
    (hhigh : ∀ j, i = j + 1 → keep ≤ listBase n (NDADDR + j) + factor n (j + 1)) :
    Trims n ip (Done n keep 0) (Done n keep 0)
        (Tree.truncIndirect n ip.iAddr (lastiblock n ((keep : Int) - 1)) i x).2 ∧
      (Tree.truncIndirect n ip.iAddr (lastiblock n ((keep : Int) - 1)) i x).1 = true ∨
    Trims n ip (Done n keep NDADDR) (Done n keep NDADDR)
        (Tree.truncIndirect n ip.iAddr (lastiblock n ((keep : Int) - 1)) i x).2 ∧
      (Tree.truncIndirect n ip.iAddr (lastiblock n ((keep : Int) - 1)) i x).1 = false := by
  induction i generalizing x with
  | zero => exact .inr ⟨h, rfl⟩
  | succ i ih =>
    rw [Tree.truncIndirect, lastiblock_eq]
    by_cases hlow : keep ≤ listBase n (NDADDR + i)
    · rw [if_pos hlow, if_neg (show ¬ (0 : Int) ≤ -1 by decide),
        if_pos (show (-1 : Int) < 0 by decide)]
      refine ih (by omega) (h.list_whole hs (by omega) hlow) fun j hj => ?_
      have hten : NDADDR = 10 := rfl
      have hnaddr : NADDR = 13 := rfl
      have hentry : NDADDR + j < NADDR := by omega
      have hdepth : depth (NDADDR + j) = j + 1 := by
        unfold depth
        omega
      have hnext := (listBase_next (n := n) hentry).resolve_right (by omega)
      rw [hdepth, show NDADDR + j + 1 = NDADDR + i by omega] at hnext
      omega
    · rw [if_neg hlow, if_pos (Int.natCast_nonneg _),
        if_neg (show ¬ ((keep - (listBase n (NDADDR + i) + 1) : Nat) : Int) < 0 by omega)]
      exact .inl ⟨h.list_part hs (by omega) hn (not_le.mp hlow) (hhigh i rfl), rfl⟩

theorem direct_place (hv : q.Valid n) (hdirect : q.entry < NDADDR) :
    q = ⟨q.entry, []⟩ ∧ first n q = q.entry := by
  obtain ⟨entry, js⟩ := q
  have hlength := hv.length
  have hdepth : depth entry = 0 := by
    unfold depth
    rw [show NDADDR = 10 from rfl] at hdirect
    dsimp only at hdirect
    omega
  dsimp only at hlength
  obtain rfl := eq_nil_of_length_eq_zero (show js.length = 0 by omega)
  exact ⟨rfl, if_pos hdirect⟩

/-- The loop over the direct blocks. -/
theorem Trims.truncDirect (hs : Sound n ip) (hi : i ≤ NDADDR)
    (h : Trims n ip (Done n keep i) (Done n keep i) x) :
    Trims n ip (Done n keep 0) (Done n keep 0) (Tree.truncDirect ip.iAddr ((keep : Int) - 1) i x) := by
  have hten : NDADDR = 10 := rfl
  have hnaddr : NADDR = 13 := rfl
  induction i generalizing x with
  | zero => exact h
  | succ i ih =>
    rw [Tree.truncDirect]
    have hdirect : ∀ {q : Place}, q.Valid n → q.entry ≤ i → q = ⟨q.entry, []⟩ ∧ first n q = q.entry :=
      fun hv hle => direct_place hv (by omega)
    by_cases hlast : (keep : Int) - 1 < i
    · rw [if_pos hlast]
      refine ih (by omega) ?_
      have hv : Place.Valid n ⟨i, []⟩ := Place.Valid.root (by omega)
      have hfreed : Trims n ip (Done n keep (i + 1)) (fun q => Done n keep (i + 1) q ∨ q = ⟨i, []⟩)
          (if ip.iAddr i ≠ 0 then Tree.free x (ip.iAddr i) else x) := by
        by_cases hne : ip.iAddr i ≠ 0
        · rw [if_pos hne]
          exact h.free hs hv hne fun hdone => absurd hdone.1 (not_succ_le_self i)
        rw [if_neg hne]
        refine h.congr (fun q _ hq => or_iff_left ?_) fun _ _ _ _ _ _ => .rfl
        rintro rfl
        exact hne hq
      refine hfreed.congr (fun q hq _ => ?_) fun entry j indices hq _ _ => ?_
      · constructor
        · rintro ⟨hge, hbeyond⟩
          rcases lt_or_ge i q.entry with hgt | hle
          · exact .inl ⟨hgt, hbeyond⟩
          · have hplace := (hdirect hq hle).1
            rw [le_antisymm hle hge] at hplace
            exact .inr hplace
        · rintro (⟨hge, hbeyond⟩ | rfl)
          · exact ⟨by omega, hbeyond⟩
          · refine ⟨le_rfl, ?_⟩
            rw [(hdirect hq le_rfl).2]
            dsimp only
            omega
      · constructor
        · rintro ⟨hge, hbeyond⟩
          refine ⟨?_, hbeyond⟩
          rcases lt_or_ge i entry with hgt | hle
          · exact hgt
          · exact absurd (Place.mk.inj (hdirect hq hle).1).2 (cons_ne_nil _ _)
        · rintro ⟨hge, hbeyond⟩
          exact ⟨by omega, hbeyond⟩
    · rw [if_neg hlast]
      have hdone : ∀ q : Place, q.Valid n → (Done n keep 0 q ↔ Done n keep (i + 1) q) := by
        intro q hq
        constructor
        · rintro ⟨-, hbeyond⟩
          refine ⟨?_, hbeyond⟩
          rcases lt_or_ge i q.entry with hgt | hle
          · exact hgt
          · rw [(hdirect hq hle).2] at hbeyond
            omega
        · rintro ⟨-, hbeyond⟩
          exact ⟨zero_le _, hbeyond⟩
      exact h.congr (fun q hq _ => hdone q hq) fun entry j indices hq _ _ => hdone _ hq

/-! ### The new tree -/

theorem clearedAddr_eq (save : Nat → Nat) :
    clearedAddr n ((keep : Int) - 1) save e = if keep ≤ listBase n e then 0 else save e := by
  unfold clearedAddr
  by_cases hdirect : e < NDADDR
  · rw [if_pos hdirect, listBase, if_pos hdirect]
    by_cases hle : keep ≤ e
    · rw [if_pos hle, if_pos (by omega)]
    · rw [if_neg hle, if_neg (by omega)]
  · rw [if_neg hdirect, lastiblock_eq, show NDADDR + (e - NDADDR) = e by omega]
    by_cases hle : keep ≤ listBase n e
    · rw [if_pos hle, if_pos hle, if_pos (by decide)]
    · rw [if_neg hle, if_neg hle, if_neg (by omega)]

/-- The inode after its blocks beyond have been freed. -/
theorem Trims.tree (h : Trims n ip (Done n keep 0) (Done n keep 0) x) (hs : Sound n ip)
    (haddr : ip'.iAddr = clearedAddr n ((keep : Int) - 1) ip.iAddr) (hfs : ip'.fs = x.fs) :
    Sound n ip' ∧ ∀ q : Place, q.Valid n → node ip' q = if keep ≤ first n q then 0 else node ip q := by
  have hnode : ∀ q : Place, q.Valid n → node ip' q = if keep ≤ first n q then 0 else node ip q := by
    rintro ⟨entry, js⟩ hv
    induction js with
    | nil =>
      show ip'.iAddr entry = _
      rw [haddr, clearedAddr_eq]
      rfl
    | cons j js ih =>
      have hrest := ih hv.tail
      have hmono : first n ⟨entry, js⟩ ≤ first n ⟨entry, j :: js⟩ := le_add_right _ _
      split_ifs at hrest with hgone
      · rw [if_pos (hgone.trans hmono)]
        exact nodeAt_hole hrest
      · by_cases hzero : node ip ⟨entry, js⟩ = 0
        · have hhole : node ip ⟨entry, j :: js⟩ = 0 := nodeAt_hole hzero
          rw [hhole, ite_self]
          exact nodeAt_hole (hrest.trans hzero)
        have hnot : ¬ Done n keep 0 ⟨entry, js⟩ := fun hdone => hgone hdone.2
        have hptr : node ip' ⟨entry, j :: js⟩ = ptr (x.fs.block (nodeAt ip entry js)) j := by
          rw [← hfs]
          have hsame : nodeAt ip' entry js = nodeAt ip entry js := hrest
          rw [← hsame]
          exact nodeAt_cons (by rw [hsame]; exact hzero)
        rw [hptr]
        split_ifs with hbeyond
        · exact h.erased entry j js hv hzero hnot ⟨zero_le _, hbeyond⟩
        · rw [h.kept entry j js hv hzero hnot fun hdone => hbeyond hdone.2]
          exact (nodeAt_cons hzero).symm
  refine ⟨⟨by rw [hfs]; exact h.idle, fun q hv hne => ?_, fun q q' hv hv' hne hsame => ?_⟩, hnode⟩
  · rw [hnode q hv] at hne ⊢
    by_cases hgone : keep ≤ first n q
    · rw [if_pos hgone] at hne
      exact absurd rfl hne
    rw [if_neg hgone] at hne ⊢
    have hout := h.notMem hs hv hne fun hdone => hgone hdone.2
    rw [hfs, h.bad, h.taken, if_neg hout]
    exact hs.owned q hv hne
  · rw [hnode q hv] at hne hsame
    rw [hnode q' hv'] at hsame
    by_cases hgone : keep ≤ first n q
    · rw [if_pos hgone] at hne
      exact absurd rfl hne
    rw [if_neg hgone] at hne hsame
    by_cases hgone' : keep ≤ first n q'
    · rw [if_pos hgone'] at hsame
      exact absurd hsame hne
    · rw [if_neg hgone'] at hsame
      exact hs.distinct q q' hv hv' hne hsame

/-! ### The calls -/

theorem Trims.start (hs : Sound n ip) :
    Trims n ip (Done n keep (NDADDR + 3)) (Done n keep (NDADDR + 3)) ⟨ip.fs, []⟩ where
  idle := hs.idle
  bad _ := .rfl
  freed b := by
    refine ⟨fun hmem => absurd hmem not_mem_nil, ?_⟩
    rintro ⟨q, hv, hdone, -⟩
    exact absurd hv.entry (not_lt.mpr hdone.1)
  nodup := nodup_nil
  taken _ := (if_neg not_mem_nil).symm
  erased _ _ _ hv _ _ hdone := absurd hv.entry (not_lt.mpr hdone.1)
  kept _ _ _ _ _ _ _ := rfl

theorem maxLbn_le : maxLbn nshift ≤ listBase (nindir nshift) (NDADDR + 2) + factor (nindir nshift) 3 := by
  have hone : (1 <<< nshift) % 0x100000000 ≤ nindir nshift := mod_le _ _
  have hnext : ∀ nb bound, nb ≤ bound → (nb <<< nshift) % 0x100000000 ≤ bound * nindir nshift := by
    intro nb bound hle
    refine le_trans (mod_le _ _) ?_
    rw [shiftLeft_eq, nindir_eq]
    exact mul_le_mul_right _ hle
  have htwo := hnext _ _ hone
  have hthree := hnext _ _ htwo
  show 10 + ((1 <<< nshift) % 0x100000000 + (_ + (_ + 0))) ≤ 10 + nindir nshift +
    nindir nshift * nindir nshift + 1 * nindir nshift * nindir nshift * nindir nshift
  rw [one_mul]
  omega

/-- From where the last block to be kept is calculated. -/
theorem truncate_spec (hs : Sound (nindir nshift) ip) (hmax : keepOf nshift lStart ≤ maxLbn nshift) :
    (truncate nshift lStart ip).1 = none ∧
    (truncate nshift lStart ip).2.1.iMap = ip.iMap ∧
    (truncate nshift lStart ip).2.1.iSize = lStart ∧
    Sound (nindir nshift) (truncate nshift lStart ip).2.1 ∧
    (∀ q : Place, q.Valid (nindir nshift) → node (truncate nshift lStart ip).2.1 q =
      if keepOf nshift lStart ≤ first (nindir nshift) q then 0 else node ip q) ∧
    (truncate nshift lStart ip).2.2.Nodup ∧
    ∀ b, b ∈ (truncate nshift lStart ip).2.2 ↔ ∃ q : Place, q.Valid (nindir nshift) ∧
      keepOf nshift lStart ≤ first (nindir nshift) q ∧ node ip q = b ∧ b ≠ 0 := by
  have hn : 0 < nindir nshift := by
    rw [nindir_eq]
    exact Nat.two_pow_pos _
  have hdone : Trims (nindir nshift) ip (Done (nindir nshift) (keepOf nshift lStart) 0)
      (Done (nindir nshift) (keepOf nshift lStart) 0)
      ⟨(truncate nshift lStart ip).2.1.fs, (truncate nshift lStart ip).2.2⟩ := by
    unfold truncate lastblock
    dsimp only
    rcases Trims.truncIndirect hs (le_refl 3) hn (Trims.start hs) (fun j hj => by
        obtain rfl : j = 2 := by omega
        exact hmax.trans maxLbn_le) with ⟨hend, htrue⟩ | ⟨hend, hfalse⟩
    · unfold keepOf at htrue hend
      rw [if_pos htrue]
      exact hend
    · unfold keepOf at hfalse hend
      rw [if_neg (by rw [hfalse]; exact Bool.false_ne_true)]
      exact hend.truncDirect hs le_rfl
  obtain ⟨hsound, hnode⟩ := hdone.tree hs (show (truncate nshift lStart ip).2.1.iAddr = _ from rfl) rfl
  refine ⟨rfl, rfl, rfl, hsound, hnode, hdone.nodup, fun b => (hdone.freed b).trans ?_⟩
  constructor
  · rintro ⟨q, hv, hd, hrest⟩
    exact ⟨q, hv, hd.2, hrest⟩
  · rintro ⟨q, hv, hbeyond, hrest⟩
    exact ⟨q, hv, ⟨zero_le _, hbeyond⟩, hrest⟩

/-- The inode with a block for the last logical block that is kept. -/
structure Extended (nshift keep : Nat) (ip ip' : Inode) : Prop where
  sound : Sound (nindir nshift) ip'
  head : SameHead ip ip'
  beyond : ∀ q : Place, q.Valid (nindir nshift) → keep ≤ first (nindir nshift) q →
    node ip' q = node ip q
  mapped : ∀ lbn, mapped nshift ip' lbn = mapped nshift ip lbn ∨
    lbn + 1 = keep ∧ Tree.mapped nshift ip lbn = 0

theorem Keeps.beyond (h : Keeps (nindir nshift) q ip ip') (hv : q.Valid (nindir nshift))
    (hr : r.Valid (nindir nshift)) (hbeyond : first (nindir nshift) q < first (nindir nshift) r) :
    Tree.node ip' r = Tree.node ip r := by
  refine h.node r hr fun habove => ?_
  have hle := (Under.first_le (n := nindir nshift) (p := r) ⟨habove.1.symm, habove.2.1⟩ hv).1
  omega

/-- `bmapalloc` for one block. -/
theorem bmapalloc_one (hs : Sound (nindir nshift) ip) (hmap : ip.iMap = none) (lbn : Nat)
    (fbread : Nat → Option Nat) :
    (∃ error ip', bmapalloc nshift false fbread 1 lbn ip = (some error, ip') ∧ SameHead ip ip' ∧
      ∀ lbn', mapped nshift ip' lbn' = mapped nshift ip lbn') ∨
    ∃ ip', bmapalloc nshift false fbread 1 lbn ip = (none, ip') ∧ Extended nshift (lbn + 1) ip ip' := by
  unfold bmapalloc bmap
  rw [hmap]
  cases hq : leafOf nshift lbn with
  | none =>
    rw [lbmap_none hq]
    exact .inl ⟨EFBIG, ip, rfl, SameHead.refl, fun _ => rfl⟩
  | some q =>
    obtain ⟨hv, hleaf⟩ := leafOf_valid hq
    have hfirst := first_leafOf hq
    have houtcome := lbmap_outcome (r := ⟨.S_WRITE, false, false, fbread lbn⟩) hs hq
    generalize lbmap nshift _ lbn ip = result at houtcome
    cases houtcome with
    | found hne =>
      exact .inr ⟨_, rfl, hs, SameHead.refl, fun _ _ _ => rfl, fun _ => .inl rfl⟩
    | hole _ hread => exact absurd rfl hread
    | grown hzero _ hkeeps hgrows =>
      refine .inr ⟨_, rfl, hgrows.sound, hkeeps.head.trans hgrows.head, fun r hr hbeyond => ?_,
        fun lbn' => ?_⟩
      · rw [hgrows.node r hr, if_neg]
        · exact hkeeps.beyond hv hr (by omega)
        · rintro rfl
          omega
      · by_cases heq : lbn' = lbn
        · rw [heq, mapped_eq hq, mapped_eq hq]
          exact .inr ⟨rfl, hzero⟩
        · exact .inl ((hgrows.mapped_of_ne hq heq).trans (hkeeps.mapped hv))
    | failed _ _ hkeeps _ =>
      exact .inl ⟨_, _, rfl, hkeeps.head, fun lbn' => hkeeps.mapped hv⟩

/-- What a file is like with its new length. -/
structure Lengthened (nshift lStart : Nat) (ip ip' : Inode) (freed : List Nat) : Prop where
  iSize : ip'.iSize = lStart
  wellFormed : WellFormed nshift ip'
  nodup : freed.Nodup
  freed : ∀ b, b ∈ freed ↔ lStart < ip.iSize ∧ ∃ q : Place, q.Valid (nindir nshift) ∧
    keepOf nshift lStart ≤ first (nindir nshift) q ∧ node ip q = b ∧ b ≠ 0
  below : ∀ lbn, lbn < keepOf nshift lStart → mapped nshift ip' lbn = mapped nshift ip lbn ∨
    lbn + 1 = keepOf nshift lStart ∧ mapped nshift ip lbn = 0 ∧
      (ip.iSize < lStart ∨ lStart < ip.iSize ∧ clearOffset nshift lStart ≠ 0)
  beyond : lStart < ip.iSize → ∀ lbn, keepOf nshift lStart ≤ lbn → mapped nshift ip' lbn = 0

theorem keepOf_pred (hpos : 0 < lStart) :
    (lStart - 1) >>> vfsBshift nshift + 1 = keepOf nshift lStart := by
  have hbsize : vfsBsize nshift = 2 ^ vfsBshift nshift := Nat.one_shiftLeft _
  have htwo : 0 < 2 ^ vfsBshift nshift := Nat.two_pow_pos _
  unfold keepOf
  rw [Nat.shiftRight_eq_div_pow, Nat.shiftRight_eq_div_pow, hbsize,
    show lStart + 2 ^ vfsBshift nshift - 1 = lStart - 1 + 2 ^ vfsBshift nshift by omega,
    Nat.add_div_right _ htwo]

theorem keepOf_le (hle : lStart ≤ ip.iSize) : keepOf nshift lStart ≤ fileBlocks nshift ip := by
  have hbsize : vfsBsize nshift = 2 ^ vfsBshift nshift := one_shiftLeft _
  unfold keepOf fileBlocks
  rw [shiftRight_eq_div_pow, ← hbsize]
  exact Nat.div_le_div_right (by omega)

/-- The last steps of `s5freesp`. -/
theorem Extended.lengthened {ip₀ : Inode} (h : Extended nshift (keepOf nshift lStart) ip₀ ip')
    (hmap : ip₀.iMap = none) (hnodes : ∀ q, node ip₀ q = node ip q)
    (hmax : keepOf nshift lStart ≤ maxLbn nshift) (hlt : lStart < ip.iSize)
    (hwhen : (∀ lbn, Tree.mapped nshift ip' lbn = Tree.mapped nshift ip lbn) ∨ clearOffset nshift lStart ≠ 0) :
    (truncate nshift lStart ip').1 = none ∧
      Lengthened nshift lStart ip (truncate nshift lStart ip').2.1 (truncate nshift lStart ip').2.2 := by
  obtain ⟨hnone, hsame, hsize, hsound, hnode, hnodup, hfreed⟩ := truncate_spec h.sound hmax
  have hmapped₀ : ∀ lbn, Tree.mapped nshift ip₀ lbn = Tree.mapped nshift ip lbn :=
    fun lbn => mapped_congr fun q _ _ => hnodes q
  have hmapped : ∀ lbn, Tree.mapped nshift (truncate nshift lStart ip').2.1 lbn =
      if keepOf nshift lStart ≤ lbn then 0 else Tree.mapped nshift ip' lbn := by
    intro lbn
    cases hq : leafOf nshift lbn with
    | none =>
      unfold Tree.mapped
      rw [hq]
      exact (ite_self _).symm
    | some q =>
      rw [mapped_eq hq, mapped_eq hq, hnode q (leafOf_valid hq).1, first_leafOf hq]
  refine ⟨hnone, hsize, WellFormed.of_none hsound (hsame.trans (h.head.iMap.trans hmap)), hnodup,
    fun b => (hfreed b).trans ⟨?_, ?_⟩, fun lbn hbelow => ?_, fun _ lbn hbeyond => ?_⟩
  · rintro ⟨q, hv, hbeyond, hb, hne⟩
    rw [h.beyond q hv hbeyond, hnodes] at hb
    exact ⟨hlt, q, hv, hbeyond, hb, hne⟩
  · rintro ⟨-, q, hv, hbeyond, hb, hne⟩
    rw [← hnodes, ← h.beyond q hv hbeyond] at hb
    exact ⟨q, hv, hbeyond, hb, hne⟩
  · rw [hmapped, if_neg (by omega)]
    rcases hwhen with hall | hoffset
    · exact .inl (hall lbn)
    · rcases h.mapped lbn with heq | ⟨hlast, hzero⟩
      · exact .inl (heq.trans (hmapped₀ lbn))
      · exact .inr ⟨hlast, (hmapped₀ lbn).symm.trans hzero, .inr ⟨hlt, hoffset⟩⟩
  · rw [hmapped, if_pos hbeyond]

/-- What a call of `s5freesp` comes to. -/
structure FreespOk (nshift lStart : Nat) (ip : Inode) (result : Option Nat × Inode × List Nat) :
    Prop where
  failed : ∀ error, result.1 = some error → result.2.2 = [] ∧ result.2.1.iSize = ip.iSize ∧
    ∀ lbn, mapped nshift result.2.1 lbn = mapped nshift ip lbn
  done : result.1 = none → Lengthened nshift lStart ip result.2.1 result.2.2

theorem FreespOk.of_error {error : Nat} (hsize : ip'.iSize = ip.iSize)
    (hmapped : ∀ lbn, mapped nshift ip' lbn = mapped nshift ip lbn) :
    FreespOk nshift lStart ip (some error, ip', []) where
  failed _ _ := ⟨rfl, hsize, hmapped⟩
  done hnone := by cases hnone

theorem FreespOk.of_done {result : Option Nat × Inode × List Nat} (hnone : result.1 = none)
    (h : Lengthened nshift lStart ip result.2.1 result.2.2) : FreespOk nshift lStart ip result where
  failed error herror := by
    rw [hnone] at herror
    cases herror
  done _ := h

theorem Extended.grown (h : Extended nshift (keepOf nshift lStart) (unmapped ip) ip')
    (hlt : ip.iSize < lStart) : FreespOk nshift lStart ip (none, { ip' with iSize := lStart }, []) := by
  have hkept : Sound (nindir nshift) { ip' with iSize := lStart } ∧
      ∀ q : Place, q.Valid (nindir nshift) → node { ip' with iSize := lStart } q = node ip' q :=
    h.sound.congr rfl h.sound.idle (fun _ _ _ => rfl) (fun _ => .rfl)
      fun q hv hne => (h.sound.owned q hv hne).2
  refine FreespOk.of_done rfl ⟨rfl, WellFormed.of_none hkept.1 h.head.iMap, nodup_nil,
    fun b => ⟨fun hb => absurd hb not_mem_nil, fun hb => ?_⟩, fun lbn _ => ?_, fun hgt => ?_⟩
  · exact absurd hb.1 (not_lt.mpr hlt.le)
  · have hsame : Tree.mapped nshift { ip' with iSize := lStart } lbn = Tree.mapped nshift ip' lbn :=
      mapped_congr fun q hv _ => hkept.2 q hv
    rcases h.mapped lbn with heq | ⟨hlast, hzero⟩
    · exact .inl (hsame.trans (heq.trans mapped_unmapped))
    · exact .inr ⟨hlast, mapped_unmapped.symm.trans hzero, .inl hlt⟩
  · exact absurd hgt (not_lt.mpr hlt.le)

/-- A file with a new length no longer has its blocks beyond it, data blocks as well as indirect ones
that lead to nothing below; each is freed once, and the blocks below stay. The last block below is
allocated if it was a hole, unless the file becomes shorter and ends with a page or block. -/
theorem s5freesp_lengthens (hwf : WellFormed nshift ip) (hreg : ip.vType = .VREG)
    (hmax : fileBlocks nshift ip ≤ maxLbn nshift) (io : FreeIo) (lLen : Int) (lStart : Nat) :
    FreespOk nshift lStart ip (s5freesp nshift io lLen lStart ip) := by
  have hfreed : s5freemap ip = unmapped ip := if_neg (not_not.mpr hreg)
  have hs : Sound (nindir nshift) (unmapped ip) := unmapped_sound hwf.sound
  have hnodes : ∀ q, node (unmapped ip) q = node ip q := fun q => node_unmapped
  have halloc := bmapalloc_one hs rfl ((lStart - 1) >>> vfsBshift nshift) io.fbread
  unfold s5freesp
  rw [hfreed]
  by_cases hlen : lLen ≠ 0
  · rw [if_pos hlen]
    exact FreespOk.of_error rfl fun _ => rfl
  rw [if_neg hlen]
  by_cases hsame : ip.iSize = lStart
  · rw [if_pos hsame]
    refine FreespOk.of_done rfl ⟨hsame, hwf, nodup_nil, fun b =>
      ⟨fun hb => absurd hb not_mem_nil, fun hb => ?_⟩, fun lbn _ => .inl rfl, fun hlt => ?_⟩
    · exact absurd hb.1 (not_lt.mpr hsame.le)
    · exact absurd hlt (not_lt.mpr hsame.le)
  rw [if_neg hsame]
  by_cases hswap : (lStart < ip.iSize && io.swap) = true
  · rw [if_pos hswap]
    exact FreespOk.of_error rfl fun _ => rfl
  rw [if_neg hswap]
  cases io.lock with
  | some error => exact FreespOk.of_error rfl fun _ => rfl
  | none =>
    by_cases hgrow : ip.iSize < lStart
    · rw [if_pos hgrow]
      rcases halloc with ⟨error, ip', hrun, hhead, hmapped⟩ | ⟨ip', hrun, hext⟩
      · rw [hrun]
        exact FreespOk.of_error hhead.iSize fun lbn => (hmapped lbn).trans mapped_unmapped
      · rw [hrun]
        rw [keepOf_pred (lt_of_le_of_lt (zero_le _) hgrow)] at hext
        exact hext.grown hgrow
    rw [if_neg hgrow]
    have hlt : lStart < ip.iSize := by omega
    have hkeep : keepOf nshift lStart ≤ maxLbn nshift := le_trans (keepOf_le hlt.le) hmax
    cases io.vcode with
    | some error => exact FreespOk.of_error rfl fun _ => mapped_unmapped
    | none =>
      by_cases hoffset : clearOffset nshift lStart = 0
      · rw [if_pos hoffset]
        have hext : Extended nshift (keepOf nshift lStart) (unmapped ip) (unmapped ip) :=
          ⟨hs, SameHead.refl, fun _ _ _ => rfl, fun _ => .inl rfl⟩
        obtain ⟨hnone, hdone⟩ := hext.lengthened rfl hnodes hkeep hlt (.inl fun _ => mapped_unmapped)
        exact FreespOk.of_done hnone hdone
      rw [if_neg hoffset]
      have hpos : 0 < lStart := by
        rcases Nat.eq_zero_or_pos lStart with rfl | hpos
        · exact absurd (zero_and _) hoffset
        · exact hpos
      rcases halloc with ⟨error, ip', hrun, hhead, hmapped⟩ | ⟨ip', hrun, hext⟩
      · rw [hrun]
        exact FreespOk.of_error hhead.iSize fun lbn => (hmapped lbn).trans mapped_unmapped
      rw [hrun]
      rw [keepOf_pred hpos] at hext
      obtain ⟨hnone, hdone⟩ := hext.lengthened rfl hnodes hkeep hlt (.inr hoffset)
      exact FreespOk.of_done hnone hdone

def quietIo : FreeIo := ⟨false, none, none, fun _ => none⟩

def sparseFile : Inode :=
  { (bmap 7 ⟨.S_WRITE, true, false, none⟩ 20 emptyFile).2 with iSize := 21 * 512 }

/-- Block 20 is the only one. -/
theorem sparseFile_mapped :
    Sound (nindir 7) sparseFile ∧ ∀ lbn, lbn ≠ 20 → mapped 7 sparseFile lbn = 0 := by
  have hs : Sound (nindir 7) emptyFile :=
    ⟨threeFree_idle, fun _ _ hne => absurd (emptyFile_hole _ _) hne,
      fun _ _ _ _ hne => absurd (emptyFile_hole _ _) hne⟩
  obtain ⟨q, hq⟩ := leafOf_isSome (show 20 < maxLbn 7 by decide)
  have hok : (lbmap 7 ⟨.S_WRITE, true, false, none⟩ 20 emptyFile).1.toOption.isSome = true := by decide
  have houtcome := lbmap_outcome (r := ⟨.S_WRITE, true, false, none⟩) hs hq
  have hfile : sparseFile =
      { (lbmap 7 ⟨.S_WRITE, true, false, none⟩ 20 emptyFile).2 with iSize := 21 * 512 } := rfl
  rw [hfile]
  generalize lbmap 7 _ 20 emptyFile = result at houtcome hok
  cases houtcome with
  | found hne => exact absurd (emptyFile_hole _ _) hne
  | hole _ hread => exact absurd rfl hread
  | failed _ _ _ _ => cases hok
  | @grown ip₁ ip' nb _ _ _ hkeeps hgrows =>
    have hkept : Sound (nindir 7) { ip' with iSize := 21 * 512 } ∧
        ∀ q : Place, q.Valid (nindir 7) → node { ip' with iSize := 21 * 512 } q = node ip' q :=
      hgrows.sound.congr rfl hgrows.sound.idle (fun _ _ _ => rfl) (fun _ => .rfl)
        fun q hv hne => (hgrows.sound.owned q hv hne).2
    refine ⟨hkept.1, fun lbn hne => ?_⟩
    calc mapped 7 { ip' with iSize := 21 * 512 } lbn = mapped 7 ip' lbn :=
          mapped_congr fun q hv _ => hkept.2 q hv
      _ = mapped 7 ip₁ lbn := hgrows.mapped_of_ne hq hne
      _ = mapped 7 emptyFile lbn := hkeeps.mapped (leafOf_valid hq).1
      _ = 0 := by
          unfold mapped
          cases leafOf 7 lbn with
          | none => rfl
          | some q => exact emptyFile_hole _ _

theorem sparseFile_wellFormed : WellFormed 7 sparseFile :=
  WellFormed.of_none sparseFile_mapped.1 rfl

/-- The file is cut before its only block: that block is freed. -/
theorem s5freesp_lengthens_sparse : (s5freesp 7 quietIo 0 8192 sparseFile).2.2 = [3] ∧
      FreespOk 7 8192 sparseFile (s5freesp 7 quietIo 0 8192 sparseFile) :=
  ⟨by decide, s5freesp_lengthens sparseFile_wellFormed rfl (by decide) quietIo 0 8192⟩

/-- The indirect block that led to the only block stays, and leads to nothing. With a length that is no
multiple of the page size the last block below, which was a hole, is allocated. -/
theorem s5freesp_keeps_indirect : ∃ ip : Inode, WellFormed 7 ip ∧ ip.vType = .VREG ∧
    (s5freesp 7 quietIo 0 8192 ip).1 = none ∧
    (s5freesp 7 quietIo 0 8192 ip).2.1.iAddr 10 ≠ 0 ∧
    (s5freesp 7 quietIo 0 8192 ip).2.1.iAddr 10 ∉ (s5freesp 7 quietIo 0 8192 ip).2.2 ∧
    (∀ lbn, mapped 7 (s5freesp 7 quietIo 0 8192 ip).2.1 lbn = 0) ∧
    (s5freesp 7 quietIo 0 8292 ip).1 = none ∧ mapped 7 ip 16 = 0 ∧
    mapped 7 (s5freesp 7 quietIo 0 8292 ip).2.1 16 ≠ 0 := by
  refine ⟨sparseFile, sparseFile_wellFormed, rfl, by decide, by decide, by decide, fun lbn => ?_,
    by decide, by decide, by decide⟩
  have hrun : s5freesp 7 quietIo 0 8192 sparseFile = truncate 7 8192 (unmapped sparseFile) := rfl
  have hs : Sound (nindir 7) (unmapped sparseFile) := unmapped_sound sparseFile_mapped.1
  obtain ⟨-, -, -, -, hnode, -⟩ := truncate_spec hs (show keepOf 7 8192 ≤ maxLbn 7 by decide)
  rw [hrun]
  cases hq : leafOf 7 lbn with
  | none =>
    unfold mapped
    rw [hq]
  | some q =>
    rw [mapped_eq hq, hnode q (leafOf_valid hq).1, first_leafOf hq]
    by_cases hbeyond : keepOf 7 8192 ≤ lbn
    · exact if_pos hbeyond
    rw [if_neg hbeyond, ← mapped_eq hq, mapped_unmapped]
    refine sparseFile_mapped.2 lbn ?_
    rintro rfl
    exact hbeyond (by decide)

end Svr42.S5.Tree

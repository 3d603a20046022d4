import Mathlib.Algebra.BigOperators.Group.Finset.Piecewise
import Mathlib.Algebra.Order.BigOperators.Group.Finset
import Svr42.DispModel

/-! What the queues, the counts, the bitmap, the total and the highest priority of the dispatcher
have to do with each other, and that every call keeps it so. -/

namespace Svr42.Disp
open Function List Option

open Bitmap

variable {Ptr : Type} {s s' : Dispatcher Ptr} {n pri : Nat} {cnt cnt' : Nat → Nat} {pp rp : Ptr}
  {queues : Nat → List Ptr}

/-! ### The counts -/

/-- The counts of schedulable processes, the bitmap of the priorities that have some, the total and
the highest one are those of `cnt`. -/
structure Active (n : Nat) (s : Dispatcher Ptr) (cnt : Nat → Nat) : Prop where
  counts : ∀ pri, (s.dispq pri).dqSruncnt = cnt pri
  bits : ∀ pri, btTest s.dqactmap pri = decide (0 < cnt pri)
  total : s.srunprocs = (∑ pri ∈ Finset.range n, cnt pri : Nat)
  max : Top (fun pri => decide (0 < cnt pri)) n s.maxrunpri
  range : ∀ pri, n ≤ pri → cnt pri = 0

/-- Nothing the counts are kept in changes. -/
structure SameCounts (s s' : Dispatcher Ptr) : Prop where
  counts : ∀ pri, (s'.dispq pri).dqSruncnt = (s.dispq pri).dqSruncnt
  map : s'.dqactmap = s.dqactmap
  total : s'.srunprocs = s.srunprocs
  max : s'.maxrunpri = s.maxrunpri

theorem Active.same (h : Active n s cnt) (hsame : SameCounts s s') : Active n s' cnt where
  counts pri := (hsame.counts pri).trans (h.counts pri)
  bits pri := by
    rw [hsame.map]
    exact h.bits pri
  total := hsame.total.trans h.total
  max := by
    rw [hsame.max]
    exact h.max
  range := h.range

theorem sum_update (hpri : pri < n) (c : Nat) :
    ∑ i ∈ Finset.range n, update cnt pri c i + cnt pri = ∑ i ∈ Finset.range n, cnt i + c := by
  have hmem : pri ∈ Finset.range n := Finset.mem_range.mpr hpri
  calc ∑ i ∈ Finset.range n, update cnt pri c i + cnt pri
      = c + ∑ i ∈ Finset.range n \ {pri}, cnt i + cnt pri := by
        rw [Finset.sum_update_of_mem hmem]
    _ = ∑ i ∈ Finset.range n \ {pri}, cnt i + cnt pri + c := by ac_rfl
    _ = ∑ i ∈ Finset.range n, cnt i + c := by
        rw [← Finset.sum_sdiff (Finset.singleton_subset_iff.mpr hmem), Finset.sum_singleton]

/-- One more schedulable process. -/
theorem Active.inc (h : Active n s cnt) (hpri : pri < n) :
    Active n (dqSruninc s pri) (update cnt pri (cnt pri + 1)) := by
  have htotal : s.srunprocs + 1 = (∑ i ∈ Finset.range n, update cnt pri (cnt pri + 1) i : Nat) := by
    have hsum : (∑ i ∈ Finset.range n, update cnt pri (cnt pri + 1) i : Nat) + cnt pri =
        ∑ i ∈ Finset.range n, cnt i + (cnt pri + 1) := sum_update hpri (cnt pri + 1)
    rw [h.total]
    omega
  have hcounts : ∀ i, (update s.dispq pri
      { s.dispq pri with dqSruncnt := (s.dispq pri).dqSruncnt + 1 } i).dqSruncnt =
        (update cnt pri (cnt pri + 1) i : Nat) := by
    intro i
    by_cases hi : i = pri
    · rw [hi, update_self, update_self, h.counts]
      rfl
    · rw [update_of_ne hi, update_of_ne hi]
      exact h.counts i
  have hrange : ∀ i, n ≤ i → update cnt pri (cnt pri + 1) i = 0 := by
    intro i hi
    rw [update_of_ne (by omega)]
    exact h.range i hi
  unfold dqSruninc
  by_cases hone : (s.dispq pri).dqSruncnt + 1 = 1
  · -- the first one of its priority
    have hbits : ∀ i, decide (0 < update cnt pri (cnt pri + 1) i) =
        (decide (0 < cnt i) || decide (i = pri)) := by
      intro i
      by_cases hi : i = pri
      · rw [hi, update_self, decide_eq_true rfl, Bool.or_true]
        exact decide_eq_true (Nat.succ_pos _)
      · rw [update_of_ne hi, decide_eq_false hi, Bool.or_false]
    simp only [if_pos hone]
    refine ⟨hcounts, fun i => ?_, htotal, h.max.set hpri hbits, hrange⟩
    rw [btTest_btSet, h.bits, hbits]
  · have hpos : 0 < cnt pri := by
      have hcount := h.counts pri
      omega
    have hbits : ∀ i, decide (0 < update cnt pri (cnt pri + 1) i) = decide (0 < cnt i) := by
      intro i
      by_cases hi : i = pri
      · rw [hi, update_self, decide_eq_true hpos]
        exact decide_eq_true (Nat.succ_pos _)
      · rw [update_of_ne hi]
    simp only [if_neg hone]
    refine ⟨hcounts, fun i => ?_, htotal, ?_, hrange⟩
    · rw [hbits]
      exact h.bits i
    · rw [funext hbits]
      exact h.max

/-- One schedulable process fewer. -/
theorem Active.dec (h : Active n s cnt) (hpos : 0 < cnt pri) :
    Active n (dqSrundec s pri) (update cnt pri (cnt pri - 1)) := by
  have hpri : pri < n := by
    by_contra hge
    have hzero := h.range pri (not_lt.mp hge)
    omega
  have hsum : (∑ i ∈ Finset.range n, update cnt pri (cnt pri - 1) i : Nat) + cnt pri =
      ∑ i ∈ Finset.range n, cnt i + (cnt pri - 1) := sum_update hpri (cnt pri - 1)
  have htotal : s.srunprocs - 1 = (∑ i ∈ Finset.range n, update cnt pri (cnt pri - 1) i : Nat) := by
    rw [h.total]
    omega
  have hcounts : ∀ i, (update s.dispq pri
      { s.dispq pri with dqSruncnt := (s.dispq pri).dqSruncnt - 1 } i).dqSruncnt =
        (update cnt pri (cnt pri - 1) i : Nat) := by
    intro i
    by_cases hi : i = pri
    · rw [hi, update_self, update_self]
      change (s.dispq pri).dqSruncnt - 1 = _
      rw [h.counts]
      omega
    · rw [update_of_ne hi, update_of_ne hi]
      exact h.counts i
  have hrange : ∀ i, n ≤ i → update cnt pri (cnt pri - 1) i = 0 := by
    intro i hi
    rw [update_of_ne (by omega)]
    exact h.range i hi
  unfold dqSrundec
  by_cases hlast : (s.dispq pri).dqSruncnt - 1 = 0
  · -- the last one of its priority
    have hone : cnt pri = 1 := by
      have hcount := h.counts pri
      omega
    have hbits : ∀ i, decide (0 < update cnt pri (cnt pri - 1) i) =
        (decide (0 < cnt i) && !decide (i = pri)) := by
      intro i
      by_cases hi : i = pri
      · rw [hi, update_self, decide_eq_true rfl, hone]
        rfl
      · rw [update_of_ne hi, decide_eq_false hi, Bool.not_false, Bool.and_true]
    have hmap : ∀ i, btTest (btClear s.dqactmap pri) i =
        decide (0 < update cnt pri (cnt pri - 1) i) := by
      intro i
      rw [btTest_btClear, h.bits, hbits]
    simp only [if_pos hlast]
    refine ⟨hcounts, hmap, htotal, ?_, hrange⟩
    by_cases hnone : s.srunprocs - 1 = 0
    · -- nothing can run
      rw [if_pos hnone]
      refine .inl ⟨rfl, fun i hi => decide_eq_false ?_⟩
      have hall : ∑ i ∈ Finset.range n, update cnt pri (cnt pri - 1) i = 0 := by omega
      rw [Finset.sum_eq_zero_iff.mp hall i (Finset.mem_range.mpr hi)]
      exact lt_irrefl 0
    rw [if_neg hnone]
    by_cases hmax : pri = s.maxrunpri
    · -- the search goes down from the word that has the bit
      have hoff : ∀ i, (pri >>> 5 + 1) * 32 ≤ i → btTest (btClear s.dqactmap pri) i = false := by
        intro i hi
        have hgt : pri < i := by
          rw [index_eq] at hi
          omega
        rw [hmap, update_of_ne hgt.ne']
        by_cases hin : i < n
        · rcases h.max with ⟨hneg, -⟩ | ⟨top, htop, hhigh⟩
          · omega
          · exact hhigh.above i (by omega) hin
        · rw [h.range i (not_lt.mp hin)]
          rfl
      have hword : Top (btTest (btClear s.dqactmap pri)) ((pri >>> 5 + 1) * 32)
          (btGethighbit (btClear s.dqactmap pri) (pri >>> 5)) := btGethighbit_ok
      have htop := Top.cut (n := n) hword hoff fun i hi => by
          rw [hmap, hrange i hi]
          rfl
      rw [if_pos hmax, ← hmax, Int.toNat_natCast]
      rw [funext hmap] at htop
      exact htop
    · rw [if_neg hmax]
      exact h.max.clear hmax hbits
  · have hmore : 0 < cnt pri - 1 := by
      have hcount := h.counts pri
      omega
    have hbits : ∀ i, decide (0 < update cnt pri (cnt pri - 1) i) = decide (0 < cnt i) := by
      intro i
      by_cases hi : i = pri
      · rw [hi, update_self, decide_eq_true hpos, decide_eq_true hmore]
      · rw [update_of_ne hi]
    simp only [if_neg hlast]
    refine ⟨hcounts, fun i => ?_, htotal, ?_, hrange⟩
    · rw [hbits]
      exact h.bits i
    · rw [funext hbits]
      exact h.max

/-! ### The queues -/

/-- Every queue is a list with the ends its header says, of processes of its priority. -/
structure Queues (n : Nat) (s : Dispatcher Ptr) (queues : Nat → List Ptr) : Prop where
  linked : ∀ pri, Linked s.link (s.dispq pri).dqFirst (queues pri)
  last : ∀ pri, (s.dispq pri).dqLast = (queues pri).getLast?
  pri : ∀ pri, ∀ pp ∈ queues pri, (s.proc pp).pPri = pri
  range : ∀ pri, n ≤ pri → queues pri = []

theorem Queues.congr (h : Queues n s queues) (hlink : s'.link = s.link)
    (hfirst : ∀ pri, (s'.dispq pri).dqFirst = (s.dispq pri).dqFirst)
    (hlast : ∀ pri, (s'.dispq pri).dqLast = (s.dispq pri).dqLast)
    (hpri : ∀ pp, (s'.proc pp).pPri = (s.proc pp).pPri) : Queues n s' queues where
  linked pri := by
    rw [hlink, hfirst]
    exact h.linked pri
  last pri := (hlast pri).trans (h.last pri)
  pri pri pp hmem := (hpri pp).trans (h.pri pri pp hmem)
  range := h.range

theorem Queues.disjoint (h : Queues n s queues) {pri' : Nat} (hpp : pp ∈ queues pri)
    (hpp' : pp ∈ queues pri') : pri' = pri :=
  (h.pri pri' pp hpp').symm.trans (h.pri pri pp hpp)

/-- The queue of `pri` changes, and the links of what was or is on it only. -/
theorem Queues.set (h : Queues n s queues) {cells : List Ptr} (hpri : pri < n)
    (hlinked : Linked s'.link (s'.dispq pri).dqFirst cells)
    (hlast : (s'.dispq pri).dqLast = cells.getLast?) (hcells : ∀ pp ∈ cells, (s.proc pp).pPri = pri)
    (hlink : ∀ i ≠ pri, ∀ pp ∈ queues i, s'.link pp = s.link pp)
    (hproc : ∀ pp, (s'.proc pp).pPri = (s.proc pp).pPri) (hother : ∀ i ≠ pri, s'.dispq i = s.dispq i) :
    Queues n s' (update queues pri cells) where
  linked i := by
    by_cases hi : i = pri
    · rw [hi, update_self]
      exact hlinked
    · rw [update_of_ne hi, hother i hi]
      exact (h.linked i).congr (hlink i hi)
  last i := by
    by_cases hi : i = pri
    · rw [hi, update_self]
      exact hlast
    · rw [update_of_ne hi, hother i hi]
      exact h.last i
  pri i pp hmem := by
    rw [hproc]
    by_cases hi : i = pri
    · rw [hi, update_self] at hmem
      rw [hi]
      exact hcells pp hmem
    · rw [update_of_ne hi] at hmem
      exact h.pri i pp hmem
  range i hi := by
    rw [update_of_ne (by omega)]
    exact h.range i hi

theorem setEnds_self {first last : Option Ptr} :
    (setEnds s pri first last).dispq pri = { s.dispq pri with dqFirst := first, dqLast := last } :=
  update_self _ _ _

theorem setEnds_of_ne {first last : Option Ptr} {i : Nat} (hi : i ≠ pri) :
    (setEnds s pri first last).dispq i = s.dispq i :=
  update_of_ne hi _ _

section Links

variable [DecidableEq Ptr] {link : Option Ptr}

theorem link_setLink : (setLink s pp link).link = update s.link pp link := by
  funext rp
  by_cases hrp : rp = pp
  · simp [Dispatcher.link, setLink, hrp]
  · simp [Dispatcher.link, setLink, hrp]

theorem pPri_setLink : ((setLink s pp link).proc rp).pPri = (s.proc rp).pPri := by
  by_cases hrp : rp = pp
  · simp [setLink, hrp]
  · simp [setLink, hrp]

theorem pFlag_setLink : ((setLink s pp link).proc rp).pFlag = (s.proc rp).pFlag := by
  by_cases hrp : rp = pp
  · simp [setLink, hrp]
  · simp [setLink, hrp]

section

variable (h : Queues n s queues) (hpp : ∀ i, pp ∉ queues i) (hpri : pri < n)
  (hpPri : (s.proc pp).pPri = pri)
include h hpp hpri hpPri

theorem linkBack_ok : Queues n (linkBack s pp pri) (update queues pri (queues pri ++ [pp])) := by
  have hcells : ∀ rp ∈ queues pri ++ [pp], (s.proc rp).pPri = pri := by
    intro rp hrp
    rcases mem_append.mp hrp with hold | hnew
    · exact h.pri pri rp hold
    · rw [mem_singleton.mp hnew]
      exact hpPri
  unfold linkBack
  rcases eq_none_or_eq_some (s.dispq pri).dqLast with hlast | ⟨last, hlast⟩
  · -- the first one on the queue
    have hempty : queues pri = [] := by
      rw [h.last pri] at hlast
      exact getLast?_eq_none_iff.mp hlast
    rw [hempty] at hcells ⊢
    rw [hlast]
    refine h.set hpri ?_ ?_ hcells (fun i _ rp hrp => ?_) (fun rp => pPri_setLink)
      fun i hi => setEnds_of_ne hi
    · change Linked (setLink s pp none).link _ _
      rw [setEnds_self, link_setLink]
      exact ⟨rfl, update_self _ _ _⟩
    · rw [setEnds_self]
      rfl
    · change (setLink s pp none).link rp = s.link rp
      rw [link_setLink, update_of_ne (ne_of_mem_of_not_mem hrp (hpp i))]
  · obtain ⟨front, hfront⟩ : ∃ front, queues pri = front ++ [last] := by
      rw [h.last pri] at hlast
      exact getLast?_eq_some_iff.mp hlast
    have hmem : last ∈ queues pri := by
      rw [hfront]
      exact mem_append_right _ (mem_singleton_self last)
    rw [hlast]
    refine h.set hpri ?_ ?_ hcells (fun i hi rp hrp => ?_)
      (fun rp => pPri_setLink.trans pPri_setLink) fun i hi => setEnds_of_ne hi
    · change Linked (setLink (setLink s pp none) last (some pp)).link _ _
      rw [setEnds_self, link_setLink, link_setLink, hfront, append_assoc]
      have hlinked := (h.linked pri).update_of_notMem (hpp pri) none
      have hpp_front := hpp pri
      rw [hfront] at hlinked hpp_front
      exact hlinked.snoc hpp_front (update_self _ _ _)
    · rw [setEnds_self, getLast?_append]
      rfl
    · change (setLink (setLink s pp none) last (some pp)).link rp = s.link rp
      have hne : rp ≠ last := by
        intro heq
        rw [heq] at hrp
        exact hi (h.disjoint hmem hrp)
      rw [link_setLink, link_setLink, update_of_ne hne, update_of_ne (ne_of_mem_of_not_mem hrp (hpp i))]

theorem linkFront_ok : Queues n (linkFront s pp pri) (update queues pri (pp :: queues pri)) := by
  have hcells : ∀ rp ∈ pp :: queues pri, (s.proc rp).pPri = pri := by
    intro rp hrp
    rcases mem_cons.mp hrp with hnew | hold
    · rw [hnew]
      exact hpPri
    · exact h.pri pri rp hold
  have hlinked := (h.linked pri).push (hpp pri)
  have hlink : ∀ first, ∀ i ≠ pri, ∀ rp ∈ queues i, (setLink s pp first).link rp = s.link rp := by
    intro first i _ rp hrp
    rw [link_setLink, update_of_ne (ne_of_mem_of_not_mem hrp (hpp i))]
  unfold linkFront
  rcases eq_none_or_eq_some (s.dispq pri).dqFirst with hfirst | ⟨first, hfirst⟩
  · have hempty : queues pri = [] := by
      have hhead := (h.linked pri).start_eq
      rw [hfirst] at hhead
      exact head?_eq_none_iff.mp hhead.symm
    rw [hfirst] at hlinked ⊢
    refine h.set hpri ?_ ?_ hcells (hlink none) (fun rp => pPri_setLink) fun i hi => setEnds_of_ne hi
    · change Linked (setLink s pp none).link _ _
      rw [setEnds_self, link_setLink]
      exact hlinked
    · rw [setEnds_self, hempty]
      rfl
  · have hne : queues pri ≠ [] := by
      intro hempty
      have hhead := (h.linked pri).start_eq
      rw [hfirst, hempty] at hhead
      cases hhead
    rw [hfirst] at hlinked ⊢
    refine h.set hpri ?_ ?_ hcells (hlink (some first)) (fun rp => pPri_setLink)
      fun i hi => setEnds_of_ne hi
    · change Linked (setLink s pp (some first)).link _ _
      rw [setEnds_self, link_setLink]
      exact hlinked
    · rw [setEnds_self, getLast?_cons_of_ne_nil hne]
      exact h.last pri

end

/-- The process between `front` and `back` leaves the queue. -/
theorem unlink_ok {front back : List Ptr} (h : Queues n s queues) (hpri : pri < n)
    (hsplit : queues pri = front ++ pp :: back) :
    Queues n (unlink s pri front.getLast? pp) (update queues pri (front ++ back)) := by
  have hcells : ∀ rp ∈ front ++ back, (s.proc rp).pPri = pri := by
    intro rp hrp
    refine h.pri pri rp ?_
    rw [hsplit]
    rcases mem_append.mp hrp with hfront | hback
    · exact mem_append_left _ hfront
    · exact mem_append_right _ (.tail _ hback)
  have hlinked := h.linked pri
  have hlast := h.last pri
  rw [hsplit] at hlinked hlast
  have hnext : s.link pp = back.head? := hlinked.drop.start_eq
  have hend : s.link pp = none ↔ back = [] := by
    rw [hnext]
    exact head?_eq_none_iff
  rcases eq_nil_or_concat front with rfl | ⟨front', prp, rfl⟩
  · rw [getLast?_nil, unlink]
    refine h.set hpri ?_ ?_ hcells (fun _ _ _ _ => rfl) (fun _ => rfl) fun i hi => setEnds_of_ne hi
    · rw [setEnds_self]
      exact hlinked.2
    · rw [setEnds_self]
      by_cases hback : s.link pp = none
      · simp only [if_pos hback, hend.mp hback]
        rfl
      · have hne : back ≠ [] := fun hnil => hback (hend.mpr hnil)
        simp only [if_neg hback]
        rw [hlast, nil_append, nil_append, getLast?_cons_of_ne_nil hne]
  · rw [concat_eq_append] at hsplit hcells hlinked hlast ⊢
    have hprp : prp ∈ queues pri := by
      rw [hsplit]
      simp
    rw [getLast?_append, getLast?_singleton, some_or, unlink]
    refine h.set hpri ?_ ?_ hcells (fun i hi rp hrp => ?_) (fun _ => pPri_setLink)
      fun i hi => setEnds_of_ne hi
    · change Linked (setLink s prp (s.link pp)).link _ _
      rw [setEnds_self, link_setLink]
      rw [append_assoc] at hlinked ⊢
      exact hlinked.unlink
    · rw [setEnds_self]
      by_cases hback : s.link pp = none
      · simp only [if_pos hback, hend.mp hback]
        rw [append_nil, getLast?_append]
        rfl
      · have hne : back ≠ [] := fun hnil => hback (hend.mpr hnil)
        simp only [if_neg hback]
        rw [hlast, getLast?_append_of_ne_nil _ (cons_ne_nil _ _),
          getLast?_append_of_ne_nil _ hne, getLast?_cons_of_ne_nil hne]
    · change (setLink s prp (s.link pp)).link rp = s.link rp
      have hne : rp ≠ prp := by
        intro heq
        rw [heq] at hrp
        exact hi (h.disjoint hprp hrp)
      rw [link_setLink, update_of_ne hne]

end Links

/-! ### Both together -/

def ready (flag : Ptr → BitVec 32) (queues : Nat → List Ptr) (pri : Nat) : Nat :=
  (queues pri).countP fun pp => Schedulable (flag pp)

def Dispatcher.flag (s : Dispatcher Ptr) (pp : Ptr) : BitVec 32 := (s.proc pp).pFlag

structure Consistent (n : Nat) (s : Dispatcher Ptr) (queues : Nat → List Ptr) : Prop where
  lists : Queues n s queues
  active : Active n s (ready s.flag queues)

/-- A call changes the queue of `pri` from one list to another, and what is schedulable on it as
`cnt` says. -/
theorem ready_update {flag : Ptr → BitVec 32} {cells : List Ptr} {c : Nat}
    (hcells : cells.countP (fun pp => Schedulable (flag pp)) = c) :
    ready flag (update queues pri cells) = update (ready flag queues) pri c := by
  funext i
  by_cases hi : i = pri
  · rw [hi, update_self, ready, update_self, hcells]
  · rw [update_of_ne hi, ready, update_of_ne hi, ready]

/-- Nothing of the queues changes. -/
structure SameQueues (s s' : Dispatcher Ptr) : Prop where
  proc : s'.proc = s.proc
  first : ∀ pri, (s'.dispq pri).dqFirst = (s.dispq pri).dqFirst
  last : ∀ pri, (s'.dispq pri).dqLast = (s.dispq pri).dqLast

theorem Queues.same (h : Queues n s queues) (hsame : SameQueues s s') : Queues n s' queues := by
  refine h.congr ?_ hsame.first hsame.last fun pp => ?_
  · funext pp
    rw [Dispatcher.link, hsame.proc, Dispatcher.link]
  · rw [hsame.proc]

theorem SameQueues.flag (h : SameQueues s s') : s'.flag = s.flag := by
  funext pp
  rw [Dispatcher.flag, h.proc, Dispatcher.flag]

theorem ends_update (c : Int) :
    (∀ i, (update s.dispq pri { s.dispq pri with dqSruncnt := c } i).dqFirst = (s.dispq i).dqFirst) ∧
      ∀ i, (update s.dispq pri { s.dispq pri with dqSruncnt := c } i).dqLast = (s.dispq i).dqLast := by
  simp only [← forall_and]
  intro i
  by_cases hi : i = pri
  · rw [hi, update_self]
    exact ⟨rfl, rfl⟩
  · rw [update_of_ne hi]
    exact ⟨rfl, rfl⟩

theorem dqSruninc_same : SameQueues s (dqSruninc s pri) := by
  unfold dqSruninc
  by_cases hone : (s.dispq pri).dqSruncnt + 1 = 1
  · simp only [if_pos hone]
    exact ⟨rfl, (ends_update _).1, (ends_update _).2⟩
  · simp only [if_neg hone]
    exact ⟨rfl, (ends_update _).1, (ends_update _).2⟩

theorem dqSrundec_same : SameQueues s (dqSrundec s pri) := by
  unfold dqSrundec
  by_cases hlast : (s.dispq pri).dqSruncnt - 1 = 0
  · simp only [if_pos hlast]
    exact ⟨rfl, (ends_update _).1, (ends_update _).2⟩
  · simp only [if_neg hlast]
    exact ⟨rfl, (ends_update _).1, (ends_update _).2⟩

theorem SameCounts.setEnds (h : SameCounts s s') {first last : Option Ptr} :
    SameCounts s (setEnds s' pri first last) where
  counts i := by
    rw [← h.counts i]
    by_cases hi : i = pri
    · rw [hi, setEnds_self]
    · rw [setEnds_of_ne hi]
  map := h.map
  total := h.total
  max := h.max

theorem same_counts : SameCounts s s := ⟨fun _ => rfl, rfl, rfl, rfl⟩

theorem Consistent.counted (hlists : Queues n s queues) (hactive : Active n s cnt) (hpri : pri < n)
    (hready : ready s.flag queues = update cnt pri (cnt pri + 1)) :
    Consistent n (dqSruninc s pri) queues := by
  refine ⟨hlists.same dqSruninc_same, ?_⟩
  rw [dqSruninc_same.flag, hready]
  exact hactive.inc hpri

theorem Consistent.uncounted (hlists : Queues n s queues) (hactive : Active n s cnt) (hpos : 0 < cnt pri)
    (hready : ready s.flag queues = update cnt pri (cnt pri - 1)) :
    Consistent n (dqSrundec s pri) queues := by
  refine ⟨hlists.same dqSrundec_same, ?_⟩
  rw [dqSrundec_same.flag, hready]
  exact hactive.dec hpos

theorem first_ready {flag : Ptr → BitVec 32} (h : 0 < ready flag queues pri) :
    ∃ front pp back, queues pri = front ++ pp :: back ∧ (∀ rp ∈ front, ¬ Schedulable (flag rp)) ∧
      Schedulable (flag pp) := by
  unfold ready at h
  generalize queues pri = cells at h ⊢
  induction cells with
  | nil => exact absurd h (lt_irrefl 0)
  | cons rp rest ih =>
    by_cases hrun : Schedulable (flag rp)
    · exact ⟨[], rp, rest, rfl, nofun, hrun⟩
    rw [countP_cons_of_neg (by simpa using hrun)] at h
    obtain ⟨front, pp, back, hsplit, hfront, hpp⟩ := ih h
    refine ⟨rp :: front, pp, back, by rw [hsplit, cons_append], fun q hq => ?_, hpp⟩
    rcases mem_cons.mp hq with heq | hmem
    · rw [heq]
      exact hrun
    · exact hfront q hmem

/-- The counts of `pswtch` are those of `dq_srundec` for the highest priority. -/
theorem uncount_eq (hmax : s.maxrunpri = pri) : uncount s pri = dqSrundec s pri := by
  unfold uncount dqSrundec
  rw [hmax, if_pos rfl, Int.toNat_natCast]

section Calls

variable [DecidableEq Ptr]

theorem flag_linkBack : (linkBack s pp pri).flag = s.flag := by
  funext rp
  unfold linkBack
  cases (s.dispq pri).dqLast with
  | none => exact pFlag_setLink
  | some last => exact pFlag_setLink.trans pFlag_setLink

theorem flag_linkFront : (linkFront s pp pri).flag = s.flag := by
  funext rp
  unfold linkFront
  cases (s.dispq pri).dqFirst with
  | none => exact pFlag_setLink
  | some first => exact pFlag_setLink

theorem flag_unlink {prp : Option Ptr} : (unlink s pri prp pp).flag = s.flag := by
  funext rp
  cases prp with
  | none => rfl
  | some prp => exact pFlag_setLink

theorem SameCounts.setLink (h : SameCounts s s') {link : Option Ptr} :
    SameCounts s (setLink s' pp link) :=
  ⟨h.counts, h.map, h.total, h.max⟩

theorem linkBack_same : SameCounts s (linkBack s pp pri) := by
  unfold linkBack
  cases (s.dispq pri).dqLast with
  | none => exact same_counts.setLink.setEnds
  | some last => exact same_counts.setLink.setLink.setEnds

theorem linkFront_same : SameCounts s (linkFront s pp pri) := by
  unfold linkFront
  cases (s.dispq pri).dqFirst with
  | none => exact same_counts.setLink.setEnds
  | some first => exact same_counts.setLink.setEnds

theorem unlink_same {prp : Option Ptr} : SameCounts s (unlink s pri prp pp) := by
  cases prp with
  | none => exact same_counts.setEnds
  | some prp => exact same_counts.setLink.setEnds

section

variable (h : Consistent n s queues)
include h

omit [DecidableEq Ptr] in
/-- A process is linked in at either end of its queue, and counted if it can run. -/
theorem Consistent.enqueue {cells : List Ptr} (hpri : pri < n)
    (hlists : Queues n s' (update queues pri cells)) (hcells : cells.Perm (pp :: queues pri))
    (hsame : SameCounts s s') (hflag : s'.flag = s.flag) :
    Consistent n (if Schedulable (s.proc pp).pFlag then dqSruninc s' pri else s')
      (update queues pri cells) := by
  have hcount : cells.countP (fun pp => Schedulable (s.flag pp)) =
      ready s.flag queues pri + if Schedulable (s.proc pp).pFlag then 1 else 0 := by
    rw [hcells.countP_eq, countP_cons]
    simp only [decide_eq_true_eq]
    rfl
  by_cases hrun : Schedulable (s.proc pp).pFlag
  · rw [if_pos hrun] at hcount ⊢
    apply Consistent.counted hlists (h.active.same hsame) hpri
    rw [hflag]
    exact ready_update hcount
  · rw [if_neg hrun] at hcount ⊢
    refine ⟨hlists, ?_⟩
    rw [hflag, ready_update hcount, add_zero, update_eq_self]
    exact h.active.same hsame

/-- The process between `front` and `back` leaves its queue, and the counts if it could run. -/
theorem Consistent.dequeue {front back : List Ptr} (hsplit : queues pri = front ++ pp :: back) :
    Consistent n (if Schedulable (s.proc pp).pFlag then dqSrundec (unlink s pri front.getLast? pp) pri
        else unlink s pri front.getLast? pp)
      (update queues pri (front ++ back)) := by
  have hpri : pri < n := by
    by_contra hge
    have hempty := h.lists.range pri (not_lt.mp hge)
    rw [hempty] at hsplit
    exact append_ne_nil_of_right_ne_nil _ (cons_ne_nil _ _) hsplit.symm
  have hlists := unlink_ok h.lists hpri hsplit
  have hactive : Active n (unlink s pri front.getLast? pp) (ready s.flag queues) :=
    h.active.same unlink_same
  have hcount : ready s.flag queues pri = (front ++ back).countP
      (fun pp => Schedulable (s.flag pp)) + if Schedulable (s.proc pp).pFlag then 1 else 0 := by
    rw [ready, hsplit, perm_middle.countP_eq, countP_cons]
    simp only [decide_eq_true_eq]
    rfl
  by_cases hrun : Schedulable (s.proc pp).pFlag
  · rw [if_pos hrun] at hcount ⊢
    refine Consistent.uncounted hlists hactive (by omega) ?_
    rw [flag_unlink]
    exact ready_update (by omega)
  · rw [if_neg hrun, add_zero] at hcount
    rw [if_neg hrun]
    refine ⟨hlists, ?_⟩
    rw [flag_unlink, ready_update hcount.symm, update_eq_self]
    exact hactive

omit [DecidableEq Ptr] in
theorem Consistent.frame (hproc : s'.proc = s.proc) (hdispq : s'.dispq = s.dispq)
    (hmap : s'.dqactmap = s.dqactmap) (htotal : s'.srunprocs = s.srunprocs)
    (hmax : s'.maxrunpri = s.maxrunpri) : Consistent n s' queues := by
  have hsame : SameQueues s s' := ⟨hproc, fun i => by rw [hdispq], fun i => by rw [hdispq]⟩
  refine ⟨h.lists.same hsame, ?_⟩
  rw [hsame.flag]
  exact h.active.same ⟨fun i => by rw [hdispq], hmap, htotal, hmax⟩

/-- Changes of one process that leave its link, its priority and whether it can run. -/
theorem Consistent.change {p : Proc Ptr} (hlink : p.pLink = (s.proc pp).pLink)
    (hpri : p.pPri = (s.proc pp).pPri) (hflag : Schedulable p.pFlag ↔ Schedulable (s.proc pp).pFlag) :
    Consistent n { s with proc := update s.proc pp p } queues := by
  have hother : ∀ rp, rp ≠ pp → update s.proc pp p rp = s.proc rp := fun rp hrp => update_of_ne hrp _ _
  constructor
  · refine h.lists.congr ?_ (fun _ => rfl) (fun _ => rfl) fun rp => ?_
    · funext rp
      change (update s.proc pp p rp).pLink = (s.proc rp).pLink
      by_cases hrp : rp = pp
      · rw [hrp, update_self, hlink]
      · rw [hother rp hrp]
    · change (update s.proc pp p rp).pPri = (s.proc rp).pPri
      by_cases hrp : rp = pp
      · rw [hrp, update_self, hpri]
      · rw [hother rp hrp]
  · have hsched : ∀ rp, Schedulable (update s.proc pp p rp).pFlag ↔ Schedulable (s.proc rp).pFlag := by
      intro rp
      by_cases hrp : rp = pp
      · rw [hrp, update_self]
        exact hflag
      · rw [hother rp hrp]
    have hready : ready (fun rp => (update s.proc pp p rp).pFlag) queues = ready s.flag queues := by
      funext i
      refine countP_congr fun rp _ => ?_
      rw [decide_eq_true_eq, decide_eq_true_eq]
      exact hsched rp
    have hactive := h.active
    rw [← hready] at hactive
    exact hactive.same ⟨fun _ => rfl, rfl, rfl, rfl⟩

theorem Consistent.changeOther {p : Proc Ptr} (hpp : ∀ i, pp ∉ queues i) :
    Consistent n { s with proc := update s.proc pp p } queues := by
  have hother : ∀ i, ∀ rp ∈ queues i, update s.proc pp p rp = s.proc rp :=
    fun i rp hrp => update_of_ne (ne_of_mem_of_not_mem hrp (hpp i)) _ _
  constructor
  · refine ⟨fun i => (h.lists.linked i).congr fun rp hrp => ?_, h.lists.last, fun i rp hrp => ?_,
      h.lists.range⟩
    · change (update s.proc pp p rp).pLink = (s.proc rp).pLink
      rw [hother i rp hrp]
    · change (update s.proc pp p rp).pPri = i
      rw [hother i rp hrp]
      exact h.lists.pri i rp hrp
  · have hready : ready (fun rp => (update s.proc pp p rp).pFlag) queues = ready s.flag queues := by
      funext i
      refine countP_congr fun rp hrp => ?_
      change decide (Schedulable (update s.proc pp p rp).pFlag) = true ↔ _
      rw [hother i rp hrp]
      exact .rfl
    have hactive := h.active
    rw [← hready] at hactive
    exact hactive.same ⟨fun _ => rfl, rfl, rfl, rfl⟩

end

theorem flag_setFlag {pFlag : BitVec 32} : (setFlag s pp pFlag).flag = update s.flag pp pFlag := by
  funext rp
  by_cases hrp : rp = pp
  · simp [Dispatcher.flag, setFlag, hrp]
  · simp [Dispatcher.flag, setFlag, hrp]

theorem setFlag_lists {pFlag : BitVec 32} (h : Queues n s queues) :
    Queues n (setFlag s pp pFlag) queues := by
  refine h.congr ?_ (fun _ => rfl) (fun _ => rfl) fun rp => ?_
  · funext rp
    by_cases hrp : rp = pp
    · simp [Dispatcher.link, setFlag, hrp]
    · simp [Dispatcher.link, setFlag, hrp]
  · by_cases hrp : rp = pp
    · simp [setFlag, hrp]
    · simp [setFlag, hrp]

/-- The flags of a process on the queue of `pri` change: the others count as before. -/
theorem ready_setFlag (pFlag : BitVec 32) (h : Queues n s queues) (hpp : pp ∈ queues pri) :
    ∃ others, ready s.flag queues pri = others + (if Schedulable (s.proc pp).pFlag then 1 else 0) ∧
      ready (setFlag s pp pFlag).flag queues = update (ready s.flag queues) pri
          (others + if Schedulable pFlag then 1 else 0) := by
  obtain ⟨front, back, hsplit⟩ := append_of_mem hpp
  have hnodup := (h.linked pri).nodup
  rw [hsplit, perm_middle.nodup_iff, nodup_cons] at hnodup
  -- what the process counts for beside the others, under any flags
  have hcount : ∀ flag : Ptr → BitVec 32, ready flag queues pri =
      (front ++ back).countP (fun rp => Schedulable (flag rp)) +
        if Schedulable (flag pp) then 1 else 0 := by
    intro flag
    rw [ready, hsplit, perm_middle.countP_eq, countP_cons]
    simp only [decide_eq_true_eq]
  refine ⟨_, hcount s.flag, ?_⟩
  rw [flag_setFlag]
  funext i
  by_cases hi : i = pri
  · rw [hi, update_self, hcount, update_self]
    congr 1
    refine countP_congr fun rp hrp => ?_
    rw [update_of_ne (ne_of_mem_of_not_mem hrp hnodup.1)]
  · rw [update_of_ne hi]
    refine countP_congr fun rp hrp => ?_
    have hne : rp ≠ pp := by
      intro heq
      rw [heq] at hrp
      exact hi (h.disjoint hpp hrp)
    rw [update_of_ne hne]

theorem Consistent.sruninc {pFlag : BitVec 32} (h : Consistent n s queues) (hpp : pp ∈ queues pri)
    (hold : ¬ Schedulable (s.proc pp).pFlag) (hnew : Schedulable pFlag) :
    Consistent n (dqSruninc (setFlag s pp pFlag) pri) queues := by
  have hpri : pri < n := by
    by_contra hge
    rw [h.lists.range pri (not_lt.mp hge)] at hpp
    cases hpp
  obtain ⟨others, hbefore, hafter⟩ := ready_setFlag pFlag h.lists hpp
  rw [if_neg hold, add_zero] at hbefore
  rw [if_pos hnew, ← hbefore] at hafter
  exact Consistent.counted (setFlag_lists h.lists) (h.active.same ⟨fun _ => rfl, rfl, rfl, rfl⟩) hpri
    hafter

theorem Consistent.srundec {pFlag : BitVec 32} (h : Consistent n s queues) (hpp : pp ∈ queues pri)
    (hold : Schedulable (s.proc pp).pFlag) (hnew : ¬ Schedulable pFlag) :
    Consistent n (dqSrundec (setFlag s pp pFlag) pri) queues := by
  obtain ⟨others, hbefore, hafter⟩ := ready_setFlag pFlag h.lists hpp
  rw [if_pos hold] at hbefore
  rw [if_neg hnew, add_zero] at hafter
  have hothers : others = ready s.flag queues pri - 1 := by omega
  rw [hothers] at hafter
  exact Consistent.uncounted (setFlag_lists h.lists) (h.active.same ⟨fun _ => rfl, rfl, rfl, rfl⟩)
    (by omega) hafter

/-! ### Walks along a queue -/

variable [Fintype Ptr]

omit [DecidableEq Ptr] in
theorem Queues.length_le (h : Queues n s queues) : (queues pri).length ≤ Fintype.card Ptr :=
  (h.linked pri).nodup.length_le_card

omit [DecidableEq Ptr] in
theorem onQueue_iff (h : Queues n s queues) : OnQueue s pp ↔ ∃ pri, pp ∈ queues pri := by
  refine exists_congr fun pri => ?_
  rw [(h.linked pri).chain_eq h.length_le]

omit [DecidableEq Ptr] in
theorem Queues.find {test : Ptr → Prop} [DecidablePred test] {front back : List Ptr}
    (h : Queues n s queues) (hsplit : queues pri = front ++ pp :: back)
    (hfront : ∀ rp ∈ front, ¬ test rp) (hpp : test pp) :
    findFrom s.link test (Fintype.card Ptr) none (s.dispq pri).dqFirst = some (front.getLast?, pp) := by
  have hlinked := h.linked pri
  have hlength : (queues pri).length ≤ Fintype.card Ptr := h.length_le
  rw [hsplit] at hlinked hlength
  rw [findFrom_some hlinked hfront hpp (by
    rw [length_append, length_cons] at hlength
    omega), or_none]

/-- `dispdeq` takes the process off its queue if it is on it. -/
theorem Consistent.dispdeq (h : Consistent n s queues) :
    ∃ queues', Consistent n (dispdeq s pp).2 queues' ∧
      ((dispdeq s pp).1 = true ↔ ∃ pri, pp ∈ queues pri) ∧ ∀ i, pp ∉ queues' i := by
  unfold Disp.dispdeq
  by_cases hpp : pp ∈ queues (s.proc pp).pPri
  · obtain ⟨front, back, hsplit⟩ := append_of_mem hpp
    have hnodup := (h.lists.linked (s.proc pp).pPri).nodup
    rw [hsplit, perm_middle.nodup_iff, nodup_cons] at hnodup
    have hfront : ∀ rp ∈ front, ¬ rp = pp := by
      intro rp hrp heq
      rw [heq] at hrp
      exact hnodup.1 (mem_append_left _ hrp)
    have hdequeue := h.dequeue hsplit
    refine ⟨update queues (s.proc pp).pPri (front ++ back), ?_, ?_, fun i hmem => ?_⟩
    · simp only [h.lists.find hsplit hfront rfl]
      by_cases hrun : Schedulable (s.proc pp).pFlag
      · rw [if_pos hrun] at hdequeue ⊢
        exact hdequeue
      · rw [if_neg hrun] at hdequeue ⊢
        exact hdequeue
    · simp only [h.lists.find hsplit hfront rfl]
      split_ifs with hrun
      · exact ⟨fun _ => ⟨_, hpp⟩, fun _ => rfl⟩
      · exact ⟨fun _ => ⟨_, hpp⟩, fun _ => rfl⟩
    · by_cases hi : i = (s.proc pp).pPri
      · rw [hi, update_self] at hmem
        exact hnodup.1 hmem
      · rw [update_of_ne hi] at hmem
        exact hi (h.lists.pri i pp hmem).symm
  · have hnone : ∀ i, pp ∉ queues i := by
      intro i hmem
      rw [← h.lists.pri i pp hmem] at hmem
      exact hpp hmem
    have hfind : findFrom s.link (fun rp => rp = pp) (Fintype.card Ptr) none
        (s.dispq (s.proc pp).pPri).dqFirst = none :=
      findFrom_none (h.lists.linked (s.proc pp).pPri) fun rp hrp heq => hpp (heq ▸ hrp)
    refine ⟨queues, ?_, ?_, hnone⟩
    · simp only [hfind]
      exact h
    · simp only [hfind]
      refine ⟨fun hfalse => absurd hfalse Bool.false_ne_true, fun hmem => ?_⟩
      obtain ⟨i, hmem⟩ := hmem
      exact absurd hmem (hnone i)

/-! ### `pswtch` -/

/-- The process dispatched is the first one that can run on the queue of `maxrunpri`. -/
structure Dispatched (n : Nat) (s s' : Dispatcher Ptr) (queues : Nat → List Ptr) (pri : Nat)
    (front back : List Ptr) : Prop where
  split : queues pri = front ++ s'.curproc :: back
  passed : ∀ rp ∈ front, ¬ Schedulable (s.proc rp).pFlag
  run : Schedulable (s.proc s'.curproc).pFlag
  consistent : Consistent n s' (Function.update queues pri (front ++ back))

theorem Consistent.dispatch (h : Consistent n s queues) (hmax : s.maxrunpri ≠ -1) :
    ∃ (top : Nat) (s' : Dispatcher Ptr) (front back : List Ptr), s.maxrunpri = top ∧
      dispatch s = some s' ∧ Dispatched n s s' queues top front back := by
  rcases h.active.max with ⟨hnone, -⟩ | ⟨top, htop, hhigh⟩
  · exact absurd hnone hmax
  obtain ⟨front, pp, back, hsplit, hfront, hrun⟩ := first_ready (of_decide_eq_true hhigh.on)
  have hdequeue := h.dequeue hsplit
  rw [if_pos (show Schedulable (s.proc pp).pFlag from hrun)] at hdequeue
  refine ⟨top, onproc (uncount (unlink s top front.getLast? pp) top) pp, front, back, htop, ?_,
    hsplit, hfront, hrun, ?_⟩
  · have hfind : findFrom s.link (fun pp => Schedulable (s.proc pp).pFlag) (Fintype.card Ptr)
        none (s.dispq top).dqFirst = some (front.getLast?, pp) :=
      h.lists.find hsplit hfront hrun
    unfold Disp.dispatch
    rw [htop, Int.toNat_natCast]
    simp only [hfind]
  · have hsame : (unlink s top front.getLast? pp).maxrunpri = top :=
      (unlink_same (s := s)).max.trans htop
    rw [uncount_eq hsame]
    exact (hdequeue.change (p := { (dqSrundec (unlink s top front.getLast? pp) top).proc pp with
      pStat := .sonproc }) rfl rfl .rfl).frame rfl rfl rfl rfl rfl

omit [Fintype Ptr] in
theorem Consistent.enter (h : Consistent n s queues) : Consistent n (enter s) queues := by
  unfold Disp.enter
  dsimp only
  split
  · exact h.frame rfl rfl rfl rfl rfl
  · exact (h.change (p := { s.proc s.curproc with pStat := .srun }) rfl rfl .rfl).frame rfl rfl
      rfl rfl rfl
  · exact h.frame rfl rfl rfl rfl rfl

/-! ### Runs -/

variable {procSched : Ptr} {event : Event Ptr} {events : List (Event Ptr)}

theorem step_consistent (h : Consistent n s queues) (hstep : Step n procSched s event s') :
    ∃ queues', Consistent n s' queues' := by
  cases hstep with
  | @setbackdq pp hoff hpri =>
    have hpp : ∀ i, pp ∉ queues i := fun i hmem => hoff ((onQueue_iff h.lists).mpr ⟨i, hmem⟩)
    exact ⟨_, h.enqueue hpri (linkBack_ok h.lists hpp hpri rfl) (perm_append_singleton _ _)
      linkBack_same flag_linkBack⟩
  | @setfrontdq pp hoff hpri =>
    have hpp : ∀ i, pp ∉ queues i := fun i hmem => hoff ((onQueue_iff h.lists).mpr ⟨i, hmem⟩)
    exact ⟨_, h.enqueue hpri (linkFront_ok h.lists hpp hpri rfl) (List.Perm.refl _) linkFront_same
      flag_linkFront⟩
  | @dispdeq pp _ =>
    obtain ⟨queues', hqueues, -, -⟩ : ∃ queues', Consistent n (dispdeq _ pp).2 queues' ∧ _ := h.dispdeq
    exact ⟨queues', hqueues⟩
  | sruninc hon hold hnew =>
    obtain ⟨i, hmem⟩ := (onQueue_iff h.lists).mp hon
    rw [h.lists.pri i _ hmem]
    exact ⟨queues, h.sruninc hmem hold hnew⟩
  | srundec hon hold hnew =>
    obtain ⟨i, hmem⟩ := (onQueue_iff h.lists).mp hon
    rw [h.lists.pri i _ hmem]
    exact ⟨queues, h.srundec hmem hold hnew⟩
  | flags hsame => exact ⟨queues, h.change rfl rfl hsame⟩
  | other hoff =>
    exact ⟨queues, h.changeOther fun i hmem => hoff ((onQueue_iff h.lists).mpr ⟨i, hmem⟩)⟩
  | enter => exact ⟨queues, h.enter⟩
  | idle _ => exact ⟨queues, h.frame rfl rfl rfl rfl rfl⟩
  | dispatch hmax hdispatch =>
    obtain ⟨top, t, front, back, -, heq, hdone⟩ := h.dispatch hmax
    rw [heq] at hdispatch
    rw [← some.inj hdispatch]
    exact ⟨_, hdone.consistent⟩

omit [DecidableEq Ptr] [Fintype Ptr] in
theorem dispinit_consistent : Consistent n (dispinit s) fun _ => [] := by
  refine ⟨⟨fun _ => rfl, fun _ => rfl, fun i pp hmem => absurd hmem not_mem_nil,
    fun _ _ => rfl⟩, ⟨fun _ => rfl, fun i => ?_, ?_, .inl ⟨rfl, fun _ _ => rfl⟩, fun _ _ => rfl⟩⟩
  · exact zero_off
  · exact (congrArg Nat.cast Finset.sum_const_zero).symm

/-- Whatever calls the callers make: every queue is a list that its header describes; the counts,
the bitmap, the total and the highest priority are right; and while some process can run `pswtch`
dispatches the first one that can on the queue of the highest priority that has one. -/
theorem dispatcher_run (hrun : Exec (Step n procSched) (dispinit s) events s') :
    ∃ queues, Consistent n s' queues ∧ (s'.maxrunpri ≠ -1 →
      ∃ (top : Nat) (t : Dispatcher Ptr) (front back : List Ptr), s'.maxrunpri = top ∧
        dispatch s' = some t ∧ Dispatched n s' t queues top front back) := by
  have hinv : ∃ queues, Consistent n s' queues := hrun.keeps (fun t => ∃ queues, Consistent n t queues)
      (fun _ _ _ ⟨_, h⟩ hstep => step_consistent h hstep) ⟨_, dispinit_consistent⟩
  obtain ⟨queues, h⟩ := hinv
  exact ⟨queues, h, h.dispatch⟩

end Calls

def single : Dispatcher (Fin 1) :=
  ⟨fun _ => ⟨none, 0, sLOAD, .srun⟩, fun _ => ⟨none, none, 0⟩, fun _ => 0, 0, -1, 0, 0, none, 0, 0, 0,
    0⟩

theorem dispatcher_run_single : ∃ queues t, Consistent 1 (setbackdq (dispinit single) 0) queues ∧
    dispatch (setbackdq (dispinit single) 0) = some t ∧ t.curproc = 0 := by
  have hoff : ¬ OnQueue (dispinit single) 0 := by
    intro hon
    obtain ⟨i, hmem⟩ := (onQueue_iff (dispinit_consistent (n := 1)).lists).mp hon
    cases hmem
  have hrun : Exec (Step 1 0) (dispinit single) [.setbackdq 0] (setbackdq (dispinit single) 0) :=
    Exec.single (Step.setbackdq hoff (by decide))
  obtain ⟨queues, hconsistent, hdispatch⟩ := dispatcher_run hrun
  obtain ⟨top, t, front, back, -, heq, -⟩ := hdispatch (by decide)
  exact ⟨queues, t, hconsistent, heq, Subsingleton.elim _ _⟩

end Svr42.Disp

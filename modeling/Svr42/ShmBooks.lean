import Svr42.FinSum
import Svr42.ShmModel

/-! What refers to an `anon_map`, and how the count of it follows: one reference more, one reference
less. -/

namespace Svr42.Shm
open Function List Nat Option

variable {P I S A : Type}

theorem count_map_perm {α β : Type*} [DecidableEq β] {f : α → β} {l l' : List α} {x : α}
    (h : l.Perm (x :: l')) (b : β) :
    (l.map f).count b = (l'.map f).count b + if f x = b then 1 else 0 := by
  rw [(h.map f).count_eq, map_cons, count_cons]
  simp only [beq_iff_eq]

/-! ### The list of attach records -/

theorem saAdd_perm (nsap : Segacct A) (l : List (Segacct A)) : (saAdd nsap l).Perm (nsap :: l) := by
  induction l with
  | nil => exact List.Perm.refl _
  | cons sap rest ih =>
    rw [saAdd]
    split_ifs with hlt
    · exact (ih.cons sap).trans (List.Perm.swap nsap sap rest)
    · exact List.Perm.refl _

def Ordered (l : List (Segacct A)) : Prop := l.Pairwise fun sap sap' => sap.saAddr ≤ sap'.saAddr

theorem saAdd_ordered {nsap : Segacct A} {l : List (Segacct A)} (h : Ordered l) :
    Ordered (saAdd nsap l) := by
  induction l with
  | nil => exact pairwise_singleton _ _
  | cons sap rest ih =>
    obtain ⟨hsap, hrest⟩ := pairwise_cons.mp h
    rw [saAdd]
    split_ifs with hlt
    · refine pairwise_cons.mpr ⟨fun other hother => ?_, ih hrest⟩
      rcases mem_cons.mp ((saAdd_perm nsap rest).mem_iff.mp hother) with rfl | hother
      · exact hlt.le
      · exact hsap other hother
    · refine pairwise_cons.mpr ⟨fun other hother => ?_, h⟩
      rcases mem_cons.mp hother with rfl | hother
      · exact Nat.le_of_not_lt hlt
      · exact le_trans (Nat.le_of_not_lt hlt) (hsap other hother)

theorem saDel_sublist (addr : Nat) (l : List (Segacct A)) : (saDel addr l).Sublist l := by
  induction l with
  | nil => exact List.Sublist.refl _
  | cons sap rest ih =>
    rw [saDel]
    split_ifs
    · exact ih.cons_cons sap
    · exact sublist_cons_self sap rest

variable {addr : Nat}

theorem saDel_ordered {l : List (Segacct A)} (h : Ordered l) : Ordered (saDel addr l) :=
  List.Pairwise.sublist (saDel_sublist addr l) h

variable {sap : Segacct A}

theorem saFind_addr {l : List (Segacct A)} (h : saFind addr l = some sap) : sap.saAddr = addr := by
  induction l with
  | nil => cases h
  | cons first rest ih =>
    rw [saFind] at h
    split_ifs at h with haddr
    · rw [← some.inj h, haddr]
    · exact ih h

theorem saDel_perm {l : List (Segacct A)} (hl : Ordered l) (h : saFind addr l = some sap) :
    l.Perm (sap :: saDel addr l) := by
  induction l with
  | nil => cases h
  | cons first rest ih =>
    obtain ⟨hfirst, hrest⟩ := pairwise_cons.mp hl
    rw [saFind] at h
    split_ifs at h with haddr
    · obtain rfl := some.inj h
      rw [saDel, if_neg (by omega)]
    · have hmem : sap ∈ rest := (ih hrest h).mem_iff.mpr (.head _)
      have hle : first.saAddr ≤ addr := saFind_addr h ▸ hfirst sap hmem
      rw [saDel, if_pos (by omega)]
      exact ((ih hrest h).cons first).trans (List.Perm.swap sap first _)

theorem saFind_head (sap : Segacct A) (rest : List (Segacct A)) :
    saFind sap.saAddr (sap :: rest) = some sap := if_pos rfl

/-! ### The segments -/

theorem asAddseg_perm (newseg : Seg A) (l : List (Seg A)) : (asAddseg newseg l).Perm (newseg :: l) := by
  induction l with
  | nil => exact List.Perm.refl _
  | cons seg rest ih =>
    rw [asAddseg]
    split_ifs
    · exact List.Perm.refl _
    · exact (ih.cons seg).trans (List.Perm.swap newseg seg rest)

variable {seg : Seg A}

theorem nextSeg_split {size : Nat} {l front back : List (Seg A)}
    (h : nextSeg addr size l = some (front, seg, back)) : l = front ++ seg :: back ∧ Meets addr size seg := by
  induction l generalizing front with
  | nil => cases h
  | cons first rest ih =>
    rw [nextSeg] at h
    split_ifs at h with hmeets
    · cases h
      exact ⟨rfl, hmeets⟩
    · obtain ⟨⟨front', seg', back'⟩, hfound, hsame⟩ := map_eq_some_iff.mp h
      cases hsame
      obtain ⟨hrest, hseg⟩ := ih hfound
      exact ⟨congrArg (first :: ·) hrest, hseg⟩

/-- The record is for the `anon_map` of the segment and for all its pages. -/
structure Covers (sap : Segacct A) (seg : Seg A) : Prop where
  amp : sap.saAmp = seg.amp
  base : sap.saAddr ≤ seg.sBase
  top : seg.sBase + seg.sSize ≤ sap.saAddr + sap.saLen

def Held (saps : List (Segacct A)) (seg : Seg A) : Prop := 0 < seg.sSize ∧ ∃ sap ∈ saps, Covers sap seg

variable {saps : List (Segacct A)}

theorem Held.mono {saps' : List (Segacct A)} (h : Held saps seg) (hsaps : ∀ sap ∈ saps, sap ∈ saps') :
    Held saps' seg := by
  obtain ⟨hsize, sap, hsap, hcovers⟩ := h
  exact ⟨hsize, sap, hsaps sap hsap, hcovers⟩

/-- What `segvn_unmap` leaves is covered by what covered the segment. -/
theorem segvnUnmap_held {seg' : Seg A} {len : Nat} {amp : AnonMap} (h : Held saps seg)
    (haddr : seg.sBase ≤ addr) (htop : addr + len ≤ seg.sBase + seg.sSize)
    (hmem : seg' ∈ (segvnUnmap seg addr len amp).1) : Held saps seg' := by
  obtain ⟨hsize, sap, hsap, hamp, hbase, hend⟩ := h
  unfold segvnUnmap at hmem
  split_ifs at hmem with hwhole hfront hback
  · cases hmem
  · obtain rfl := mem_singleton.mp hmem
    refine ⟨?_, sap, hsap, hamp, ?_, ?_⟩
    · change 0 < seg.sSize - len
      omega
    · change sap.saAddr ≤ seg.sBase + len
      omega
    · change seg.sBase + len + (seg.sSize - len) ≤ _
      omega
  · obtain rfl := mem_singleton.mp hmem
    refine ⟨?_, sap, hsap, hamp, hbase, ?_⟩
    · change 0 < seg.sSize - len
      omega
    · change seg.sBase + (seg.sSize - len) ≤ _
      omega
  · rcases mem_cons.mp hmem with rfl | hmem
    · refine ⟨?_, sap, hsap, hamp, hbase, ?_⟩
      · change 0 < addr - seg.sBase
        omega
      · change seg.sBase + (addr - seg.sBase) ≤ _
        omega
    · obtain rfl := mem_singleton.mp hmem
      refine ⟨?_, sap, hsap, hamp, ?_, ?_⟩
      · change 0 < seg.sBase + seg.sSize - (addr + len)
        omega
      · change sap.saAddr ≤ addr + len
        omega
      · change addr + len + (seg.sBase + seg.sSize - (addr + len)) ≤ _
        omega

theorem Held.of_unmapped (h : Held (sap :: saps) seg) (hmeets : ¬ Meets sap.saAddr sap.saLen seg) :
    Held saps seg := by
  obtain ⟨hsize, other, hother, hcovers⟩ := h
  rcases mem_cons.mp hother with rfl | hother
  · have hbase := hcovers.base
    have htop := hcovers.top
    exact absurd ⟨by omega, by omega⟩ hmeets
  · exact ⟨hsize, other, hother, hcovers⟩

/-! ### One reference more or less -/

/-- The count is one more than the references there are, and it has been freed when there are none. -/
def Tallied (amp : AnonMap) (refs : Nat) : Prop :=
  if amp.used = true then amp.refcnt = 1 + refs ∧ amp.frees = if refs = 0 then 1 else 0 else refs = 0

namespace Tallied

variable {amp : AnonMap} {refs : Nat}

theorem used (h : Tallied amp refs) (hrefs : 0 < refs) : amp.used = true := by
  by_contra hused
  rw [Tallied, if_neg hused] at h
  omega

theorem hold (h : Tallied amp refs) (hrefs : 0 < refs) : Tallied amp.hold (refs + 1) := by
  have hused := h.used hrefs
  rw [Tallied, if_pos hused, if_neg (by omega)] at h
  rw [Tallied, if_pos (by exact hused), if_neg (by omega)]
  refine ⟨?_, h.2⟩
  change amp.refcnt + 1 = _
  rw [h.1]
  push_cast
  omega

theorem release (h : Tallied amp (refs + 1)) : Tallied amp.release refs := by
  have hused := h.used (succ_pos refs)
  rw [Tallied, if_pos hused, if_neg (by omega)] at h
  obtain ⟨hcount, hfrees⟩ := h
  push_cast at hcount
  unfold AnonMap.release
  split_ifs with hlast
  · have hrefs : refs = 0 := by omega
    rw [Tallied, if_pos (by exact hused), if_pos hrefs]
    constructor
    · change amp.refcnt - 1 = _
      omega
    · rw [hfrees]
  · have hrefs : refs ≠ 0 := by omega
    rw [Tallied, if_pos (by exact hused), if_neg hrefs]
    refine ⟨?_, hfrees⟩
    change amp.refcnt - 1 = _
    omega

theorem segvnFree (h : Tallied amp (refs + 1)) (hrefs : 0 < refs) : Tallied (Shm.segvnFree amp) refs := by
  have hused := h.used (succ_pos refs)
  rw [Tallied, if_pos hused, if_neg (by omega)] at h
  obtain ⟨hcount, hfrees⟩ := h
  push_cast at hcount
  unfold Shm.segvnFree
  rw [if_neg (by omega), Tallied, if_pos (by exact hused), if_neg (by omega)]
  refine ⟨?_, hfrees⟩
  change amp.refcnt - 1 = _
  omega

theorem create (size : Nat) : Tallied { used := true, size := size, refcnt := 2, frees := 0 } 1 :=
  ⟨rfl, rfl⟩

end Tallied

theorem segvnUnmap_tallied [DecidableEq A] {len refs : Nat} {amp : AnonMap} (h : Tallied amp (refs + 1))
    (hrefs : 0 < refs) : Tallied (segvnUnmap seg addr len amp).2
      (refs + (((segvnUnmap seg addr len amp).1).map Seg.amp).count seg.amp) := by
  unfold segvnUnmap
  split_ifs
  · exact h.segvnFree hrefs
  · simpa using h
  · simpa using h
  · have hheld := h.hold (succ_pos refs)
    simpa using hheld

theorem segvnUnmap_other [DecidableEq A] {len : Nat} {amp : AnonMap} {a : A} (h : a ≠ seg.amp) :
    (((segvnUnmap seg addr len amp).1).map Seg.amp).count a = 0 := by
  refine count_eq_zero.mpr fun hmem => h ?_
  obtain ⟨seg', hseg', rfl⟩ := mem_map.mp hmem
  unfold segvnUnmap at hseg'
  split_ifs at hseg'
  · cases hseg'
  · rw [mem_singleton.mp hseg']
  · rw [mem_singleton.mp hseg']
  · rcases mem_cons.mp hseg' with rfl | hseg'
    · rfl
    · rw [mem_singleton.mp hseg']

/-! ### What refers to an `anon_map` -/

section References

variable {s : State P I S A} {a : A} {p : P} {as : S} {sp : I}

section Counts

variable [DecidableEq A]

def identifiers [Fintype I] (s : State P I S A) (a : A) : Nat :=
  if ∃ i, (s.shmem i).shmAmp = some a then 1 else 0

def Proc.records (proc : Proc P I S A) (a : A) : Nat := (proc.pSegacct.map Segacct.saAmp).count a

def records [Fintype P] (s : State P I S A) (a : A) : Nat := ∑ p, (s.proc p).records a

def mappings [Fintype S] (s : State P I S A) (a : A) : Nat := ∑ as, ((s.segs as).map Seg.amp).count a

def refs [Fintype P] [Fintype I] [Fintype S] (s : State P I S A) (a : A) : Nat :=
  identifiers s a + records s a + mappings s a

theorem identifiers_pos [Fintype I] (sp : I) (h : (s.shmem sp).shmAmp = some a) : identifiers s a = 1 :=
  if_pos ⟨sp, h⟩

theorem identifiers_none [Fintype I] (h : ∀ i, (s.shmem i).shmAmp ≠ some a) : identifiers s a = 0 :=
  if_neg fun hex => hex.elim h

theorem identifiers_setShmid [Fintype I] [DecidableEq I] {ds : ShmidDs P A}
    (hold : (s.shmem sp).shmAmp ≠ some a) (hnew : ds.shmAmp ≠ some a) :
    identifiers (s.setShmid sp ds) a = identifiers s a := by
  have hiff : (∃ i, ((s.setShmid sp ds).shmem i).shmAmp = some a) ↔ ∃ i, (s.shmem i).shmAmp = some a := by
    refine exists_congr fun i => ?_
    change (update s.shmem sp ds i).shmAmp = some a ↔ _
    by_cases hi : i = sp
    · rw [hi, update_self]
      exact iff_of_false hnew hold
    · rw [update_of_ne hi]
  exact if_congr hiff rfl rfl

theorem records_pos [Fintype P] (h : sap ∈ (s.proc p).pSegacct) : 0 < records s sap.saAmp :=
  sum_pos_of_entry (g := fun proc => Proc.records proc sap.saAmp) (i := p)
    (count_pos_iff.mpr (mem_map_of_mem h))

theorem records_setProc [Fintype P] [DecidableEq P] (s : State P I S A) (p : P) (proc : Proc P I S A)
    (a : A) : records (s.setProc p proc) a + (s.proc p).records a = records s a + proc.records a :=
  sum_overwrite (fun proc => Proc.records proc a) s.proc p proc

theorem mappings_setSegs [Fintype S] [DecidableEq S] (s : State P I S A) (as : S) (segs : List (Seg A))
    (a : A) : mappings (s.setSegs as segs) a + ((s.segs as).map Seg.amp).count a =
      mappings s a + (segs.map Seg.amp).count a :=
  sum_overwrite (fun segs => (List.map Seg.amp segs).count a) s.segs as segs

end Counts

end References

end Svr42.Shm

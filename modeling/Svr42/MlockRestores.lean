import Svr42.MlockUndo

/-! When a failed `memcntl` leaves the locks as they were. -/

namespace Svr42.Mlock
open Bitmap Errno List Nat Option Prod

variable {env : Env} {attr : Nat} {segs : List Seg}

def SameLocks (segs segs' : List Seg) : Prop := ∀ p, LockedAt segs' p ↔ LockedAt segs p

variable {stop : Nat}

/-- What has been locked is unlocked, if its pages are those of the bits. -/
theorem undone_same {segs₁ segs₂ : List Seg} {bitmap : Words} {lo addr nbits : Nat}
    (hdone : ListDone env attr .lock lo stop segs segs₁)
    (hundone : Undone attr bitmap addr 0 nbits segs₁ segs₂)
    (hpage : ∀ o, btTest bitmap o = true → NewAt segs attr (addr + o))
    (hbit : ∀ p, lo ≤ p → p < stop → NewAt segs attr p →
      ∃ o, o < nbits ∧ btTest bitmap o = true ∧ p = addr + o) : SameLocks segs segs₂ := by
  intro p
  constructor
  · intro hp
    rcases (hdone.locks p).mp (hundone.locks p hp) with hold | ⟨h1, h2, hmatch⟩
    · exact hold
    by_contra hnew
    obtain ⟨o, ho, hon, rfl⟩ := hbit p h1 h2 ⟨hmatch, hnew⟩
    refine hundone.all (fun o' _ _ ho' => ?_) o (zero_le _) ho hon ?_ hp
    · exact (mapped_congr hdone.placed).mpr (hpage o' ho').1.mapped
    · exact (hdone.same _).mpr hmatch
  · intro hp
    by_contra hno
    obtain ⟨o, _, _, ho, hpo⟩ := hundone.only p ((hdone.locks p).mpr (.inl hp)) hno
    rw [hpo] at hp
    exact (hpage o ho).2 hp

/-! ### `MC_LOCK` -/

/-- The pages of the range that are to be locked are in the segment where the range starts, or come after a page that stops the call:
one that is not there or that cannot be locked. -/
def InsideRange (env : Env) (attr raddr npages : Nat) (segs : List Seg) : Prop :=
  ∀ p, raddr ≤ p → p < raddr + npages → NewAt segs attr p →
    (∀ seg ∈ segs, seg.Has raddr → ¬ seg.Has p) →
    ∃ q, raddr ≤ q ∧ q ≤ p ∧ (¬ Mapped segs q ∨ NewAt segs attr q ∧ Fails env q)

theorem exists_greatest {Q : Nat → Prop} {n bound : Nat} (hn : Q n) (hb : ∀ k, Q k → k < bound) :
    ∃ m, Q m ∧ ∀ k, Q k → k ≤ m := by
  classical
  exact ⟨findGreatest Q bound, findGreatest_spec (le_of_lt (hb n hn)) hn,
    fun k hk => le_findGreatest (le_of_lt (hb k hk)) hk⟩

def RangeBits (attr raddr stop : Nat) (segs : List Seg) (bitmap : Words) : Prop :=
  ∀ o, btTest bitmap o = true ↔ ∃ p s, raddr ≤ p ∧ p < stop ∧ NewAt segs attr p ∧
    Start segs raddr p s ∧ o = p - s

variable {r : Option Errno × List Seg × Option Words}

theorem rangeBits {raddr rsize : Nat}
    (h : Walked env attr .lock 0 raddr rsize stop segs (some fun _ => 0) r) :
    RangeBits attr raddr stop segs (r.2.2.getD fun _ => 0) := by
  have hsome := h.isSome
  obtain ⟨map, hmap⟩ := isSome_iff_exists.mp (hsome.trans rfl)
  intro o
  have hbits := h.bits o
  have hzero : bit (some fun _ => 0) o = false := by
    simp [bit, btTest]
  rw [hmap, hzero] at hbits
  rw [hmap, getD_some]
  simpa [bit] using hbits

theorem start_of (raddr : Nat) {p : Nat} (hp : Mapped segs p) : ∃ s, Start segs raddr p s := by
  obtain ⟨seg, hmem, hhas⟩ := hp
  exact ⟨_, seg, hmem, hhas, rfl⟩

/-- If all new locks are in the first segment, the clean-up takes them back and no others. -/
theorem lock_undone {raddr rsize : Nat} (hlaid : Laid segs) (hword : raddr + rsize < 0x100000)
    (h : Walked env attr .lock 0 raddr rsize stop segs (some fun _ => 0) r)
    (hin : InsideRange env attr raddr rsize segs) :
    SameLocks segs (mem_unlock env attr (r.2.2.getD fun _ => 0) raddr 0 rsize r.2.1) := by
  have hbits := rangeBits h
  have hle := h.le
  have hundone := mem_unlock_spec env attr (r.2.2.getD fun _ => 0) raddr 0 rsize hword
    (laid_congr h.done.placed hlaid) (zero_le _)
  -- each new lock is in the first segment, so its bit is its distance from `raddr`
  have hstart : ∀ p s, raddr ≤ p → p < stop → NewAt segs attr p → Start segs raddr p s → s = raddr := by
    intro p s h1 h2 hnew hs
    by_contra hne
    obtain ⟨seg, hmem, hhas, hseg⟩ := hs
    obtain ⟨q, hq1, hq2, hwhy⟩ := hin p h1 (by omega) hnew fun seg₁ hmem₁ hraddr hp => by
      rw [hlaid.unique hmem hmem₁ hhas hp, if_pos hraddr.1] at hseg
      exact hne hseg
    rcases hwhy with hhole | ⟨hqnew, hfails⟩
    · exact hhole (h.mapped q hq1 (by omega))
    · exact h.done.able rfl q hq1 (by omega) hqnew hfails
  refine undone_same h.done hundone ?_ ?_
  · intro o ho
    obtain ⟨p, s, h1, h2, hnew, hs, hdist⟩ := (hbits o).mp ho
    rw [hstart p s h1 h2 hnew hs] at hdist
    obtain rfl : p = raddr + o := by omega
    exact hnew
  · intro p h1 h2 hnew
    obtain ⟨s, hs⟩ := start_of raddr hnew.1.mapped
    refine ⟨p - raddr, by omega, (hbits _).mpr ⟨p, s, h1, h2, hnew, hs, ?_⟩, by omega⟩
    rw [hstart p s h1 h2 hnew hs]

/-- If the clean-up leaves the locks as they were, all new locks are in the first segment: the last of them would stay. -/
theorem lock_inside {raddr rsize : Nat} (hlaid : Laid segs) (hword : raddr + rsize < 0x100000)
    (hfail : r.1 ≠ none) (h : Walked env attr .lock 0 raddr rsize stop segs (some fun _ => 0) r)
    (hsame : SameLocks segs (mem_unlock env attr (r.2.2.getD fun _ => 0) raddr 0 rsize r.2.1)) :
    InsideRange env attr raddr rsize segs := by
  have hbits := rangeBits h
  have hle := h.le
  have hundone := mem_unlock_spec env attr (r.2.2.getD fun _ => 0) raddr 0 rsize hword
    (laid_congr h.done.placed hlaid) (zero_le _)
  obtain ⟨hstop, hwhy⟩ := (h.ends.resolve_left fun hend => hfail hend.1).2
  intro p h1 h2 hnew hout
  rcases lt_or_ge p stop with hlt | hge
  · exfalso
    obtain ⟨m, ⟨hm1, hm2, hmnew⟩, hmax⟩ := exists_greatest
      (Q := fun q => raddr ≤ q ∧ q < stop ∧ NewAt segs attr q) ⟨h1, hlt, hnew⟩
      fun q hq => hq.2.1
    have hpm := hmax p ⟨h1, hlt, hnew⟩
    have hlocked := (h.done.locks m).mpr (.inr ⟨hm1, hm2, hmnew.1⟩)
    obtain ⟨o, _, _, ho, hmo⟩ := hundone.only m hlocked fun hl => hmnew.2 ((hsame m).mp hl)
    obtain ⟨q, s, hq1, hq2, hqnew, hs, hdist⟩ := (hbits o).mp ho
    have hqm := hmax q ⟨hq1, hq2, hqnew⟩
    obtain ⟨seg, hmem, hhas, hseg⟩ := hs
    have hbase := hhas.1
    have hsr : seg.s_base ≤ raddr := by
      split_ifs at hseg <;> omega
    rw [if_pos hsr] at hseg
    obtain rfl : q = m := by omega
    have hlt2 := hhas.2
    exact hout seg hmem ⟨hsr, by omega⟩ ⟨by omega, by omega⟩
  · refine ⟨stop, hle.1, hge, ?_⟩
    rcases hwhy with hhole | ⟨_, hsnew, hfails⟩
    · exact .inl hhole
    · exact .inr ⟨hsnew, hfails⟩

/-! ### `MC_LOCKAS` -/

/-- The pages that are to be locked are in the first segment, or come after a page that cannot be locked. -/
def InsideFirst (env : Env) (attr : Nat) (segs : List Seg) : Prop :=
  ∀ p, NewAt segs attr p → (∀ seg, segs.head? = some seg → ¬ seg.Has p) →
    ∃ q, q ≤ p ∧ NewAt segs attr q ∧ Fails env q

theorem allBits (h : AllLocked env attr 0 stop segs (some fun _ => 0) r) (o : Nat) :
    btTest (r.2.2.getD fun _ => 0) o = true ↔
      ∃ p, p < stop ∧ NewAt segs attr p ∧ IndexAt segs 0 p o := by
  have hsome := h.isSome
  obtain ⟨map, hmap⟩ := isSome_iff_exists.mp (hsome.trans rfl)
  have hbits := h.bits o
  have hzero : bit (some fun _ => 0) o = false := by
    simp [bit, btTest]
  rw [hmap, hzero] at hbits
  rw [hmap, getD_some]
  simpa [bit] using hbits

section

variable (hlaid : Laid segs) (hfail : r.1 ≠ none)
  (h : AllLocked env attr 0 stop segs (some fun _ => 0) r)
include hlaid hfail h

theorem all_undone (hin : InsideFirst env attr segs) :
    SameLocks segs (unlockAll env attr (r.2.2.getD fun _ => 0) (layout r.2.1) 0 r.2.1) := by
  have hbits := allBits h
  rw [h.done.placed]
  cases segs with
  | nil =>
    obtain ⟨_, hnew, _⟩ := h.ends.resolve_left fun hend => hfail hend.1
    obtain ⟨_, hmem, _⟩ := hnew.1
    cases hmem
  | cons seg segs =>
    have hfirst : ∀ p, p < stop → NewAt (seg :: segs) attr p → seg.Has p := by
      intro p hp hnew
      by_contra hout
      obtain ⟨q, hq, hqnew, hfails⟩ := hin p hnew fun seg₁ hhead => by
        rw [head?_cons, Option.some.injEq] at hhead
        rwa [← hhead]
      exact h.done.able rfl q (zero_le q) (by omega) hqnew hfails
    have hplace : ∀ p o, seg.Has p → IndexAt (seg :: segs) 0 p o → p = seg.s_base + o := by
      rintro p o hp (⟨_, ho⟩ | hrest)
      · have hbase := hp.1
        omega
      · have hbefore := hlaid.before hrest.mapped
        have hlt := hp.2
        omega
    have hstop : seg.s_base + (0 + seg.s_pages) ≤ 0xc0000 := by
      rw [zero_add]
      exact (hlaid.2 seg (.head _)).2
    have hundone := mem_unlock_spec env attr (r.2.2.getD fun _ => 0) seg.s_base 0
      (0 + seg.s_pages) (by omega) (laid_congr h.done.placed hlaid) (zero_le _)
    have hnone : ∀ o, 0 + seg.s_pages ≤ o → btTest (r.2.2.getD fun _ => 0) o = false := by
      intro o ho
      rw [← Bool.not_eq_true, hbits]
      rintro ⟨p, hp, hnew, hindex⟩
      have hhas := hfirst p hp hnew
      have heq := hplace p o hhas hindex
      have hlt := hhas.2
      rw [Seg.stop] at hlt
      omega
    rw [layout, map_cons, unlockAll, unlockAll_none env attr _ hnone]
    refine undone_same h.done hundone ?_ ?_
    · intro o ho
      obtain ⟨p, hp, hnew, hindex⟩ := (hbits o).mp ho
      rw [← hplace p o (hfirst p hp hnew) hindex]
      exact hnew
    · intro p _ hp hnew
      have hhas := hfirst p hp hnew
      have hbase := hhas.1
      have hlt := hhas.2
      rw [Seg.stop] at hlt
      exact ⟨p - seg.s_base, by omega,
        (hbits _).mpr ⟨p, hp, hnew, .inl ⟨hhas, (zero_add _).symm⟩⟩, by omega⟩

/-- The first of the new locks behind the first segment would stay. -/
theorem all_inside (hwrap : NoWrap (layout segs) 0)
    (hsame : SameLocks segs (unlockAll env attr (r.2.2.getD fun _ => 0) (layout r.2.1) 0 r.2.1)) :
    InsideFirst env attr segs := by
  have hbits := allBits h
  have hplaced := h.done.placed
  obtain ⟨_, hsnew, hfails⟩ := h.ends.resolve_left fun hend => hfail hend.1
  intro p hnew hout
  rcases lt_or_ge p stop with hlt | hge
  · exfalso
    cases segs with
    | nil =>
      obtain ⟨_, hmem, _⟩ := hnew.1
      cases hmem
    | cons seg segs =>
      classical
      have hex : ∃ q, q < stop ∧ NewAt (seg :: segs) attr q ∧ ¬ seg.Has q := ⟨p, hlt, hnew, hout seg rfl⟩
      obtain ⟨hx, hxnew, hxout⟩ := Nat.find_spec hex
      have hleast : ∀ q, q < stop → NewAt (seg :: segs) attr q → ¬ seg.Has q →
          Nat.find hex ≤ q := fun q h1 h2 h3 => Nat.find_min' hex ⟨h1, h2, h3⟩
      generalize Nat.find hex = x at *
      have hlocked := (h.done.locks x).mpr (.inr ⟨Nat.zero_le x, hx, hxnew.1⟩)
      rw [hplaced] at hsame
      obtain ⟨o, ho, htaken⟩ := unlockAll_only env attr _ _ (laid_congr hplaced hlaid) hwrap x
        hlocked fun hl => hxnew.2 ((hsame x).mp hl)
      obtain ⟨q, hq, hqnew, hindex⟩ := (hbits o).mp ho
      have hpages := (hlaid.2 seg (.head _)).1
      have hxmapped := hlaid.before ((mapped_cons.mp hxnew.1.mapped).resolve_left hxout)
      rcases hindex with ⟨hhas, hoq⟩ | hindex
      · -- the bits of the first segment are for its own pages
        have hlt2 := hhas.2
        rw [Seg.stop] at hlt2 hxmapped
        rcases htaken with ⟨_, _, hxo⟩ | htaken
        · dsimp only at hxo
          omega
        · have hle := htaken.le
          dsimp only at hle
          omega
      · rcases htaken with ⟨_, ho2, _⟩ | htaken
        · have hle := hindex.le
          dsimp only at ho2
          omega
        have hafter := TakenFor.after htaken hindex
        have hbefore := hlaid.before hindex.mapped
        have hqx := hleast q hq hqnew fun hhas => by
          have hlt2 := hhas.2
          omega
        dsimp only at hafter
        omega
  · exact ⟨stop, hge, hsnew, hfails⟩

end

/-! ### `memcntl` -/

def firstPage (uap : Memcntla) : Nat := uap.addr / 0x1000

def rangePages (uap : Memcntla) : Nat :=
  Svr42.Seg.pageRound (Svr42.Seg.add uap.addr uap.len) / 0x1000 - firstPage uap

/-- All pages that a call locks before it fails are in the first segment it locks pages of. -/
def Inside (env : Env) (uap : Memcntla) (segs : List Seg) : Prop :=
  if uap.lockas then InsideFirst env (userAttr uap.attr) segs
  else InsideRange env (userAttr uap.attr) (firstPage uap) (rangePages uap) segs

variable {uap : Memcntla}

section

variable (hlock : uap.lockas = false) (hchecks : memcntlChecks env uap = none)
include hlock hchecks

theorem range_bounds : 0 < rangePages uap ∧ firstPage uap + rangePages uap < 0x100000 := by
  have hvalid : Svr42.Seg.validUsrRange uap.addr uap.len := by
    by_contra hno
    rw [memcntlChecks] at hchecks
    simp only [hlock, hno, Bool.false_eq_true, false_and, true_and, if_false, not_false_eq_true,
      if_true] at hchecks
    split_ifs at hchecks
  obtain ⟨hlt, hend⟩ := hvalid
  rw [Svr42.Seg.uVEND] at hend
  rw [rangePages, firstPage, Svr42.Seg.pageRound, Svr42.Seg.pageMask]
  generalize Svr42.Seg.add uap.addr uap.len = stop at *
  rw [Svr42.Seg.add, Svr42.Seg.word, Nat.mod_eq_of_lt (by omega), Nat.mul_div_cancel _ (by decide)]
  omega

theorem memcntl_lock {as as' : As} {e : Errno} (hlaid : Laid as.a_segs)
    (hfail : memcntl env uap as = (some e, as')) :
    Inside env uap as.a_segs ↔ SameLocks as.a_segs as'.a_segs := by
  obtain ⟨hsize, hword⟩ := range_bounds hlock hchecks
  obtain ⟨stop, hwalk⟩ := ctlRange_spec env (userAttr uap.attr) .lock 0 (firstPage uap)
    (rangePages uap) (some fun _ => 0) hsize hword hlaid
  rw [memcntl, hchecks] at hfail
  dsimp only at hfail
  rw [if_neg (by rw [hlock]; exact Bool.false_ne_true), ← firstPage, ← rangePages] at hfail
  rw [Inside, if_neg (by rw [hlock]; exact Bool.false_ne_true)]
  generalize ctlRange env (userAttr uap.attr) .lock (firstPage uap) (rangePages uap)
    (some fun _ => 0) 0 as.a_segs = r at *
  cases herr : r.1 with
  | none =>
    rw [herr] at hfail
    exact absurd (congrArg fst hfail) (by simp)
  | some e' =>
    rw [herr] at hfail
    have hsegs : as'.a_segs = _ := congrArg (fun r => r.2.a_segs) hfail.symm
    rw [hsegs]
    exact ⟨lock_undone hlaid hword hwalk, lock_inside hlaid hword (by rw [herr]; simp) hwalk⟩

end

theorem memcntl_lockas {as as' : As} {e : Errno} (hlock : uap.lockas = true)
    (hchecks : memcntlChecks env uap = none) (hlaid : Laid as.a_segs)
    (hfail : memcntl env uap as = (some e, as')) :
    (Inside env uap as.a_segs → SameLocks as.a_segs as'.a_segs) ∧
      (NoWrap (layout as.a_segs) 0 → SameLocks as.a_segs as'.a_segs → Inside env uap as.a_segs) := by
  obtain ⟨stop, hall⟩ := lockAll_spec env (userAttr uap.attr) hlaid (some fun _ => 0) 0
  rw [memcntl, hchecks] at hfail
  dsimp only at hfail
  rw [if_pos hlock] at hfail
  rw [Inside, if_pos hlock]
  by_cases hnil : as.a_segs = []
  · rw [if_pos hnil] at hfail
    exact absurd (congrArg fst hfail) (by simp)
  rw [if_neg hnil] at hfail
  by_cases hcurrent : uap.arg &&& 1 = 0
  · rw [if_pos hcurrent] at hfail
    exact absurd (congrArg fst hfail) (by simp)
  rw [if_neg hcurrent] at hfail
  generalize lockAll env (userAttr uap.attr) as.a_segs (some fun _ => 0) 0 = r at *
  cases herr : r.1 with
  | none =>
    rw [herr] at hfail
    exact absurd (congrArg fst hfail) (by simp)
  | some e' =>
    rw [herr] at hfail
    have hsegs : as'.a_segs = _ := congrArg (fun r => r.2.a_segs) hfail.symm
    rw [hsegs]
    exact ⟨all_undone hlaid (by rw [herr]; simp) hall, all_inside hlaid (by rw [herr]; simp) hall⟩

/-- A call that fails leaves the locks as they were just when it has locked no pages behind the first segment. -/
theorem memcntl_restores {uap : Memcntla} {as as' : As} {e : Errno} (hlaid : Laid as.a_segs)
    (hfail : memcntl env uap as = (some e, as')) :
    ((memcntlChecks env uap = none → Inside env uap as.a_segs) →
      SameLocks as.a_segs as'.a_segs) ∧
    ((uap.lockas = true → NoWrap (layout as.a_segs) 0) → SameLocks as.a_segs as'.a_segs →
      memcntlChecks env uap = none → Inside env uap as.a_segs) := by
  cases hchecks : memcntlChecks env uap with
  | some e' =>
    rw [memcntl, hchecks] at hfail
    have hsegs : as'.a_segs = as.a_segs := congrArg (fun r => r.2.a_segs) hfail.symm
    rw [hsegs]
    exact ⟨fun _ _ => .rfl, fun _ _ h => absurd h (by simp)⟩
  | none =>
    cases hlock : uap.lockas with
    | false =>
      have hiff := memcntl_lock hlock hchecks hlaid hfail
      exact ⟨fun h => hiff.mp (h rfl), fun _ h _ => hiff.mpr h⟩
    | true =>
      obtain ⟨hundo, hinside⟩ := memcntl_lockas hlock hchecks hlaid hfail
      exact ⟨fun h => hundo (h rfl), fun hwrap h _ => hinside (hwrap rfl) h⟩

/-! ### Two calls -/

instance (seg : Seg) (p : Nat) : Decidable (seg.Has p) := inferInstanceAs (Decidable (_ ∧ _))

instance (seg : Seg) (p : Nat) : Decidable (seg.Locked p) :=
  inferInstanceAs (Decidable (∃ svd, svd ∈ seg.svd ∧ _))

instance (segs : List Seg) (p : Nat) : Decidable (LockedAt segs p) :=
  inferInstanceAs (Decidable (∃ seg ∈ segs, _))

def failingAt (bad : Nat) : Env := ⟨fun p => decide (p ≠ bad), fun _ => true, false, none⟩

def plain (s_base s_pages : Nat) (vpage : Option (Nat → Vpage)) : Seg :=
  ⟨s_base, s_pages, some ⟨false, 7, false, vpage⟩⟩

def fourPages : Memcntla := ⟨0x4000, 0x4000, false, 0, 0, 0⟩

theorem memcntl_restores_one :
    (memcntl (failingAt 6) fourPages ⟨[plain 4 4 none], false⟩).1 = some ( EIO : Errno) ∧
      SameLocks [plain 4 4 none]
        (memcntl (failingAt 6) fourPages ⟨[plain 4 4 none], false⟩).2.a_segs := by
  refine ⟨by decide +kernel, (@memcntl_restores (failingAt 6) fourPages
    ⟨[plain 4 4 none], false⟩ _ EIO ?_ ?_).1 ?_⟩
  · exact ⟨pairwise_singleton _ _, by simp [plain, Seg.stop]⟩
  · exact Prod.ext (by decide +kernel) rfl
  · intro _ p h1 h2 _ hout
    exact absurd ⟨h1, h2⟩ (hout (plain 4 4 none) (.head _) (by decide))

/-- The pages 4 to 7 are in two segments, and page 4 is locked. After the failure of page 7 page 4 is not locked, but page 6 is. -/
theorem memcntl_forgets : let segs := [plain 4 2 (some fun i => ⟨7, decide (i = 0)⟩), plain 6 2 none]
    let r := memcntl (failingAt 7) fourPages ⟨segs, false⟩
    r.1 = some ( EIO : Errno) ∧ LockedAt segs 4 ∧ ¬ LockedAt segs 6 ∧ ¬ LockedAt r.2.a_segs 4 ∧
      LockedAt r.2.a_segs 6 := by
  decide +kernel

end Svr42.Mlock

import Svr42.ShmFrames

/-! What the shared memory calls and `munmap` keep. -/

namespace Svr42.Shm
open Function List Option

variable {P I S A : Type} [DecidableEq I] [DecidableEq A] [Fintype P] [Fintype I] [Fintype S]
  {info : ShmInfo} {s t : State P I S A} {p cp pp : P} {as : S} {sp : I} {addr size : Nat}
  {pc : Pc P I S A} {proc : Proc P I S A}

/-! ### The identifiers -/

/-- One identifier changes, and the count of the `anon_map` that it was for, or is for now, follows. -/
theorem Inv.reidentify (h : Inv s) {ds : ShmidDs P A} {a : A} {amp : AnonMap}
    (hold : ∀ b, b ≠ a → (s.shmem sp).shmAmp ≠ some b) (hnew : ∀ b, b ≠ a → ds.shmAmp ≠ some b)
    (hone : ds.shmAmp = some a → ∀ i, i ≠ sp → (s.shmem i).shmAmp ≠ some a)
    (hfree : ∀ q sap, (s.proc q).pc ≠ .attach sp sap)
    (htally : Tallied amp (identifiers (s.setShmid sp ds) a + records s a + mappings s a)) :
    Inv ((s.setShmid sp ds).setAmp a amp) := by
  have hself : (s.setShmid sp ds).shmem sp = ds := update_self ..
  have hother : ∀ {i : I}, i ≠ sp → (s.setShmid sp ds).shmem i = s.shmem i := fun hi =>
    update_of_ne hi _ _
  refine ⟨?_, fun i j b hi hj => ?_, ⟨h.spaces.nodup, h.spaces.alone, h.spaces.inUse, h.spaces.empty⟩,
    ⟨h.waits.waits, h.waits.once⟩, h.covered, h.ordered, h.nshmseg, fun q => ?_⟩
  · refine counts_update h.counts rfl (fun b hb => ?_) htally
    change identifiers (s.setShmid sp ds) b + records s b + mappings s b = _
    rw [identifiers_setShmid (hold b hb) (hnew b hb)]
    rfl
  · change ((s.setShmid sp ds).shmem i).shmAmp = some b at hi
    change ((s.setShmid sp ds).shmem j).shmAmp = some b at hj
    have hsame : ∀ {k : I}, k ≠ sp → ds.shmAmp = some b → (s.shmem k).shmAmp ≠ some b := by
      intro k hk hds
      by_cases hb : b = a
      · rw [hb] at hds ⊢
        exact hone hds k hk
      · exact absurd hds (hnew b hb)
    by_cases hisp : i = sp
    · by_cases hjsp : j = sp
      · rw [hisp, hjsp]
      · rw [hisp, hself] at hi
        rw [hother hjsp] at hj
        exact absurd hj (hsame hjsp hi)
    · rw [hother hisp] at hi
      by_cases hjsp : j = sp
      · rw [hjsp, hself] at hj
        exact absurd hi (hsame hisp hj)
      · rw [hother hjsp] at hj
        exact h.one i j b hi hj
  · refine (h.settled q).frame rfl (fun _ _ => rfl) fun i sap hpc => hother ?_
    rintro rfl
    exact hfree q sap hpc

theorem shmget_inv {a : A} (h : Inv s) (hstep : shmget info s sp a size = some t) : Inv t := by
  unfold shmget at hstep
  split_ifs at hstep with hguard hbounds
  · obtain rfl := some.inj hstep
    exact h
  · obtain ⟨hnone, hunused⟩ := hguard
    obtain rfl := some.inj hstep
    have hzero : refs s a = 0 := by
      have htally := h.counts a
      rw [Tallied, if_neg (by rw [hunused]; exact Bool.false_ne_true)] at htally
      exact htally
    have hnobody : ∀ i, (s.shmem i).shmAmp ≠ some a := by
      intro i hi
      have hpos := identifiers_pos i hi
      unfold refs at hzero
      omega
    refine h.reidentify (fun b _ => ?_) (fun b hb hsame => hb (some.inj hsame).symm)
      (fun _ i _ => hnobody i) (fun q sap hpc => ?_) ?_
    · rw [hnone]
      exact (some_ne_none b).symm
    · have hsome := (h.attached hpc).2
      rw [hnone] at hsome
      exact some_ne_none _ hsome.symm
    · have hnew : identifiers (s.setShmid sp { shmAmp := some a, locked := none }) a = 1 := by
        refine identifiers_pos sp ?_
        change (update s.shmem sp _ sp).shmAmp = some a
        rw [update_self]
      unfold refs at hzero
      rw [hnew, show records s a = 0 by omega, show mappings s a = 0 by omega]
      exact Tallied.create _

theorem shmRmid_inv (h : Inv s) (hstep : shmRmid s sp = some t) : Inv t := by
  unfold shmRmid at hstep
  split_ifs at hstep with hlocked
  cases hamp : (s.shmem sp).shmAmp with
  | none =>
    simp only [hamp] at hstep
    obtain rfl := some.inj hstep
    exact h
  | some a =>
    simp only [hamp] at hstep
    obtain rfl := some.inj hstep
    refine h.reidentify (fun b hb hsame => ?_) (fun b _ => nofun) nofun (fun q sap hpc => ?_) ?_
    · rw [hamp] at hsame
      exact hb (some.inj hsame).symm
    · have hsome := (h.attached hpc).1
      rw [hlocked] at hsome
      exact some_ne_none q hsome.symm
    · have hgone : identifiers (s.setShmid sp { shmAmp := none, locked := none }) a = 0 := by
        refine identifiers_none fun i hi => ?_
        change (update s.shmem sp _ i).shmAmp = some a at hi
        by_cases hisp : i = sp
        · rw [hisp, update_self] at hi
          exact some_ne_none a hi.symm
        · rw [update_of_ne hisp] at hi
          exact hisp (h.one i sp a hi hamp)
      have htally := h.counts a
      have hrefs : refs s a = records s a + mappings s a + 1 := by
        rw [refs, identifiers_pos sp hamp]
        omega
      rw [hrefs] at htally
      rw [hgone, zero_add]
      exact htally.release

variable [DecidableEq P] [DecidableEq S]

/-! ### `shmat` -/

omit [DecidableEq P] [DecidableEq I] in
/-- The count follows a segment that is new in an address space. -/
theorem Inv.addSeg (h : Inv s) {seg : Seg A} {segs : List (Seg A)} (has : as ∈ (s.proc p).spaces)
    (hperm : segs.Perm (seg :: s.segs as)) (hheld : Held (s.proc p).saps seg) (hpos : 0 < refs s seg.amp) :
    Inv ((s.setSegs as segs).setAmp seg.amp (s.amps seg.amp).hold) := by
  refine h.remap has (fun other hother => ?_) ?_ fun b hb => ?_
  · rcases mem_cons.mp (hperm.mem_iff.mp hother) with rfl | hother
    · exact hheld
    · exact h.covered p as has other hother
  · have hsum := refs_setSegs s as segs seg.amp
    rw [count_map_perm hperm, if_pos rfl] at hsum
    have hrefs : refs (s.setSegs as segs) seg.amp = refs s seg.amp + 1 := by omega
    rw [hrefs]
    exact (h.counts seg.amp).hold hpos
  · rw [count_map_perm hperm, if_neg hb.symm, add_zero]

theorem shmat_inv (h : Inv s) (hstep : shmat info s p sp addr = some t) : Inv t := by
  unfold shmat at hstep
  by_cases hguard : (s.proc p).pc = .user ∧ (s.shmem sp).locked = none
  swap
  · rw [if_neg hguard] at hstep
    cases hstep
  rw [if_pos hguard] at hstep
  obtain ⟨hpc, hunlocked⟩ := hguard
  cases hamp : (s.shmem sp).shmAmp with
  | none =>
    simp only [hamp] at hstep
    obtain rfl := some.inj hstep
    exact h
  | some a =>
    cases has : (s.proc p).pAs with
    | none =>
      simp only [hamp, has] at hstep
      obtain rfl := some.inj hstep
      exact h
    | some as =>
      simp only [hamp, has] at hstep
      split_ifs at hstep with hmany hsize hgap
      · obtain rfl := some.inj hstep
        exact h
      · obtain rfl := some.inj hstep
        exact h
      · obtain rfl := some.inj hstep
        exact h
      · obtain rfl := some.inj hstep
        let sap : Segacct A := { saAddr := addr, saLen := (s.amps a).size, saAmp := a }
        have hlocked : Inv (s.setShmid sp { s.shmem sp with locked := some p }) := by
          refine h.lock fun q sap hq => ?_
          have hsome := (h.attached hq).1
          rw [hunlocked] at hsome
          exact some_ne_none q hsome.symm
        have hself : (s.setShmid sp { s.shmem sp with locked := some p }).shmem sp =
            { s.shmem sp with locked := some p } := update_self ..
        -- the record is not there yet, but it is settled what it will be
        have hpending : Inv ((s.setShmid sp { s.shmem sp with locked := some p }).setProc p
            { s.proc p with pc := .attach sp sap }) := by
          refine hlocked.goTo hpc rfl nofun nofun rfl nofun nofun ?_
          unfold Settled
          rw [setProc_proc]
          change ((s.setShmid sp _).shmem sp).locked = some p ∧
            ((s.setShmid sp _).shmem sp).shmAmp = some a
          rw [hself]
          exact ⟨rfl, hamp⟩
        have hmem : as ∈ (((s.setShmid sp { s.shmem sp with locked := some p }).setProc p
            { s.proc p with pc := .attach sp sap }).proc p).spaces := by
          refine mem_spaces_of_active ?_ ?_
          · rw [setProc_proc]
            rfl
          · rw [setProc_proc]
            exact has
        have hnew := hpending.addSeg hmem
          (asAddseg_perm { sBase := addr, sSize := (s.amps a).size, amp := a } (s.segs as)) (by
            rw [setProc_proc]
            exact ⟨Nat.pos_of_ne_zero hsize, sap, .head _, rfl, le_rfl, le_rfl⟩) (by
            refine refs_pos_of_identifier sp ?_
            change ((s.setShmid sp _).shmem sp).shmAmp = some a
            rw [hself]
            exact hamp)
        have hds : ({ shmAmp := some a, locked := some p } : ShmidDs P A) =
            { s.shmem sp with locked := some p } := congrArg (ShmidDs.mk · (some p)) hamp.symm
        rw [hds]
        exact hnew

omit [DecidableEq S] in
theorem shmatEnd_inv (h : Inv s) (hstep : shmatEnd s p = some t) : Inv t := by
  unfold shmatEnd at hstep
  cases hpc : (s.proc p).pc with
  | attach sp sap =>
    simp only [hpc] at hstep
    obtain rfl := some.inj hstep
    obtain ⟨hlocked, hamp⟩ := h.attached hpc
    have hborn : ∀ q, (s.proc p).pc ≠ .born q := by rw [hpc]; exact fun q hq => by cases hq
    have hperm := saAdd_perm sap (s.proc p).pSegacct
    have hactive : (s.proc p).pc.active = true := by rw [hpc]; rfl
    let proc : Proc P I S A := { s.proc p with
        pSegacct := saAdd sap (s.proc p).pSegacct
        uNshmseg := (s.proc p).uNshmseg + 1
        pc := .user }
    have hadded : Inv ((s.setAmp sap.saAmp (s.amps sap.saAmp).hold).setProc p proc) := by
      refine h.rerecord (Moves.stay hactive rfl rfl rfl nofun
        fun r hr => by cases hr) (not_child h.settled hborn) ?_
        (fun b hb => ?_) (saAdd_ordered (h.ordered p)) (fun x hx seg hseg => ?_) (fun _ _ => ?_) ?_
      · have hsum := refs_setProc s p proc sap.saAmp
        have hrecords : proc.records sap.saAmp = (s.proc p).records sap.saAmp + 1 := by
          rw [Proc.records, count_map_perm hperm, if_pos rfl]
          rfl
        have hrefs : refs (s.setProc p proc) sap.saAmp = refs s sap.saAmp + 1 := by omega
        rw [hrefs]
        exact (h.counts sap.saAmp).hold (refs_pos_of_identifier sp hamp)
      · rw [Proc.records, count_map_perm hperm, if_neg hb.symm]
        rfl
      · have hmem : x ∈ (s.proc p).spaces := by refine mem_spaces_stay hactive ?_ ?_ hx <;> rfl
        refine (h.covered p x hmem seg hseg).mono fun other hother => ?_
        unfold Proc.saps at hother
        rw [hpc] at hother
        exact hperm.mem_iff.mpr hother
      · change (s.proc p).uNshmseg + 1 = ((saAdd sap (s.proc p).pSegacct).length : Int)
        rw [hperm.length_eq, h.nshmseg p (by rw [hpc]; exact fun hno => by cases hno) hborn]
        rfl
      · unfold Settled
        rw [setProc_proc]
        trivial
    refine hadded.lock fun q other hq => ?_
    by_cases hqp : q = p
    · rw [hqp, setProc_proc] at hq
      cases hq
    · rw [setProc_other hqp] at hq
      exact hqp (some.inj ((h.attached hq).1.symm.trans hlocked))
  | _ => simp only [hpc] at hstep; cases hstep

/-! ### `shmdt` and `munmap` -/

theorem shmdt_inv (h : Inv s) (hstep : shmdt s p addr = some t) : Inv t := by
  unfold shmdt at hstep
  split_ifs at hstep with hpc
  obtain rfl := some.inj hstep
  unfold kshmdt
  split_ifs with haio
  · exact h
  · cases hfind : saFind addr (s.proc p).pSegacct with
    | none => exact h
    | some sap =>
      refine h.goTo hpc rfl nofun nofun rfl nofun nofun ?_
      unfold Settled
      rw [setProc_proc]
      change saFind sap.saAddr (s.proc p).pSegacct = some sap
      rw [saFind_addr hfind, hfind]

theorem munmap_inv (h : Inv s) (hstep : munmap s p addr size = some t) : Inv t := by
  unfold munmap at hstep
  split_ifs at hstep with hpc hsize
  · obtain rfl := some.inj hstep
    exact h
  obtain rfl := some.inj hstep
  refine h.goTo hpc rfl nofun nofun rfl nofun nofun ?_
  unfold Settled
  rw [setProc_proc]
  trivial

/-! ### `as_unmap` and the rest of `shmdt` -/

omit [DecidableEq P] [DecidableEq I] in
theorem asUnmap_inv (h : Inv s) (hstep : asUnmap s p = some t) : Inv t := by
  unfold asUnmap at hstep
  cases hrange : (s.proc p).pc.range with
  | none => simp only [hrange] at hstep; cases hstep
  | some range =>
    cases has : (s.proc p).pAs with
    | none => simp only [hrange, has] at hstep; cases hstep
    | some as =>
      simp only [hrange, has] at hstep
      cases hnext : nextSeg range.1 range.2 (s.segs as) with
      | none => simp only [hnext] at hstep; cases hstep
      | some found =>
        obtain ⟨front, seg, back⟩ := found
        simp only [hnext] at hstep
        obtain ⟨hsegs, hmeets⟩ := nextSeg_split hnext
        obtain ⟨hactive, hattach⟩ := range_active hrange
        have hmem := mem_spaces_of_active hactive has
        have hseg : Held (s.proc p).pSegacct seg := by
          rw [← saps_eq hattach]
          refine h.covered p as hmem seg ?_
          rw [hsegs]
          exact mem_append_right _ (.head _)
        obtain ⟨hafter, hbefore⟩ := hmeets
        generalize hraddr : (if range.1 < seg.sBase then seg.sBase else range.1) = raddr at hstep
        have hbase : seg.sBase ≤ raddr ∧ raddr < seg.sBase + seg.sSize ∧ raddr ≤ range.1 + range.2 := by
          have hsize := hseg.1
          split_ifs at hraddr <;> omega
        generalize hssize : (if seg.sBase + seg.sSize < range.1 + range.2 then
          seg.sBase + seg.sSize - raddr else range.1 + range.2 - raddr) = ssize at hstep
        have htop : raddr + ssize ≤ seg.sBase + seg.sSize := by
          split_ifs at hssize <;> omega
        obtain rfl := some.inj hstep
        have hperm : (s.segs as).Perm (seg :: (front ++ back)) := by
          rw [hsegs]
          exact perm_middle
        refine h.remap hmem (fun other hother => ?_) ?_ fun b hb => ?_
        · rw [saps_eq hattach]
          rcases mem_append.mp hother with hother | hother
          · rcases mem_append.mp hother with hother | hother
            · rw [← saps_eq hattach]
              refine h.covered p as hmem other ?_
              rw [hsegs]
              exact mem_append_left _ hother
            · exact segvnUnmap_held hseg hbase.1 htop hother
          · rw [← saps_eq hattach]
            refine h.covered p as hmem other ?_
            rw [hsegs]
            exact mem_append_right _ (.tail _ hother)
        · have hsum := refs_setSegs s as
            (front ++ (segvnUnmap seg raddr ssize (s.amps seg.amp)).1 ++ back) seg.amp
          have hpos := refs_pos_of_held hseg
          obtain ⟨-, sap, hsap, hcovers⟩ := hseg
          have hrecord := records_pos hsap
          rw [hcovers.amp] at hrecord
          rw [count_map_perm hperm, if_pos rfl] at hsum
          simp only [map_append, count_append] at hsum
          have hone : mappings s seg.amp ≠ 0 := by
            have hmapping := mappings_setSegs s as [] seg.amp
            rw [count_map_perm hperm, if_pos rfl] at hmapping
            change _ = mappings s seg.amp + 0 at hmapping
            omega
          obtain ⟨n, hn⟩ : ∃ n, refs s seg.amp = n + 1 := ⟨refs s seg.amp - 1, by omega⟩
          have hn' : 0 < n := by
            unfold refs at hn
            omega
          have htally := h.counts seg.amp
          rw [hn] at htally
          have hnew : refs (s.setSegs as
              (front ++ (segvnUnmap seg raddr ssize (s.amps seg.amp)).1 ++ back)) seg.amp =
              n + ((segvnUnmap seg raddr ssize (s.amps seg.amp)).1.map Seg.amp).count seg.amp := by
            omega
          rw [hnew]
          exact segvnUnmap_tallied htally hn'
        · rw [count_map_perm hperm, if_neg hb.symm]
          simp only [map_append, count_append, segvnUnmap_other hb, add_zero]

omit [DecidableEq I] [DecidableEq S] in
theorem unmapEnd_inv (h : Inv s) (hstep : unmapEnd s p = some t) : Inv t := by
  unfold unmapEnd at hstep
  cases hpc : (s.proc p).pc with
  | unmap addr size =>
    simp only [hpc] at hstep
    split_ifs at hstep with hunmapped
    obtain rfl := some.inj hstep
    refine h.goTo hpc rfl nofun nofun rfl nofun nofun ?_
    unfold Settled
    rw [setProc_proc]
    trivial
  | detach sap caller =>
    simp only [hpc] at hstep
    split_ifs at hstep with hunmapped
    obtain rfl := some.inj hstep
    have hfind : saFind sap.saAddr (s.proc p).pSegacct = some sap := by
      have hself := h.settled p
      unfold Settled at hself
      rw [hpc] at hself
      exact hself
    have hperm := saDel_perm (h.ordered p) hfind
    have hborn : ∀ q, (s.proc p).pc ≠ .born q := by rw [hpc]; exact nofun
    have hactive : (s.proc p).pc.active = true := by rw [hpc]; rfl
    have hattach : ∀ sp sap, (s.proc p).pc ≠ .attach sp sap := by rw [hpc]; exact nofun
    generalize hnext : (Pc.after caller : Pc P I S A) = next
    have hplain : next.building = [] ∧ (∀ cp, next ≠ .vwait cp) ∧ (∀ pp, next ≠ .born pp) ∧
        ∀ sp sap, next ≠ .attach sp sap := by
      rw [← hnext]
      cases caller with
      | none => exact ⟨rfl, nofun, nofun, nofun⟩
      | some caller => exact ⟨rfl, nofun, nofun, nofun⟩
    let proc : Proc P I S A := { s.proc p with
        uNshmseg := (s.proc p).uNshmseg - 1
        pSegacct := saDel sap.saAddr (s.proc p).pSegacct
        pc := next }
    have hrecords : ∀ b, (s.proc p).records b = proc.records b + if sap.saAmp = b then 1 else 0 :=
      count_map_perm hperm
    refine h.rerecord (Moves.stay hactive rfl rfl hplain.1 hplain.2.1 hplain.2.2.1)
      (not_child h.settled hborn) ?_ (fun b hb => ?_) (saDel_ordered (h.ordered p))
      (fun x hx seg hseg => ?_) (fun _ _ => ?_) ?_
    · have hsum := refs_setProc s p proc sap.saAmp
      have hcount := hrecords sap.saAmp
      rw [if_pos rfl] at hcount
      have hrefs : refs s sap.saAmp = refs (s.setProc p proc) sap.saAmp + 1 := by omega
      have htally := h.counts sap.saAmp
      rw [hrefs] at htally
      exact htally.release
    · have hcount := hrecords b
      rw [if_neg hb.symm] at hcount
      exact hcount.symm
    · have hmem : x ∈ (s.proc p).spaces := by
        refine mem_spaces_stay hactive ?_ ?_ hx
        · rfl
        · exact hplain.1
      have hheld := h.covered p x hmem seg hseg
      rw [saps_eq hattach] at hheld
      rw [saps_eq hplain.2.2.2]
      refine (hheld.mono fun other hother => hperm.mem_iff.mp hother).of_unmapped (hunmapped seg ?_)
      have has : (s.proc p).pAs = some x := by
        unfold Proc.spaces at hx
        rw [hplain.1, append_nil] at hx
        split_ifs at hx
        · exact mem_toList.mp hx
        · cases hx
      unfold State.mapped
      rw [has]
      exact hseg
    · rw [h.nshmseg p (by rw [hpc]; exact nofun) hborn, hperm.length_eq, length_cons]
      push_cast
      omega
    · unfold Settled
      rw [setProc_proc]
      cases caller with
      | none =>
        obtain rfl := hnext
        trivial
      | some caller =>
        obtain rfl := hnext
        trivial
  | _ => simp only [hpc] at hstep; cases hstep

end Svr42.Shm

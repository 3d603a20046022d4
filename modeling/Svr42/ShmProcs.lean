import Svr42.ShmAttach

/-! What `exit`, `exec`, `fork` and `vfork` keep. -/

namespace Svr42.Shm
open Function List Option

variable {P I S A : Type} [DecidableEq P] [DecidableEq I] [DecidableEq S] [DecidableEq A]
  [Fintype P] [Fintype I] [Fintype S] {info : ShmInfo} {s t : State P I S A} {p cp pp : P} {as : S}
  {sp : I} {addr size : Nat} {pc : Pc P I S A} {proc : Proc P I S A}

omit [DecidableEq P] [DecidableEq I] [DecidableEq S] in
/-- The address space that `relvm` lets go of has no segment of shared memory in it. -/
theorem Inv.relvm {caller : Leave} (h : Inv s) (hpc : (s.proc p).pc = .relvm caller)
    (has : (s.proc p).pAs = some as) :
    as ∈ (s.proc p).spaces ∧ (s.proc p).pSegacct = [] ∧ s.segs as = [] := by
  have hmem := mem_spaces_of_active (by rw [hpc]; rfl) has
  have hself := h.settled p
  unfold Settled at hself
  rw [hpc] at hself
  exact ⟨hmem, hself, h.unmapped hmem (by rw [saps_eq (by rw [hpc]; exact nofun), hself])⟩

/-! ### `exit` and `exec` -/

theorem exit_inv (h : Inv s) (hstep : exit s p = some t) : Inv t := by
  unfold exit at hstep
  split_ifs at hstep with hpc hcount
  · obtain rfl := some.inj hstep
    refine h.goTo hpc rfl nofun nofun rfl nofun nofun ?_
    unfold Settled
    rw [setProc_proc]
    trivial
  · obtain rfl := some.inj hstep
    refine h.goTo hpc rfl nofun nofun rfl nofun nofun ?_
    unfold Settled
    rw [setProc_proc]
    have hlength := h.count_user hpc
    rw [not_not.mp hcount] at hlength
    exact eq_nil_of_length_eq_zero (Int.ofNat_eq_zero.mp hlength.symm)

/-- What `shmexec` is nothing to has no attach records. -/
theorem exec_inv (h : Inv s) (hshared : (s.proc p).svfork = true → (s.proc p).pSegacct = [])
    (hstep : exec s p = some t) : Inv t := by
  unfold exec at hstep
  split_ifs at hstep with hpc haio hloop
  · obtain rfl := some.inj hstep
    exact h
  · obtain rfl := some.inj hstep
    refine h.goTo hpc rfl nofun nofun rfl nofun nofun ?_
    unfold Settled
    rw [setProc_proc]
    trivial
  · obtain rfl := some.inj hstep
    have hnone : (s.proc p).pSegacct = [] := by
      by_cases hv : (s.proc p).svfork = true
      · exact hshared hv
      have hcount : (s.proc p).uNshmseg = 0 := by
        by_contra hcount
        exact hloop ⟨hcount, Bool.eq_false_of_not_eq_true hv⟩
      have hlength := h.count_user hpc
      rw [hcount] at hlength
      exact eq_nil_of_length_eq_zero (Int.ofNat_eq_zero.mp hlength.symm)
    refine h.goOn (by rw [hpc]; rfl) (by rw [hpc]; exact nofun) rfl rfl rfl rfl nofun nofun ?_ ?_
    · rw [hnone]
      rfl
    · unfold Settled
      rw [setProc_proc]
      exact hnone

omit [DecidableEq I] [DecidableEq S] in
/-- The loop calls `kshmdt` for the first record, and that finds it. -/
theorem shmexit_inv (h : Inv s) (haio : s.pAiocount p = 0 ∨ (s.proc p).pSegacct = [])
    (hstep : shmexit s p = some t) : Inv t := by
  unfold shmexit at hstep
  cases hpc : (s.proc p).pc with
  | shmexit caller =>
    simp only [hpc] at hstep
    cases hsaps : (s.proc p).pSegacct with
    | nil =>
      simp only [hsaps] at hstep
      cases caller with
      | exit =>
        obtain rfl := some.inj hstep
        refine h.goTo hpc rfl nofun nofun rfl nofun nofun ?_
        unfold Settled
        rw [setProc_proc]
        exact hsaps
      | exec =>
        obtain rfl := some.inj hstep
        refine h.goOn (by rw [hpc]; rfl) (by rw [hpc]; exact nofun) hsaps.symm rfl rfl rfl nofun nofun
          rfl ?_
        unfold Settled
        rw [setProc_proc]
    | cons sap rest =>
      have hzero : s.pAiocount p = 0 := haio.resolve_right fun hnil => by
        rw [hsaps] at hnil
        exact cons_ne_nil sap rest hnil
      have hfind : saFind sap.saAddr (s.proc p).pSegacct = some sap := by
        rw [hsaps]
        exact saFind_head sap rest
      have hdt : kshmdt s p sap.saAddr (some caller) = some (s.setPc p (.detach sap (some caller))) := by
        rw [kshmdt, if_neg (not_not.mpr hzero), hfind]
        rfl
      simp only [hsaps, hdt, getD_some] at hstep
      obtain rfl := some.inj hstep
      refine h.goTo hpc rfl nofun nofun rfl nofun nofun ?_
      unfold Settled
      rw [setProc_proc]
      exact hfind
  | _ => simp only [hpc] at hstep; cases hstep

/-! ### `relvm` -/

omit [DecidableEq I] in
theorem relvm_inv (h : Inv s) (hstep : relvm s p = some t) : Inv t := by
  unfold relvm at hstep
  cases hpc : (s.proc p).pc with
  | relvm caller =>
    cases has : (s.proc p).pAs with
    | none => simp only [hpc, has] at hstep; cases hstep
    | some as =>
      obtain ⟨hmem, hnone, hempty⟩ := h.relvm hpc has
      have hborn : ∀ q, (s.proc p).pc ≠ .born q := by rw [hpc]; exact nofun
      have hspaces : ({ s.proc p with pAs := none, pc := .bare caller } : Proc P I S A).spaces = [] := rfl
      simp only [hpc, has, hempty] at hstep
      split_ifs at hstep with hv
      obtain rfl := some.inj hstep
      have hmoved : Inv (s.setProc p { s.proc p with pAs := none, pc := .bare caller }) := by
        refine h.move ⟨fun x hx => ?_, ?_, nofun, fun q hq => ?_⟩ (not_child h.settled hborn) rfl
          (fun x hx => ?_) (fun _ _ => h.nshmseg p (by rw [hpc]; exact nofun) hborn) ?_
        · rw [hspaces] at hx
          cases hx
        · rw [hspaces]
          exact nodup_nil
        · obtain ⟨_, -, -, hwait, -⟩ := h.waits.waits q p hq
          rw [hv] at hwait
          cases hwait
        · rw [hspaces] at hx
          cases hx
        · unfold Settled
          rw [setProc_proc]
          exact ⟨hnone, rfl⟩
      refine hmoved.give (h.gone hmem ?_) hempty
      rw [hspaces]
      exact not_mem_nil
  | _ => simp only [hpc] at hstep; cases hstep

/-- The parent has its address space again, with no segment of shared memory in it. -/
theorem relvmVfork_inv (h : Inv s) (hstep : relvmVfork s p pp = some t) : Inv t := by
  unfold relvmVfork at hstep
  cases hpc : (s.proc p).pc with
  | relvm caller =>
    simp only [hpc] at hstep
    split_ifs at hstep with hguard
    obtain ⟨-, hwait⟩ := hguard
    obtain rfl := some.inj hstep
    have hne : pp ≠ p := by
      rintro rfl
      rw [hpc] at hwait
      cases hwait
    obtain ⟨as, hppas, hpas, -, -⟩ := h.waits.waits pp p hwait
    obtain ⟨hmem, hnone, hempty⟩ := h.relvm hpc hpas
    have hborn : ∀ q, (s.proc p).pc ≠ .born q := by rw [hpc]; exact nofun
    have hppborn : ∀ q, (s.proc pp).pc ≠ .born q := by rw [hwait]; exact nofun
    -- the child without the address space
    let child : Proc P I S A := { s.proc p with svfork := false, pAs := none, pc := .bare caller }
    have hchild : child.spaces = [] := rfl
    have hspaces : Spaces (s.setProc p child) := h.spaces.move (by rw [hchild]; exact nofun) (by
      rw [hchild]
      exact nodup_nil)
    have hparent : (s.setProc p child).proc pp = s.proc pp := setProc_other hne
    -- the parent with it
    let parent : Proc P I S A := { s.proc pp with pc := .user }
    have hgets : parent.spaces = [as] := by
      change (s.proc pp).pAs.toList ++ [] = [as]
      rw [hppas]
      rfl
    have hfree : ∀ q, as ∉ ((s.setProc p child).proc q).spaces := h.gone hmem (by
      rw [hchild]
      exact not_mem_nil)
    have hcounts : ∀ a, refs ((s.setProc p child).setProc pp parent) a = refs s a := by
      intro a
      have hfirst := refs_setProc s p child a
      have hlast := refs_setProc (s.setProc p child) pp parent a
      rw [hparent] at hlast
      exact (Nat.add_right_cancel hlast).trans (Nat.add_right_cancel hfirst)
    refine ⟨fun a => (hcounts a).symm ▸ h.counts a, h.one, hspaces.move (fun x hx => ?_) ?_, ⟨?_, ?_⟩,
      ?_, ?_, ?_, ?_⟩
    · rw [hgets] at hx
      obtain rfl := mem_singleton.mp hx
      exact .inr ⟨hfree, h.spaces.inUse p x hmem⟩
    · rw [hgets]
      exact nodup_singleton as
    · intro q cp hq
      have hqpp : q ≠ pp := by
        rintro rfl
        rw [setProc_proc] at hq
        cases hq
      rw [setProc_other hqpp] at hq ⊢
      have hqp : q ≠ p := by
        rintro rfl
        rw [setProc_proc] at hq
        cases hq
      rw [setProc_other hqp] at hq ⊢
      obtain ⟨x, hqas, hcpas, hv, hmade⟩ := h.waits.waits q cp hq
      have hcp : cp ≠ p := by
        rintro rfl
        exact hqpp (h.waits.once q pp cp hq hwait)
      refine ⟨x, hqas, ?_⟩
      by_cases hcppp : cp = pp
      · subst hcppp
        rw [setProc_proc]
        exact ⟨hcpas, hv, nofun⟩
      · rw [setProc_other hcppp, setProc_other hcp]
        exact ⟨hcpas, hv, hmade⟩
    · intro q r cp hq hr
      have hback : ∀ q, (((s.setProc p child).setProc pp parent).proc q).pc = .vwait cp →
          (s.proc q).pc = .vwait cp := by
        intro q hq
        by_cases hqpp : q = pp
        · rw [hqpp, setProc_proc] at hq
          cases hq
        rw [setProc_other hqpp] at hq
        by_cases hqp : q = p
        · rw [hqp, setProc_proc] at hq
          cases hq
        · rwa [setProc_other hqp] at hq
      exact h.waits.once q r cp (hback q hq) (hback r hr)
    · refine forall_moves (fun proc => ∀ as, as ∈ proc.spaces → ∀ seg ∈ s.segs as, Held proc.saps seg)
        h.covered ?_ ?_
      · rw [hchild]
        exact nofun
      · intro x hx seg hseg
        rw [hgets] at hx
        obtain rfl := mem_singleton.mp hx
        rw [hempty] at hseg
        cases hseg
    · refine forall_moves (fun proc => Ordered proc.pSegacct) h.ordered ?_ ?_
      · exact h.ordered p
      · exact h.ordered pp
    · refine forall_moves (fun proc => proc.pc ≠ .slot → (∀ pp, proc.pc ≠ .born pp) →
        proc.uNshmseg = proc.pSegacct.length) h.nshmseg (fun _ _ => ?_) fun _ _ => ?_
      · exact h.nshmseg p (by rw [hpc]; exact nofun) hborn
      · exact h.nshmseg pp (by rw [hwait]; exact nofun) hppborn
    · have hsettled : ∀ q, Settled (s.setProc p child) q := by
        refine settled_move h.settled rfl (not_child h.settled hborn) (fun _ _ _ _ _ => rfl) ?_
        unfold Settled
        rw [setProc_proc]
        exact ⟨hnone, rfl⟩
      refine settled_move hsettled rfl (not_child hsettled ?_) (fun _ _ _ _ _ => rfl) ?_
      · rw [hparent]
        exact hppborn
      · unfold Settled
        rw [setProc_proc]
        trivial
  | _ => simp only [hpc] at hstep; cases hstep

theorem freeproc_inv (h : Inv s) (hstep : freeproc s p = some t) : Inv t := by
  unfold freeproc at hstep
  split_ifs at hstep with hpc
  obtain rfl := some.inj hstep
  have hself := h.settled p
  unfold Settled at hself
  rw [hpc] at hself
  refine h.goTo hpc rfl nofun nofun rfl nofun nofun ?_
  unfold Settled
  rw [setProc_proc]
  exact hself

theorem execEnd_inv {nas : S} (h : Inv s) (hstep : execEnd s p nas = some t) : Inv t := by
  unfold execEnd at hstep
  split_ifs at hstep with hguard
  obtain ⟨hpc, hunused⟩ := hguard
  obtain rfl := some.inj hstep
  have hself := h.settled p
  unfold Settled at hself
  rw [hpc] at hself
  have hborn : ∀ q, (s.proc p).pc ≠ .born q := by rw [hpc]; exact nofun
  have hgets : ({ s.proc p with pAs := some nas, pc := .user } : Proc P I S A).spaces = [nas] := rfl
  have hnas := h.allocate nas
  refine hnas.move ⟨fun x hx => ?_, ?_, nofun, fun q hq => ?_⟩ (not_child hnas.settled hborn)
    rfl (fun x hx seg hseg => ?_) (fun _ _ => h.nshmseg p (by rw [hpc]; exact nofun) hborn) ?_
  · rw [hgets] at hx
    obtain rfl := mem_singleton.mp hx
    refine .inr ⟨fun q hq => ?_, update_self ..⟩
    exact Bool.noConfusion (hunused.symm.trans (h.spaces.inUse q x hq))
  · rw [hgets]
    exact nodup_singleton nas
  · obtain ⟨x, -, hpas, -⟩ := h.waits.waits q p hq
    exact absurd (hpas.symm.trans hself.2) (some_ne_none x)
  · rw [hgets] at hx
    obtain rfl := mem_singleton.mp hx
    change seg ∈ s.segs x at hseg
    rw [h.spaces.empty x hunused] at hseg
    cases hseg
  · unfold Settled
    rw [setProc_proc]
    trivial

/-! ### `fork` and `vfork` -/

section

variable (h : Inv s)
include h

theorem fork_inv {newas : S} (hstep : fork s p cp newas = some t) : Inv t := by
  unfold fork at hstep
  split_ifs at hstep with hguard
  obtain ⟨hpc, hslot, hunused⟩ := hguard
  split at hstep
  · cases hstep
  · rename_i as has
    obtain rfl := some.inj hstep
    have huser := user_plain hpc
    have hne : p ≠ cp := by
      rintro rfl
      rw [hpc] at hslot
      cases hslot
    have hmem := mem_spaces_of_active (by rw [hpc]; rfl) has
    have hfresh : ∀ q, newas ∉ (s.proc q).spaces := fun q hq =>
      Bool.noConfusion (hunused.symm.trans (h.spaces.inUse q newas hq))
    have hmade : Inv (((s.setAs newas true).setAio cp 0).setProc cp (newproc s p false (some newas))) :=
      ((h.allocate newas).setAio cp 0).newborn hslot false (some newas)
    let parent : Proc P I S A := { s.proc p with pc := .dup cp newas (s.segs as) }
    have hspaces : parent.spaces = [as, newas] := by
      change (s.proc p).pAs.toList ++ [newas] = _
      rw [has]
      rfl
    have hp : (((s.setAs newas true).setAio cp 0).setProc cp
        (newproc s p false (some newas))).proc p = s.proc p := setProc_other hne
    refine hmade.move ⟨fun x hx => ?_, ?_, (fun c hc => by cases hc), fun q _ => ?_⟩
      (not_child hmade.settled (by rw [hp]; exact huser.1)) ?_ (fun x hx seg hseg => ?_)
      (fun _ _ => h.count_user hpc) ?_
    · rw [hspaces] at hx
      rcases mem_cons.mp hx with rfl | hx
      · rw [hp]
        exact .inl hmem
      obtain rfl := mem_singleton.mp hx
      refine .inr ⟨fun q hq => ?_, update_self ..⟩
      by_cases hqcp : q = cp
      · rw [hqcp, setProc_proc] at hq
        cases hq
      · rw [setProc_other hqcp] at hq
        exact hfresh q hq
    · rw [hspaces]
      refine nodup_cons.mpr ⟨fun hx => ?_, nodup_singleton newas⟩
      exact hfresh p (mem_singleton.mp hx ▸ hmem)
    · rw [hp]
      exact ⟨rfl, rfl, fun r hr => by cases hr⟩
    · rw [hp]
    · rw [hspaces] at hx
      rcases mem_cons.mp hx with rfl | hx
      · have hheld := h.covered p x hmem seg hseg
        rw [saps_eq (huser.2)] at hheld
        exact hheld
      · obtain rfl := mem_singleton.mp hx
        change seg ∈ s.segs x at hseg
        rw [h.spaces.empty x hunused] at hseg
        cases hseg
    · unfold Settled
      rw [setProc_proc]
      refine ⟨⟨?_, ?_⟩, ?_⟩
      · rw [setProc_other hne.symm, setProc_proc]
        rfl
      · rw [setProc_other hne.symm, setProc_proc, setProc_proc]
        rfl
      · rw [setProc_other hne.symm, setProc_proc]
        refine ⟨rfl, rfl, rfl, fun seg hseg => ?_⟩
        have hheld := h.covered p as hmem seg hseg
        rw [saps_eq (huser.2)] at hheld
        exact hheld

theorem vfork_inv (hstep : vfork s p cp = some t) : Inv t := by
  unfold vfork at hstep
  split_ifs at hstep with hguard
  obtain ⟨hpc, hslot⟩ := hguard
  split at hstep
  · cases hstep
  · rename_i as has
    obtain rfl := some.inj hstep
    have huser := user_plain hpc
    have hne : p ≠ cp := by
      rintro rfl
      rw [hpc] at hslot
      cases hslot
    have hmade : Inv ((s.setAio cp 0).setProc cp (newproc s p true (some as))) :=
      (h.setAio cp 0).newborn hslot true (some as)
    have hp : ((s.setAio cp 0).setProc cp (newproc s p true (some as))).proc p = s.proc p :=
      setProc_other hne
    refine hmade.keep ?_ (by rw [hp]; exact huser.2) (by rw [hp]; exact huser.1)
      (by rw [hp, hpc]; exact fun hno => by cases hno) (by rw [hp]) (by rw [hp]) (by rw [hp])
      (by rw [hp]) (fun c hc => by cases hc) (fun r hr => by cases hr) ?_
    · rw [hp]
      unfold Proc.spaces
      rw [hpc]
      rfl
    · unfold Settled
      rw [setProc_proc]
      refine ⟨⟨?_, ?_⟩, ?_⟩
      · rw [setProc_other hne.symm, setProc_proc]
        rfl
      · rw [setProc_other hne.symm, setProc_proc, setProc_proc]
        rfl
      · rw [setProc_other hne.symm, setProc_proc, shmforkSaps_eq (h.count_user hpc)]
        exact ⟨List.Perm.refl _, rfl, rfl, fun _ => has⟩

omit [DecidableEq I] [DecidableEq S] in
theorem asDupFail_inv (hstep : asDupFail s p = some t) : Inv t := by
  unfold asDupFail at hstep
  cases hpc : (s.proc p).pc with
  | dup cp newas segs =>
    simp only [hpc] at hstep
    obtain rfl := some.inj hstep
    have hself := h.settled p
    unfold Settled at hself
    rw [hpc] at hself
    obtain ⟨hchild, hnone, -⟩ := hself
    have hne : cp ≠ p := by
      rintro rfl
      have hborn := hchild.born
      rw [hpc] at hborn
      cases hborn
    refine h.keep ?_ (by rw [hpc]; exact nofun) (by rw [hpc]; exact nofun) (by rw [hpc]; exact nofun)
      rfl rfl rfl rfl nofun nofun ?_
    · unfold Proc.spaces
      rw [hpc]
      rfl
    · unfold Settled
      rw [setProc_proc]
      refine ⟨⟨?_, ?_⟩, ?_⟩
      · rw [setProc_other hne, hchild.born]
      · rw [setProc_other hne, setProc_proc, hchild.count]
      · rw [setProc_other hne, hnone]
  | _ => simp only [hpc] at hstep; cases hstep

omit [DecidableEq I] in
theorem asDup_inv (hstep : asDup s p = some t) : Inv t := by
  unfold asDup at hstep
  cases hpc : (s.proc p).pc with
  | dup cp newas segs =>
    have hself := h.settled p
    unfold Settled at hself
    rw [hpc] at hself
    obtain ⟨hchild, hnone, hcpas, hcpv, hheld⟩ := hself
    have hne : cp ≠ p := hchild.ne (by rw [hpc]; exact nofun)
    have hattach : ∀ sp sap, (s.proc p).pc ≠ .attach sp sap := by rw [hpc]; exact nofun
    simp only [hpc] at hstep
    cases segs with
    | nil =>
      obtain rfl := some.inj hstep
      have hsaps : shmforkSaps s p = (s.proc p).pSegacct :=
        shmforkSaps_eq (h.nshmseg p (by rw [hpc]; exact nofun) (by rw [hpc]; exact nofun))
      refine h.keep ?_ hattach (by rw [hpc]; exact nofun) (by rw [hpc]; exact nofun)
        rfl rfl rfl rfl nofun nofun ?_
      · unfold Proc.spaces
        rw [hpc]
        rfl
      · unfold Settled
        rw [setProc_proc]
        refine ⟨⟨?_, ?_⟩, ?_⟩
        · rw [setProc_other hne, hchild.born]
        · rw [setProc_other hne, setProc_proc, hchild.count]
        · rw [setProc_other hne, hnone, hsaps]
          exact ⟨List.Perm.refl _, hcpas, hcpv, nofun⟩
    | cons seg rest =>
      obtain rfl := some.inj hstep
      have hmem : newas ∈ (s.proc p).spaces := by
        unfold Proc.spaces
        rw [hpc]
        exact mem_append_right _ (mem_singleton_self newas)
      have hseg : Held (s.proc p).pSegacct seg := hheld seg (.head _)
      have hadded := h.addSeg hmem (perm_append_singleton seg (s.segs newas)) (by
        rw [saps_eq hattach]
        exact hseg) (refs_pos_of_held hseg)
      refine hadded.keep ?_ hattach (by change ∀ pp, (s.proc p).pc ≠ _; rw [hpc]; exact nofun)
        (by change (s.proc p).pc ≠ _; rw [hpc]; exact nofun) rfl rfl rfl rfl nofun nofun ?_
      · change _ = (s.proc p).spaces
        unfold Proc.spaces
        rw [hpc]
        rfl
      · unfold Settled
        rw [setProc_proc]
        refine ⟨⟨?_, ?_⟩, ?_⟩
        · rw [setProc_other hne]
          exact hchild.born
        · rw [setProc_other hne, setProc_proc]
          exact hchild.count
        · rw [setProc_other hne]
          exact ⟨hnone, hcpas, hcpv, fun other hother => hheld other (.tail _ hother)⟩
  | _ => simp only [hpc] at hstep; cases hstep

omit [DecidableEq I] in
theorem asUndup_inv (hstep : asUndup s p = some t) : Inv t := by
  unfold asUndup at hstep
  cases hpc : (s.proc p).pc with
  | undup cp newas =>
    have hself := h.settled p
    unfold Settled at hself
    rw [hpc] at hself
    obtain ⟨hchild, hnone⟩ := hself
    have hne : cp ≠ p := hchild.ne (by rw [hpc]; exact nofun)
    have hattach : ∀ sp sap, (s.proc p).pc ≠ .attach sp sap := by rw [hpc]; exact nofun
    have hspaces : (s.proc p).spaces = (s.proc p).pAs.toList ++ [newas] := by
      unfold Proc.spaces
      rw [hpc]
      rfl
    have hmem : newas ∈ (s.proc p).spaces := by
      rw [hspaces]
      exact mem_append_right _ (mem_singleton_self newas)
    simp only [hpc] at hstep
    cases hsegs : s.segs newas with
    | nil =>
      simp only [hsegs] at hstep
      obtain rfl := some.inj hstep
      have hback : Inv (s.setPc p .user) := by
        refine h.goTo hpc rfl nofun nofun rfl nofun nofun ?_
        unfold Settled
        rw [setProc_proc]
        trivial
      have hcp : (s.setPc p .user).proc cp = s.proc cp := setProc_other hne
      have hfreed : Inv ((s.setPc p .user).setProc cp { s.proc cp with pAs := none, pc := .slot }) := by
        refine hback.move ⟨nofun, nodup_nil, nofun, fun q hq => ?_⟩ (fun q hq => ?_) ?_ nofun
          (fun hslot => absurd rfl hslot) ?_
        · refine absurd hq (hback.unwaited (p := p) ?_ ?_ q)
          · rw [hcp, hchild.born]
          · intro c
            change ((s.setProc p _).proc p).pc ≠ _
            rw [setProc_proc]
            exact nofun
        · by_cases hqp : q = p
          · change ((s.setProc p _).proc q).pc.child = _ at hq
            rw [hqp, setProc_proc] at hq
            cases hq
          · change ((s.setProc p _).proc q).pc.child = _ at hq
            rw [setProc_other hqp] at hq
            exact hqp (h.made hchild.born hq)
        · rw [hcp]
        · unfold Settled
          rw [setProc_proc]
          exact ⟨hnone, rfl⟩
      refine hfreed.give (fun q hq => ?_) hsegs
      by_cases hqcp : q = cp
      · rw [hqcp, setProc_proc] at hq
        cases hq
      rw [setProc_other hqcp] at hq
      refine h.gone hmem (fun hx => ?_) q hq
      have hnodup := h.spaces.nodup p
      rw [hspaces] at hnodup
      change newas ∈ (s.proc p).pAs.toList ++ [] at hx
      rw [append_nil] at hx
      exact (nodup_append.mp hnodup).2.2 newas hx newas (mem_singleton_self newas) rfl
    | cons seg rest =>
      simp only [hsegs] at hstep
      obtain rfl := some.inj hstep
      have hheld : Held (s.proc p).pSegacct seg := by
        rw [← saps_eq hattach]
        refine h.covered p newas hmem seg ?_
        rw [hsegs]
        exact .head _
      refine h.remap hmem (fun other hother => h.covered p newas hmem other ?_) ?_ fun b hb => ?_
      · rw [hsegs]
        exact .tail _ hother
      · have hsum := refs_setSegs s newas rest seg.amp
        have hmapping := mappings_setSegs s newas rest seg.amp
        rw [hsegs, count_map_perm (List.Perm.refl _), if_pos rfl] at hsum hmapping
        obtain ⟨-, sap, hsap, hcovers⟩ := hheld
        have hrecord := records_pos hsap
        rw [hcovers.amp] at hrecord
        have hrefs : refs s seg.amp = refs (s.setSegs newas rest) seg.amp + 1 := by omega
        have htally := h.counts seg.amp
        rw [hrefs] at htally
        refine htally.segvnFree ?_
        change 0 < identifiers s seg.amp + records s seg.amp + mappings (s.setSegs newas rest) seg.amp
        omega
      · rw [hsegs, count_map_perm (List.Perm.refl _) b, if_neg hb.symm, add_zero]
  | _ => simp only [hpc] at hstep; cases hstep

omit [DecidableEq I] [DecidableEq S] in
theorem shmfork_inv (hstep : shmfork s p = some t) : Inv t := by
  unfold shmfork at hstep
  cases hpc : (s.proc p).pc with
  | fork cp newas saps isvfork =>
    have hself := h.settled p
    unfold Settled at hself
    rw [hpc] at hself
    obtain ⟨hchild, hperm, hcpas, hcpv, hshared⟩ := hself
    have hold : ∀ pp, (s.proc p).pc ≠ .born pp := by rw [hpc]; exact nofun
    have hne : cp ≠ p := hchild.ne hold
    have hattach : ∀ sp sap, (s.proc p).pc ≠ .attach sp sap := by rw [hpc]; exact nofun
    have hcount : (s.proc p).uNshmseg = (s.proc p).pSegacct.length :=
      h.nshmseg p (by rw [hpc]; exact nofun) hold
    simp only [hpc] at hstep
    cases saps with
    | cons sap rest =>
      obtain rfl := some.inj hstep
      let child : Proc P I S A := { s.proc cp with pSegacct := saAdd sap (s.proc cp).pSegacct }
      let parent : Proc P I S A := { s.proc p with pc := .fork cp newas rest isvfork }
      have hadd := saAdd_perm sap (s.proc cp).pSegacct
      have hmem : sap ∈ (s.proc p).pSegacct := hperm.mem_iff.mp (mem_append_right _ (.head _))
      have hinactive : child.spaces = [] := by
        change (if (s.proc cp).pc.active = true then _ else _) ++ (s.proc cp).pc.building = _
        rw [hchild.born]
        rfl
      have hsame : parent.spaces = (s.proc p).spaces := by
        unfold Proc.spaces
        rw [hpc]
        cases isvfork <;> rfl
      have hp : (s.setProc cp child).proc p = s.proc p := setProc_other hne.symm
      have hfirst : Moves s cp child := by
        refine ⟨?_, ?_, fun c hc => ?_, fun q hq => ?_⟩
        · rw [hinactive]
          exact nofun
        · rw [hinactive]
          exact nodup_nil
        · have hborn : child.pc = .born p := hchild.born
          rw [hborn] at hc
          cases hc
        · exact absurd hq (h.unwaited hchild.born (by rw [hpc]; exact nofun) q)
      have hlast : Moves (s.setProc cp child) p parent := by
        refine ⟨?_, ?_, nofun, fun q hq => ?_⟩
        · rw [hsame, hp]
          exact fun x hx => .inl hx
        · rw [hsame]
          exact h.spaces.nodup p
        · rw [hp]
          exact ⟨rfl, rfl, nofun⟩
      have hspaces := (h.spaces.move hfirst.spaces hfirst.nodup).move hlast.spaces hlast.nodup
      have hwaits := (h.waits.move hfirst).move hlast
      have hrefs : ∀ b, refs ((s.setProc cp child).setProc p parent) b =
          refs s b + if sap.saAmp = b then 1 else 0 := by
        intro b
        have hadded := refs_setProc s cp child b
        have hkept := refs_setProc (s.setProc cp child) p parent b
        have hrecords : child.records b = (s.proc cp).records b + if sap.saAmp = b then 1 else 0 :=
          count_map_perm hadd b
        rw [hp] at hkept
        change _ + (s.proc p).records b = _ + (s.proc p).records b at hkept
        omega
      refine ⟨counts_update h.counts rfl (fun b hb => ?_) ?_, h.one, ⟨hspaces.nodup, hspaces.alone,
        hspaces.inUse, hspaces.empty⟩, ⟨hwaits.waits, hwaits.once⟩, ?_, ?_, ?_, fun q => ?_⟩
      · refine (hrefs b).trans ?_
        rw [if_neg hb.symm, add_zero]
      · change Tallied _ (refs ((s.setProc cp child).setProc p parent) sap.saAmp)
        rw [hrefs, if_pos rfl]
        exact (h.counts sap.saAmp).hold (refs_pos_of_record hmem)
      · refine forall_moves (fun proc => ∀ as, as ∈ proc.spaces → ∀ seg ∈ s.segs as, Held proc.saps seg)
          h.covered ?_ ?_
        · rw [hinactive]
          exact nofun
        · intro x hx seg hseg
          rw [hsame] at hx
          have hheld := h.covered p x hx seg hseg
          rw [saps_eq hattach] at hheld
          exact hheld
      · refine forall_moves (fun proc => Ordered proc.pSegacct) h.ordered ?_ ?_
        · exact saAdd_ordered (h.ordered cp)
        · exact h.ordered p
      · refine forall_moves (fun proc => proc.pc ≠ .slot → (∀ pp, proc.pc ≠ .born pp) →
          proc.uNshmseg = proc.pSegacct.length) h.nshmseg (fun _ hborn => ?_) fun _ _ => ?_
        · exact absurd hchild.born (hborn p)
        · exact hcount
      · by_cases hqp : q = p
        · subst hqp
          unfold Settled
          rw [setProc_proc]
          refine ⟨⟨?_, ?_⟩, ?_, ?_⟩
          · rw [setProc_other hne, setProc_proc]
            exact hchild.born
          · rw [setProc_other hne, setProc_proc, setProc_proc]
            exact hchild.count
          · rw [setProc_other hne, setProc_proc]
            refine ((hadd.append_right rest).trans ?_).trans hperm
            exact perm_middle.symm
          · rw [setProc_other hne, setProc_proc]
            exact ⟨hcpas, hcpv, hshared⟩
        · by_cases hqcp : q = cp
          · subst hqcp
            have hborn : (((((s.setAmp sap.saAmp (s.amps sap.saAmp).hold).setProc q child)).setProc p
                parent).proc q).pc = .born p := by
              rw [setProc_other hne, setProc_proc]
              exact hchild.born
            unfold Settled
            rw [hborn]
            trivial
          · refine (h.settled q).frame ?_ (fun c hc => ?_) fun _ _ _ => rfl
            · rw [setProc_other hqp, setProc_other hqcp]
              rfl
            · have hcp : c ≠ cp := by
                rintro rfl
                exact hqp (h.made hchild.born hc)
              have hcp' : c ≠ p := by
                rintro rfl
                exact hold q ((h.settled q).child hc).born
              rw [setProc_other hcp', setProc_other hcp]
              rfl
    | nil =>
      obtain rfl := some.inj hstep
      rw [append_nil] at hperm
      -- the parent lets go of what becomes the child's
      have hparent : Inv (s.setPc p (if isvfork = true then .vwait cp else .user)) ∧
          newas ∈ (s.proc p).spaces ∧
          newas ∉ ((s.setPc p (if isvfork = true then .vwait cp else .user)).proc p).spaces := by
        cases isvfork with
        | false =>
          have hspaces : (s.proc p).spaces = (s.proc p).pAs.toList ++ [newas] := by
            unfold Proc.spaces
            rw [hpc]
            rfl
          refine ⟨h.goTo hpc rfl nofun nofun rfl nofun nofun ?_, ?_, fun hx => ?_⟩
          · unfold Settled
            rw [setProc_proc]
            trivial
          · rw [hspaces]
            exact mem_append_right _ (mem_singleton_self newas)
          · have hnodup := h.spaces.nodup p
            rw [hspaces] at hnodup
            change newas ∈ ((s.setProc p _).proc p).spaces at hx
            rw [setProc_proc] at hx
            change newas ∈ (s.proc p).pAs.toList ++ [] at hx
            rw [append_nil] at hx
            exact (nodup_append.mp hnodup).2.2 newas hx newas (mem_singleton_self newas) rfl
        | true =>
          refine ⟨h.move ⟨nofun, nodup_nil, fun c hc => ?_, fun q _ => ⟨rfl, rfl, nofun⟩⟩
            (not_child h.settled hold) rfl nofun (fun _ _ => hcount) ?_, ?_, fun hx => ?_⟩
          · cases hc
            refine ⟨hne, h.unwaited hchild.born (by rw [hpc]; exact nofun), newas, hshared rfl, hcpas, hcpv,
              fun q hq => ?_⟩
            rw [hchild.born] at hq
            cases hq
            rfl
          · unfold Settled
            rw [setProc_proc]
            trivial
          · exact mem_spaces_of_active (by rw [hpc]; rfl) (hshared rfl)
          · change newas ∈ ((s.setProc p _).proc p).spaces at hx
            rw [setProc_proc] at hx
            cases hx
      obtain ⟨hinv, hmem, hfree⟩ := hparent
      have hchildless : (if isvfork = true then Pc.vwait cp else Pc.user : Pc P I S A).child = none := by
        cases isvfork <;> rfl
      generalize (if isvfork = true then Pc.vwait cp else Pc.user : Pc P I S A) = next
        at hinv hfree hchildless
      have hcp : (s.setPc p next).proc cp = s.proc cp := setProc_other hne
      have hspaces : ({ s.proc cp with pc := .user } : Proc P I S A).spaces = [newas] := by
        change (s.proc cp).pAs.toList ++ [] = _
        rw [hcpas]
        rfl
      refine hinv.move ⟨fun x hx => ?_, ?_, nofun, fun q _ => ?_⟩ (fun q hq => ?_) ?_
        (fun x hx seg hseg => ?_) (fun _ _ => ?_) ?_
      · rw [hspaces] at hx
        obtain rfl := mem_singleton.mp hx
        refine .inr ⟨fun q hq => ?_, h.spaces.inUse p x hmem⟩
        by_cases hqp : q = p
        · rw [hqp] at hq
          exact hfree hq
        · change x ∈ ((s.setProc p _).proc q).spaces at hq
          rw [setProc_other hqp] at hq
          exact hqp (h.spaces.alone q p x hq hmem)
      · rw [hspaces]
        exact nodup_singleton newas
      · rw [hcp]
        exact ⟨rfl, rfl, nofun⟩
      · change ((s.setProc p _).proc q).pc.child = _ at hq
        by_cases hqp : q = p
        · rw [hqp, setProc_proc] at hq
          exact absurd (hq.symm.trans hchildless) (some_ne_none cp)
        · rw [setProc_other hqp] at hq
          exact hqp (h.made hchild.born hq)
      · rw [hcp]
      · rw [hspaces] at hx
        obtain rfl := mem_singleton.mp hx
        have hheld := h.covered p x hmem seg hseg
        rw [saps_eq hattach] at hheld
        exact hheld.mono fun sap hsap => hperm.mem_iff.mpr hsap
      · rw [hchild.count, hcount, hperm.length_eq]
      · unfold Settled
        rw [setProc_proc]
        trivial
  | _ => simp only [hpc] at hstep; cases hstep

end

end Svr42.Shm

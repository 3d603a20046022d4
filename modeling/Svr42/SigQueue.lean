import Mathlib.Data.List.TakeWhile
import Svr42.SigModel

/-! The pending signals of one process and its queue of siginfos: what posting, taking off and
cancelling do to them. -/

namespace Svr42.Sig
open List

def Valid (sig : Int) : Prop := 0 < sig ∧ sig < NSIG

instance (sig : Int) : Decidable (Valid sig) := inferInstanceAs (Decidable (_ ∧ _))

def StopDefault (sig : Int) : Prop :=
  sig = SIGSTOP ∨ sig = SIGTSTP ∨ sig = SIGTTIN ∨ sig = SIGTTOU

def Conflicts (sig other : Int) : Prop :=
  (sig = SIGCONT ∧ StopDefault other) ∨ (StopDefault sig ∧ other = SIGCONT)

variable {s : Sigset} {m n sig : Int} {g : Sigs}

theorem StopDefault.valid (h : StopDefault sig) : Valid sig := by
  rcases h with rfl | rfl | rfl | rfl <;> decide

theorem StopDefault.ne_cont (h : StopDefault sig) : sig ≠ SIGCONT := by
  rcases h with rfl | rfl | rfl | rfl <;> decide

theorem valid_cont : Valid SIGCONT := by decide

/-! ### Sets -/

theorem Valid.bit (h : Valid n) : (n - 1).toNat < 32 := by
  have hle : n < 32 := h.2
  omega

theorem sigismember_eq (s : Sigset) (n : Int) : sigismember s n = s.getLsbD (n - 1).toNat := by
  have hmask : sigmask n = BitVec.twoPow 32 (n - 1).toNat := (BitVec.twoPow_eq 32 _).symm
  have hpow : (n - 1).toNat < 32 → BitVec.twoPow 32 (n - 1).toNat ≠ 0#32 := by
    intro hbit hzero
    have hget := BitVec.getLsbD_twoPow (w := 32) (n - 1).toNat (n - 1).toNat
    rw [hzero, BitVec.getLsbD_zero, decide_eq_true hbit, decide_eq_true rfl] at hget
    exact absurd hget (by decide)
  unfold sigismember
  rw [hmask, BitVec.twoPow_and]
  cases hget : s.getLsbD (n - 1).toNat with
  | false => rfl
  | true => exact decide_eq_true (hpow (BitVec.lt_of_getLsbD hget))

theorem getLsbD_sigmask (hm : Valid m) (n : Int) (hn : Valid n) :
    (sigmask n).getLsbD (m - 1).toNat = decide (m = n) := by
  have hbit' := hn.bit
  have hmask : sigmask n = BitVec.twoPow 32 (n - 1).toNat := (BitVec.twoPow_eq 32 _).symm
  rw [hmask, BitVec.getLsbD_twoPow]
  have hpos := hm.1
  have hpos' := hn.1
  have hiff : (n - 1).toNat = (m - 1).toNat ↔ m = n := by omega
  rw [decide_eq_true hbit', Bool.true_and, decide_eq_decide]
  exact hiff

theorem sigismember_add (hm : Valid m) (hn : Valid n) :
    sigismember (sigaddset s n) m = true ↔ sigismember s m = true ∨ m = n := by
  rw [sigismember_eq, sigismember_eq, sigaddset, BitVec.getLsbD_or, getLsbD_sigmask hm n hn,
    Bool.or_eq_true, decide_eq_true_eq]

theorem sigismember_del (hm : Valid m) (hn : Valid n) :
    sigismember (sigdelset s n) m = true ↔ sigismember s m = true ∧ m ≠ n := by
  have hbit := hm.bit
  rw [sigismember_eq, sigismember_eq, sigdelset, BitVec.getLsbD_and, BitVec.getLsbD_not,
    getLsbD_sigmask hm n hn, decide_eq_true hbit]
  simp only [Bool.true_and, Bool.and_eq_true, Bool.not_eq_true', decide_eq_false_iff_not, ne_eq]

theorem sigismember_stopdefault (h : Valid sig) :
    sigismember stopdefault sig = true ↔ StopDefault sig := by
  rw [sigismember_eq]
  unfold stopdefault StopDefault
  rw [BitVec.getLsbD_or, BitVec.getLsbD_or, BitVec.getLsbD_or, getLsbD_sigmask h _ (by decide),
    getLsbD_sigmask h _ (by decide), getLsbD_sigmask h _ (by decide),
    getLsbD_sigmask h _ (by decide)]
  simp only [Bool.or_eq_true, decide_eq_true_eq]
  tauto

theorem stopDefault_of_member (h : sigismember stopdefault sig = true) : StopDefault sig := by
  have hbits : ∀ i < 32, stopdefault.getLsbD i = true → i = 22 ∨ i = 23 ∨ i = 25 ∨ i = 26 := by
    decide
  rw [sigismember_eq] at h
  have hbit := hbits _ (BitVec.lt_of_getLsbD h) h
  unfold StopDefault SIGSTOP SIGTSTP SIGTTIN SIGTTOU
  omega

theorem member_of_diff {s' : Sigset} (h : sigismember (sigdiffset s s') n = true) :
    sigismember s n = true := by
  rw [sigismember_eq, sigdiffset, BitVec.getLsbD_and, Bool.and_eq_true] at h
  rw [sigismember_eq]
  exact h.1

theorem sigismember_diff (h : Valid sig) : sigismember (sigdiffset s stopdefault) sig = true ↔
      sigismember s sig = true ∧ ¬ StopDefault sig := by
  have hbit := h.bit
  rw [← sigismember_stopdefault h, sigismember_eq, sigismember_eq, sigismember_eq,
    sigdiffset, BitVec.getLsbD_and, BitVec.getLsbD_not, decide_eq_true hbit]
  simp only [Bool.true_and, Bool.and_eq_true, Bool.not_eq_true', Bool.not_eq_true]

/-! ### What is pending -/

def Pending (g : Sigs) (sig : Int) : Prop := sigismember g.pSig sig = true

/-- Signals that exclude each other are not both pending; the siginfos on the queue are for
different signals that are pending, or in `posting`. -/
structure Orderly (posting : Int → Prop) (g : Sigs) : Prop where
  apart : ∀ sig, StopDefault sig → ¬ (Pending g SIGCONT ∧ Pending g sig)
  valid : ∀ sqp ∈ g.pSigqueue, Valid sqp.siSigno
  queued : ∀ sqp ∈ g.pSigqueue, Pending g sqp.siSigno ∨ posting sqp.siSigno
  nodup : (g.pSigqueue.map Siginfo.siSigno).Nodup

def Consistent (g : Sigs) : Prop := Orderly (fun _ => False) g

variable {sqp : Siginfo}

theorem Consistent.queued (h : Consistent g) (hsqp : sqp ∈ g.pSigqueue) : Pending g sqp.siSigno :=
  (Orderly.queued h sqp hsqp).resolve_right id

theorem Consistent.orderly (h : Consistent g) (posting : Int → Prop) : Orderly posting g :=
  ⟨h.apart, h.valid, fun _ hsqp => .inl (h.queued hsqp), h.nodup⟩

variable {posting : Int → Prop}

/-- Fewer siginfos are as good, if those for signals that are no longer pending are gone. -/
theorem Orderly.shrink (h : Orderly posting g) {g' : Sigs} (hsub : g'.pSigqueue.Sublist g.pSigqueue)
    (hpending : ∀ sig, Valid sig → Pending g' sig → Pending g sig)
    (hqueued : ∀ sqp ∈ g'.pSigqueue, Pending g sqp.siSigno → Pending g' sqp.siSigno) :
    Orderly posting g' where
  apart sig hstop hboth :=
    h.apart sig hstop ⟨hpending _ valid_cont hboth.1, hpending _ hstop.valid hboth.2⟩
  valid sqp hsqp := h.valid sqp (hsub.subset hsqp)
  queued sqp hsqp := (h.queued sqp (hsub.subset hsqp)).imp_left (hqueued sqp hsqp)
  nodup := h.nodup.sublist (hsub.map _)

theorem fsig_cases (g : Sigs) (pFlag : BitVec 32) :
    fsig g pFlag = 0 ∨ Valid (fsig g pFlag) ∧ Pending g (fsig g pFlag) := by
  have hmember : ∀ n, sigismember (if pFlag &&& sVFORK ≠ 0 then
      sigdiffset (sigdiffset g.pSig g.pHold) holdvfork else sigdiffset g.pSig g.pHold) n = true →
      Pending g n := by
    intro n hn
    split_ifs at hn
    · exact member_of_diff (member_of_diff hn)
    · exact member_of_diff hn
  unfold fsig
  dsimp only
  generalize (if pFlag &&& sVFORK ≠ 0 then sigdiffset (sigdiffset g.pSig g.pHold) holdvfork
    else sigdiffset g.pSig g.pHold) = temp at hmember
  split_ifs with htemp hkill
  · exact .inr ⟨by decide, hmember _ hkill⟩
  · cases hfind : ((range 31).map fun i : Nat => (i : Int) + 1).find? fun i =>
      sigismember temp i with
    | none => exact .inl rfl
    | some i =>
      obtain ⟨j, hj, rfl⟩ := mem_map.mp (mem_of_find?_eq_some hfind)
      have hlt := mem_range.mp hj
      refine .inr ⟨?_, hmember _ (find?_some hfind)⟩
      rw [Option.getD_some, Valid, NSIG]
      omega
  · exact .inl rfl

/-! ### `sigdelq` and `sigdeq` -/

theorem mem_sigdelq :
    sqp ∈ (sigdelq g sig).pSigqueue ↔ sqp ∈ g.pSigqueue ∧ sig ≠ 0 ∧ sqp.siSigno ≠ sig := by
  unfold sigdelq
  rw [mem_filter, decide_eq_true_eq, not_or]

theorem sigdelq_sublist (g : Sigs) (sig : Int) : (sigdelq g sig).pSigqueue.Sublist g.pSigqueue :=
  filter_sublist

theorem Consistent.sigdelq (h : Consistent g) (sig : Int) : Consistent (sigdelq g sig) :=
  Orderly.shrink h (sigdelq_sublist g sig) (fun _ _ hp => hp) fun _ _ hp => hp

theorem Consistent.drop (h : Consistent g) (hsig : Valid sig) {pCursig : Int} :
    Consistent (Sig.sigdelq { g with pSig := sigdelset g.pSig sig, pCursig := pCursig } sig) := by
  refine Orderly.shrink h filter_sublist (fun other hvalid hp => ?_) fun sqp hsqp hp => ?_
  · exact ((sigismember_del hvalid hsig).mp hp).1
  · obtain ⟨hmem, -, hne⟩ := mem_sigdelq.mp hsqp
    exact (sigismember_del (h.valid sqp hmem) hsig).mpr ⟨hp, hne⟩

theorem split_queue (queue : List Siginfo) (sig : Int) {rest : List Siginfo}
    (h : queue.dropWhile (fun sqp => sqp.siSigno ≠ sig) = sqp :: rest) :
    sqp.siSigno = sig ∧ queue = queue.takeWhile (fun sqp => sqp.siSigno ≠ sig) ++ sqp :: rest := by
  constructor
  · by_contra hne
    have hhead := head?_dropWhile_not (fun sqp => sqp.siSigno ≠ sig) queue
    rw [h] at hhead
    simp [hne] at hhead
  · rw [← h]
    exact takeWhile_append_dropWhile.symm

theorem no_other {queue : List Siginfo} (hnodup : (queue.map Siginfo.siSigno).Nodup)
    {front rest : List Siginfo} (hqueue : queue = front ++ sqp :: rest) :
    ∀ x ∈ front ++ rest, x.siSigno ≠ sqp.siSigno := by
  intro x hx heq
  rw [hqueue, map_append, map_cons, nodup_middle, nodup_cons, ← map_append] at hnodup
  exact hnodup.1 (mem_map.mpr ⟨x, hx, heq⟩)

theorem sigdeq_spec (hnodup : (g.pSigqueue.map Siginfo.siSigno).Nodup) (sig : Int) :
    (sigdeq g sig).2.pSig = g.pSig ∧ (sigdeq g sig).2.pCursig = g.pCursig ∧
      (sigdeq g sig).2.pSigqueue.Sublist g.pSigqueue ∧
      ∀ sqp ∈ (sigdeq g sig).2.pSigqueue, sqp.siSigno ≠ sig := by
  unfold sigdeq
  cases hdrop : g.pSigqueue.dropWhile fun sqp => sqp.siSigno ≠ sig with
  | nil =>
    refine ⟨rfl, rfl, List.Sublist.refl _, fun sqp hsqp => ?_⟩
    exact of_decide_eq_true (dropWhile_eq_nil_iff.mp hdrop sqp hsqp)
  | cons sqp rest =>
    obtain ⟨hsig, hqueue⟩ := split_queue g.pSigqueue sig hdrop
    have hother := no_other hnodup hqueue
    have hnone : ¬ (rest.any fun sqp => sqp.siSigno = sig) = true := by
      intro hany
      obtain ⟨x, hx, hxsig⟩ := any_eq_true.mp hany
      exact hother x (mem_append_right _ hx) ((of_decide_eq_true hxsig).trans hsig.symm)
    refine ⟨if_neg hnone, rfl, ?_, fun x hx => ?_⟩
    · have hsub := List.Sublist.append_left (sublist_cons_self sqp rest)
        (g.pSigqueue.takeWhile fun sqp => sqp.siSigno ≠ sig)
      rwa [← hqueue] at hsub
    · rw [← hsig]
      exact hother x hx

theorem Consistent.sigdeq (h : Consistent g) (sig : Int) : Consistent (sigdeq g sig).2 := by
  obtain ⟨hsig, -, hsub, -⟩ := sigdeq_spec h.nodup sig
  have hsame : ∀ other, Pending (Sig.sigdeq g sig).2 other ↔ Pending g other := fun other => by
    rw [Pending, hsig, Pending]
  exact Orderly.shrink h hsub (fun other _ hp => (hsame other).mp hp) fun sqp _ hp =>
    (hsame _).mpr hp

theorem Consistent.promote (h : Consistent g) (hsig : Valid sig) :
    Consistent (Sig.sigdeq { g with pSig := sigdelset g.pSig sig, pCursig := sig } sig).2 := by
  obtain ⟨hpsig, -, hsub, hother⟩ :=
    sigdeq_spec (g := { g with pSig := sigdelset g.pSig sig, pCursig := sig }) h.nodup sig
  refine Orderly.shrink h hsub (fun other hvalid hp => ?_) fun sqp hsqp hp => ?_
  · rw [Pending, hpsig] at hp
    exact ((sigismember_del hvalid hsig).mp hp).1
  · rw [Pending, hpsig]
    exact (sigismember_del (h.valid sqp (hsub.subset hsqp)) hsig).mpr ⟨hp, hother sqp hsqp⟩

/-! ### Posting -/

theorem pSig_delqPending (g : Sigs) (n : Int) : (delqPending g n).pSig = g.pSig := by
  unfold delqPending
  split_ifs
  · rfl
  · rfl

theorem mem_delqPending (hn : n ≠ 0) :
    sqp ∈ (delqPending g n).pSigqueue ↔ sqp ∈ g.pSigqueue ∧ ¬ (sqp.siSigno = n ∧ Pending g n) := by
  have hsets : g.pSig &&& sigmask n ≠ 0 ↔ Pending g n := by
    rw [Pending, sigismember, decide_eq_true_eq, BitVec.and_comm]
  unfold delqPending
  split_ifs with h
  · rw [mem_sigdelq]
    refine and_congr_right fun _ => ⟨fun hne hno => hne.2 hno.1, fun hno => ⟨hn, fun heq => ?_⟩⟩
    exact hno ⟨heq, hsets.mp h⟩
  · exact ⟨fun hmem => ⟨hmem, fun hno => h (hsets.mpr hno.2)⟩, fun hmem => hmem.1⟩

theorem delqPending_sublist (g : Sigs) (n : Int) : (delqPending g n).pSigqueue.Sublist g.pSigqueue := by
  unfold delqPending
  split_ifs
  · exact sigdelq_sublist g n
  · exact List.Sublist.refl _

theorem pending_cancel (hsig : Valid sig) {other : Int} (hother : Valid other) :
    Pending (cancel g sig) other ↔ Pending g other ∧ ¬ Conflicts sig other := by
  unfold cancel Conflicts Pending
  split_ifs with hcont hstop
  · have hno : ¬ StopDefault sig := fun h => h.ne_cont hcont
    dsimp only
    rw [pSig_delqPending, pSig_delqPending, pSig_delqPending, pSig_delqPending, sigismember_diff hother]
    tauto
  · have hstop' := (sigismember_stopdefault hsig).mp hstop
    rw [sigismember_del hother valid_cont]
    tauto
  · have hstop' : ¬ StopDefault sig := fun h => hstop ((sigismember_stopdefault hsig).mpr h)
    tauto

theorem cancel_sublist (g : Sigs) (sig : Int) : (cancel g sig).pSigqueue.Sublist g.pSigqueue := by
  unfold cancel
  split_ifs
  · exact (delqPending_sublist _ _).trans ((delqPending_sublist _ _).trans
      ((delqPending_sublist _ _).trans (delqPending_sublist g _)))
  · exact sigdelq_sublist g SIGCONT
  · exact List.Sublist.refl _

theorem mem_cancel (hsig : Valid sig) (hsqp : sqp ∈ (cancel g sig).pSigqueue)
    (hp : Pending g sqp.siSigno) : ¬ Conflicts sig sqp.siSigno := by
  unfold cancel at hsqp
  unfold Conflicts
  split_ifs at hsqp with hcont hstop
  · have hno : ¬ StopDefault sig := fun h => h.ne_cont hcont
    rw [mem_delqPending (by decide), mem_delqPending (by decide), mem_delqPending (by decide),
      mem_delqPending (by decide)] at hsqp
    unfold Pending at hsqp hp
    simp only [pSig_delqPending] at hsqp
    rintro (⟨-, heq | heq | heq | heq⟩ | ⟨hstop, -⟩)
    · exact hsqp.1.1.1.2 ⟨heq, heq ▸ hp⟩
    · exact hsqp.1.1.2 ⟨heq, heq ▸ hp⟩
    · exact hsqp.2 ⟨heq, heq ▸ hp⟩
    · exact hsqp.1.2 ⟨heq, heq ▸ hp⟩
    · exact hno hstop
  · obtain ⟨-, -, hne⟩ := mem_sigdelq.mp hsqp
    exact fun h => h.elim (fun h => hcont h.1) fun h => hne h.2
  · have hstop' : ¬ StopDefault sig := fun h => hstop ((sigismember_stopdefault hsig).mpr h)
    exact fun h => h.elim (fun h => hcont h.1) fun h => hstop' h.1

theorem Orderly.cancel (h : Orderly posting g) (hsig : Valid sig) : Orderly posting (cancel g sig) := by
  have hsub := cancel_sublist g sig
  refine h.shrink hsub (fun other hvalid hp => ((pending_cancel hsig hvalid).mp hp).1)
    fun sqp hsqp hp => ?_
  exact (pending_cancel hsig (h.valid sqp (hsub.subset hsqp))).mpr ⟨hp, mem_cancel hsig hsqp hp⟩

theorem Orderly.post (h : Orderly (· = sig) g) (hsig : Valid sig)
    (hcancelled : ∀ other, Valid other → Pending g other → ¬ Conflicts sig other) :
    Consistent { g with pSig := sigaddset g.pSig sig } where
  apart other hstop hboth := by
    have hcont := (sigismember_add valid_cont hsig).mp hboth.1
    have hother := (sigismember_add hstop.valid hsig).mp hboth.2
    rcases hcont with hcont | rfl
    · rcases hother with hother | rfl
      · exact h.apart other hstop ⟨hcont, hother⟩
      · exact hcancelled _ valid_cont hcont (.inr ⟨hstop, rfl⟩)
    · rcases hother with hother | heq
      · exact hcancelled _ hstop.valid hother (.inl ⟨rfl, hstop⟩)
      · exact hstop.ne_cont heq
  valid := h.valid
  queued sqp hsqp := by
    refine .inl ((sigismember_add (h.valid sqp hsqp) hsig).mpr ?_)
    exact h.queued sqp hsqp
  nodup := h.nodup

theorem Consistent.queue (h : Consistent g) {info : Siginfo} (hvalid : Valid info.siSigno)
    (hnone : ¬ g.pSigqueue.any fun sqp => sqp.siSigno = info.siSigno) :
    Orderly (· = info.siSigno) { g with pSigqueue := g.pSigqueue ++ [info] } where
  apart := h.apart
  valid sqp hsqp := by
    rcases mem_append.mp hsqp with hold | hnew
    · exact h.valid sqp hold
    · rw [mem_singleton.mp hnew]
      exact hvalid
  queued sqp hsqp := by
    rcases mem_append.mp hsqp with hold | hnew
    · exact .inl (h.queued hold)
    · exact .inr (by rw [mem_singleton.mp hnew])
  nodup := by
    rw [map_append, nodup_append_comm, map_singleton, singleton_append, nodup_cons]
    refine ⟨fun hmem => hnone ?_, h.nodup⟩
    obtain ⟨sqp, hsqp, heq⟩ := mem_map.mp hmem
    exact any_eq_true.mpr ⟨sqp, hsqp, decide_eq_true heq⟩

end Svr42.Sig

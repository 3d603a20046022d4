import Mathlib.Data.List.Perm.Subperm
import Svr42.MsgHeaders
import Svr42.MsgSelect

/-! What each call does to the queues as lists of types and texts. -/

namespace Svr42.Msg
open Function List Option

variable {info : Msginfo} {s s' : State} {p q i j mp h cap size a : Nat} {run : Option Nat}
  {own : Nat → Owner} {seg : Nat → Set Nat} {cells : Nat → List Nat} {free : List Nat} {c : Snd}

/-! ### Senders -/

/-- A header of another owner stays so when one changes hands that neither was nor is his. -/
theorem owner_congr {o dst : Owner} (hown : own mp ≠ o) (hdst : dst ≠ o) (h : Nat) :
    update own mp dst h = o ↔ own h = o := by
  by_cases hh : h = mp
  · rw [hh, update_self]
    exact ⟨fun heq => absurd heq hdst, fun heq => absurd heq hown⟩
  · rw [update_of_ne hh]

/-- The text of the running call has been copied in, or cannot be. -/
theorem Rep.begin (hr : Rep info cap none s own seg cells free) {spot : Nat}
    (hproc : s.proc p = .copying c mp spot) :
    Rep info cap (some p) s (update own mp .busy) seg cells free := by
  obtain ⟨hmp, hown, -⟩ := hr.sending p c mp spot (by simp) hproc
  refine ⟨hr.freeList, hr.queue, fun h => ?_, fun i h => ?_, fun q c' h spot' hq hproc' => ?_,
    fun h q hq => ?_, fun q q' c' c'' h h' spot' spot'' _ _ hproc' hproc'' =>
      hr.sole q q' c' c'' h h' spot' spot'' (by simp) (by simp) hproc' hproc'', hr.map,
    fun h hh => ?_, fun h i hh => ?_⟩
  · rw [owner_congr (by simp [hown]) (by simp)]
    exact hr.memFree h
  · rw [owner_congr (by simp [hown]) (by simp)]
    exact hr.memQueue i h
  · obtain ⟨hlt, hown', hrest⟩ := hr.sending q c' h spot' (by simp) hproc'
    have hh : h ≠ mp := by
      intro heq
      rw [heq, hown, Owner.sending.injEq] at hown'
      exact hq (congrArg some hown'.symm)
    rw [update_of_ne hh]
    exact ⟨hlt, hown', hrest⟩
  · by_cases hh : h = mp
    · rw [hh, update_self] at hq
      cases hq
    rw [update_of_ne hh] at hq
    obtain ⟨-, c', spot', hproc'⟩ := hr.sender h q hq
    refine ⟨?_, c', spot', hproc'⟩
    intro heq
    rw [some.inj heq, hproc, Proc.copying.injEq] at hproc'
    exact hh hproc'.2.1.symm
  · rw [owner_congr (by simp [hown]) (by simp)] at hh
    exact hr.segFree h hh
  · rw [owner_congr (by simp [hown]) (by simp)] at hh
    exact hr.segQueue h i hh

/-- The running call unlocks its queue and ends. -/
theorem Rep.finish (hr : Rep info cap (some p) s own seg cells free)
    (hsole : ∀ q c h spot, q ≠ p → s.proc q = .copying c h spot → slot info c.msqid ≠ i) :
    Rep info cap none ((s.setLock i false).setProc p .user) own seg cells free := by
  have hother : ∀ q c h spot, ((s.setLock i false).setProc p .user).proc q = .copying c h spot →
      q ≠ p ∧ s.proc q = .copying c h spot := by
    intro q c h spot hproc
    by_cases hq : q = p
    · rw [hq, setProc_self] at hproc
      cases hproc
    · rw [setProc_of_ne _ hq] at hproc
      exact ⟨hq, hproc⟩
  refine ⟨hr.freeList, fun i => ⟨(hr.queue i).linked, (hr.queue i).last, (hr.queue i).qnum,
    (hr.queue i).dead⟩, hr.memFree, hr.memQueue, fun q c h spot _ hproc => ?_, fun h q hown => ?_,
    fun q q' c c' h h' spot spot' _ _ hproc hproc' => ?_, hr.map, hr.segFree, hr.segQueue⟩
  · obtain ⟨hq, hproc⟩ := hother q c h spot hproc
    obtain ⟨hlt, hown, hcnt, hseg, hend, hlock, hconv⟩ :=
      hr.sending q c h spot (fun heq => hq (some.inj heq)) hproc
    refine ⟨hlt, hown, hcnt, hseg, hend, ?_, hconv⟩
    change update s.msglock i false (slot info c.msqid) = true
    rw [update_of_ne (hsole q c h spot hq hproc)]
    exact hlock
  · obtain ⟨hq, c, spot, hproc⟩ := hr.sender h q hown
    refine ⟨by simp, c, spot, ?_⟩
    rw [setProc_of_ne _ fun heq => hq (congrArg some heq)]
    exact hproc
  · obtain ⟨hq, hproc⟩ := hother q c h spot hproc
    obtain ⟨hq', hproc'⟩ := hother q' c' h' spot' hproc'
    exact hr.sole q q' c c' h h' spot spot' (fun heq => hq (some.inj heq))
      (fun heq => hq' (some.inj heq)) hproc hproc'

/-- The running call has all it needs and starts to copy in its text. -/
theorem Rep.send (hr : Rep info cap none s own seg cells free) {spot : Nat} (hmp : mp < info.msgtql)
    (hown : own mp = .busy) (hp : ∀ c h spot, s.proc p ≠ .copying c h spot) (hcnt : 0 < c.cnt)
    (hseg : seg mp = Msg.space info c.cnt spot) (hend : spot + 1 + btoq info c.cnt ≤ Resmap.ulong)
    (hlock : s.msglock (slot info c.msqid) = false)
    (hconv : msgconv info s c.msqid = some (slot info c.msqid)) :
    Rep info cap none ((s.setLock (slot info c.msqid) true).setProc p (.copying c mp spot))
      (update own mp (.sending p)) seg cells free := by
  have hslot : ∀ q c' h spot', s.proc q = .copying c' h spot' →
      slot info c'.msqid ≠ slot info c.msqid := by
    intro q c' h spot' hproc heq
    obtain ⟨-, -, -, -, -, hlocked, -⟩ := hr.sending q c' h spot' (by simp) hproc
    rw [heq, hlock] at hlocked
    cases hlocked
  refine ⟨hr.freeList, fun i => ⟨(hr.queue i).linked, (hr.queue i).last, (hr.queue i).qnum,
    (hr.queue i).dead⟩, fun h => ?_, fun i h => ?_, fun q c' h spot' _ hproc => ?_,
    fun h q hq => ?_, fun q q' c' c'' h h' spot' spot'' _ _ hproc hproc' heq => ?_, hr.map,
    fun h hh => ?_, fun h i hh => ?_⟩
  · rw [owner_congr (by simp [hown]) (by simp)]
    exact hr.memFree h
  · rw [owner_congr (by simp [hown]) (by simp)]
    exact hr.memQueue i h
  · by_cases hq : q = p
    · rw [hq, setProc_self, Proc.copying.injEq] at hproc
      obtain ⟨hc, hh, hspot⟩ := hproc
      rw [hq, ← hc, ← hh, ← hspot, update_self]
      exact ⟨hmp, rfl, hcnt, hseg, hend, update_self _ _ _, hconv⟩
    rw [setProc_of_ne _ hq] at hproc
    obtain ⟨hlt, hown', hcnt', hseg', hend', hlock', hconv'⟩ := hr.sending q c' h spot' (by simp) hproc
    have hh : h ≠ mp := by
      intro heq
      rw [heq, hown] at hown'
      cases hown'
    rw [update_of_ne hh]
    refine ⟨hlt, hown', hcnt', hseg', hend', ?_, hconv'⟩
    change update s.msglock (slot info c.msqid) true (slot info c'.msqid) = true
    rw [update_of_ne (hslot q c' h spot' hproc)]
    exact hlock'
  · by_cases hh : h = mp
    · rw [hh, update_self, Owner.sending.injEq] at hq
      rw [← hq, hh]
      exact ⟨by simp, c, spot, setProc_self _⟩
    rw [update_of_ne hh] at hq
    obtain ⟨-, c', spot', hproc⟩ := hr.sender h q hq
    refine ⟨by simp, c', spot', ?_⟩
    rw [setProc_of_ne]
    · exact hproc
    · intro heq
      rw [heq] at hproc
      exact hp c' h spot' hproc
  · by_cases hq : q = p
    · by_cases hq' : q' = p
      · exact hq.trans hq'.symm
      rw [hq, setProc_self, Proc.copying.injEq] at hproc
      rw [setProc_of_ne _ hq'] at hproc'
      rw [← hproc.1] at heq
      exact absurd heq.symm (hslot q' c'' h' spot'' hproc')
    · rw [setProc_of_ne _ hq] at hproc
      by_cases hq' : q' = p
      · rw [hq', setProc_self, Proc.copying.injEq] at hproc'
        rw [← hproc'.1] at heq
        exact absurd heq (hslot q c' h spot' hproc)
      · rw [setProc_of_ne _ hq'] at hproc'
        exact hr.sole q q' c' c'' h h' spot' spot'' (by simp) (by simp) hproc hproc' heq
  · rw [owner_congr (by simp [hown]) (by simp)] at hh
    exact hr.segFree h hh
  · rw [owner_congr (by simp [hown]) (by simp)] at hh
    exact hr.segQueue h i hh

/-! ### The queues as lists -/

def State.list (info : Msginfo) (s : State) (i : Nat) : List (Int × List UInt8) :=
  (chain s.next info.msgtql (s.msgque i).msgFirst).map (s.msg info)

def Counted (s : State) (cells : Nat → List Nat) : Prop :=
  ∀ i, (s.msgque i).msgCbytes = load s (cells i)

theorem Rep.length_le (hr : Rep info cap run s own seg cells free) (i : Nat) :
    (cells i).length ≤ info.msgtql := by
  have hsub : cells i ⊆ List.range info.msgtql := fun h hh =>
    mem_range.mpr ((hr.memQueue i h).mp hh).1
  have hle := ((hr.queue i).linked.nodup.subperm hsub).length_le
  rw [length_range] at hle
  exact hle

theorem Rep.list_eq (hr : Rep info cap run s own seg cells free) (i : Nat) :
    s.list info i = (cells i).map (s.msg info) := by
  unfold State.list
  rw [(hr.queue i).linked.chain_eq (hr.length_le i)]

theorem SameData.list (h : SameData s s') : s'.list info = s.list info := by
  funext i
  unfold State.list
  rw [h.next, (plain_fields (h.que i)).2.2.1]
  exact map_congr_left fun x _ => h.msg x

theorem SameData.counted (h : SameData s s') (hcount : Counted s cells) : Counted s' cells := by
  intro i
  rw [(plain_fields (h.que i)).2.2.2.2.1, h.load]
  exact hcount i

theorem Counted.congr (hcount : Counted s cells) (hque : s'.msgque = s.msgque)
    (hmsgh : s'.msgh = s.msgh) : Counted s' cells := by
  intro i
  rw [hque, load_of_msgh hmsgh]
  exact hcount i

theorem load_append (s : State) (xs ys : List Nat) : load s (xs ++ ys) = load s xs + load s ys := by
  induction xs with
  | nil => simp [load]
  | cons x xs ih =>
    rw [cons_append, load, load, ih]
    omega

theorem Apart.list {xs : List Nat} (h : Apart mp s s') (hmp : mp ∉ xs) :
    xs.map (s'.msg info) = xs.map (s.msg info) :=
  map_congr_left fun _ hx => h.msg (ne_of_mem_of_not_mem hx hmp)

/-- The running call puts its message on a queue and wakes whoever waits for one. -/
theorem Rep.enqueue (hr : Rep info cap run s own seg cells free) (hcount : Counted s cells)
    (hmp : mp < info.msgtql) (hown : own mp = .busy) (halloc : (s.msgque i).alloc = true) (type : Int)
    (cnt spot : Nat) (hseg : seg mp = Msg.space info cnt spot)
    (hend : cnt ≠ 0 → spot + 1 + btoq info cnt ≤ Resmap.ulong) :
    ∃ cells', Rep info cap run (enqueue i mp type cnt spot s) (update own mp (.queue i)) seg
        cells' free ∧ Counted (enqueue i mp type cnt spot s) cells' ∧
      (enqueue i mp type cnt spot s).list info = update (s.list info) i
        (s.list info i ++ [(type, read (info.msgssz * spot) s.pool cnt)]) := by
  have hsame := enqueue_same i mp type cnt spot s
  have hrel := append_relinked i mp s (m := queued type cnt spot) rfl
  have hcells : ∀ j, mp ∉ cells j := fun j => by
    rw [hr.memQueue, hown]
    simp
  have hmsgh : (Msg.append i mp (queued type cnt spot) s).msgh mp = queued type cnt spot := by
    refine append_msgh fun heq => hcells i ?_
    exact mem_of_getLast? ((hr.queue i).last.symm.trans heq)
  have hspace : seg mp = Msg.space info (queued type cnt spot).msgTs (queued type cnt spot).msgSpot ∧
      ((queued type cnt spot).msgTs ≠ 0 → (queued type cnt spot).msgSpot + 1 +
        btoq info (queued type cnt spot).msgTs ≤ Resmap.ulong) := by
    unfold queued
    by_cases hzero : cnt = 0
    · rw [hseg, hzero]
      exact ⟨rfl, fun hne => absurd rfl hne⟩
    · rw [if_neg hzero]
      exact ⟨hseg, hend⟩
  have hmsg : (Msg.append i mp (queued type cnt spot) s).msg info mp =
      (type, read (info.msgssz * spot) s.pool cnt) := by
    unfold State.msg
    rw [hmsgh, hrel.apart.pool]
    unfold queued
    by_cases hzero : cnt = 0
    · rw [hzero]
      rfl
    · rw [if_neg hzero]
  have hr' := hr.append hmp hown halloc rfl hspace.1 hspace.2
  refine ⟨_, hr'.same hsame, hsame.counted fun j => ?_, ?_⟩
  · by_cases hj : j = i
    · rw [hj, update_self, (plain_fields hrel.here).2.2.2.2.1, load_append,
        hrel.apart.load (hcells i), load, hmsgh]
      change (s.msgque i).msgCbytes + cnt = load s (cells i) + (cnt + 0)
      rw [hcount i]
      omega
    · rw [update_of_ne hj, (plain_fields (hrel.other j hj)).2.2.2.2.1, hrel.apart.load (hcells j)]
      exact hcount j
  · rw [hsame.list]
    funext j
    rw [hr'.list_eq]
    by_cases hj : j = i
    · rw [hj, update_self, update_self, map_append, hrel.apart.list (hcells i),
        hr.list_eq, map_singleton, hmsg]
    · rw [update_of_ne hj, update_of_ne hj, hrel.apart.list (hcells j), hr.list_eq]

theorem enqueue_copying (i mp : Nat) (type : Int) (cnt spot : Nat) (s : State) (q : Nat) (c : Snd)
    (h spot' : Nat) : (enqueue i mp type cnt spot s).proc q = .copying c h spot' ↔
      s.proc q = .copying c h spot' :=
  ((enqueue_same i mp type cnt spot s).copying q c h spot').trans
    ((append_relinked i mp s (m := queued type cnt spot) rfl).apart.copying q c h spot')

theorem QueueRep.setQue {xs : List Nat} (hq : QueueRep s i xs) (qp : MsqidDs)
    (hfirst : qp.msgFirst = (s.msgque i).msgFirst) (hlast : qp.msgLast = (s.msgque i).msgLast)
    (hqnum : qp.msgQnum = (s.msgque i).msgQnum) (hdead : qp.alloc = false → xs = []) :
    QueueRep (s.setQue i qp) i xs := by
  refine ⟨?_, ?_, ?_, ?_⟩ <;> rw [setQue_self]
  · rw [hfirst]
    exact hq.linked
  · rw [hlast]
    exact hq.last
  · rw [hqnum]
    exact hq.qnum
  · exact hdead

/-- A queue changes in nothing that has to do with its list, and keeps its id unless nobody is
sending to it. -/
theorem Rep.setQue (hr : Rep info cap run s own seg cells free) {qp : MsqidDs}
    (hq : QueueRep (s.setQue i qp) i (cells i))
    (hconv : (qp.alloc = (s.msgque i).alloc ∧ qp.seq = (s.msgque i).seq) ∨
      ∀ q c h spot, some q ≠ run → s.proc q = .copying c h spot → slot info c.msqid ≠ i) :
    Rep info cap run (s.setQue i qp) own seg cells free := by
  refine ⟨hr.freeList, fun j => ?_, hr.memFree, hr.memQueue, fun q c h spot hq hproc => ?_, hr.sender,
    hr.sole, hr.map, hr.segFree, hr.segQueue⟩
  · by_cases hj : j = i
    · rw [hj]
      exact hq
    refine ⟨?_, ?_, ?_, ?_⟩
    · rw [setQue_of_ne _ hj]
      exact (hr.queue j).linked
    · rw [setQue_of_ne _ hj]
      exact (hr.queue j).last
    · rw [setQue_of_ne _ hj]
      exact (hr.queue j).qnum
    · rw [setQue_of_ne _ hj]
      exact (hr.queue j).dead
  · obtain ⟨hlt, hown, hcnt, hseg, hend, hlock, hid⟩ := hr.sending q c h spot hq hproc
    refine ⟨hlt, hown, hcnt, hseg, hend, hlock, ?_⟩
    rcases hconv with ⟨halloc, hseq⟩ | hnone
    · rw [msgconv_congr s _ _ fun j => ?_]
      · exact hid
      · by_cases hj : j = i
        · rw [hj, setQue_self]
          exact ⟨halloc, hseq⟩
        · rw [setQue_of_ne _ hj]
          exact ⟨rfl, rfl⟩
    · have hne := hnone q c h spot hq hproc
      unfold slot at hne
      unfold msgconv at hid ⊢
      rw [setQue_of_ne _ hne]
      exact hid

/-! ### Messages taken off -/

theorem load_congr (h : ∀ x, Apart x s s') (xs : List Nat) : load s' xs = load s xs := by
  induction xs with
  | nil => rfl
  | cons x xs ih => rw [load, load, ih, ((h (x + 1)).msgh x (by omega)).2.1]

theorem msg_congr (h : ∀ x, Apart x s s') (x : Nat) : s'.msg info x = s.msg info x :=
  (h (x + 1)).msg (by omega)

theorem Rep.drop (hr : Rep info cap run s own seg cells free) (hcap : cap < Resmap.ulong)
    (front back : List Nat) (hcells : cells i = front ++ mp :: back)
    (hcount : ∀ j, j ≠ i → (s.msgque j).msgCbytes = load s (cells j)) :
    ∃ s', Msg.msgfree info i front.getLast? mp s = some s' ∧
      Rep info cap run s' (update own mp .free) (update seg mp ∅)
        (update cells i (front ++ back)) (mp :: free) ∧
      (∀ j, j ≠ i → (s'.msgque j).msgCbytes = load s' (cells j)) ∧
      (s'.msgque i).msgCbytes = (s.msgque i).msgCbytes ∧ (∀ h, Apart h s s') ∧
      s'.list info = update (s.list info) i ((front ++ back).map (s.msg info)) := by
  obtain ⟨s', hs', hdrop, hr'⟩ := hr.msgfree hcap hcells
  refine ⟨s', hs', hr', fun j hj => ?_, (plain_fields hdrop.here).2.2.2.2.1, hdrop.apart, ?_⟩
  · rw [(plain_fields (hdrop.other j hj)).2.2.2.2.1, load_congr hdrop.apart]
    exact hcount j hj
  · funext j
    rw [hr'.list_eq, map_congr_left fun x _ => msg_congr hdrop.apart x]
    by_cases hj : j = i
    · rw [hj, update_self, update_self]
    · rw [update_of_ne hj, update_of_ne hj, hr.list_eq]

theorem freeAll_nil (hr : Rep info cap run s own seg cells free) (hnil : cells i = []) (fuel : Nat) :
    freeAll info i (fuel + 1) s = some s ∧ update cells i [] = cells ∧
      s.list info = update (s.list info) i [] := by
  have hfirst := (hr.queue i).linked
  have hlist := hr.list_eq i
  rw [hnil] at hfirst hlist
  refine ⟨?_, ?_, ?_⟩
  · rw [freeAll, show (s.msgque i).msgFirst = none from hfirst]
  · rw [← hnil, update_eq_self]
  · rw [show ([] : List (Int × List UInt8)) = s.list info i from hlist.symm, update_eq_self]

/-- All messages of a queue are freed. -/
theorem freeAll_ok (fuel : Nat) (hr : Rep info cap run s own seg cells free) (hcap : cap < Resmap.ulong)
    (hfuel : (cells i).length < fuel + 1) (hidle : ∀ h, own h ≠ .busy)
    (hcount : ∀ j, j ≠ i → (s.msgque j).msgCbytes = load s (cells j)) :
    ∃ s' own' seg' free', freeAll info i (fuel + 1) s = some s' ∧
      Rep info cap run s' own' seg' (update cells i []) free' ∧ (∀ h, own' h ≠ .busy) ∧
      (∀ j, j ≠ i → (s'.msgque j).msgCbytes = load s' (cells j)) ∧ (∀ h, Apart h s s') ∧
      s'.list info = update (s.list info) i [] := by
  induction fuel generalizing s own seg cells free with
  | zero =>
    obtain ⟨hall, hcells, hlist⟩ := freeAll_nil hr (eq_nil_of_length_eq_zero (show (cells i).length = 0 by omega)) 0
    rw [hcells]
    exact ⟨s, own, seg, free, hall, hr, hidle, hcount, fun _ => SameData.refl.apart, hlist⟩
  | succ fuel ih =>
    cases hfirst : cells i with
    | nil =>
      obtain ⟨hall, hcells, hlist⟩ := freeAll_nil hr hfirst (fuel + 1)
      rw [hcells]
      exact ⟨s, own, seg, free, hall, hr, hidle, hcount, fun _ => SameData.refl.apart, hlist⟩
    | cons mp back =>
      have hlinked := (hr.queue i).linked
      rw [hfirst] at hlinked hfuel
      obtain ⟨s₁, hs₁, hr₁, hcount₁, -, hapart₁, hlist₁⟩ := hr.drop hcap [] back hfirst hcount
      have hother : ∀ j, j ≠ i → update cells i ([] ++ back) j = cells j := fun j hj =>
        update_of_ne hj _ _
      obtain ⟨s', own', seg', free', hs', hr', hidle', hcount', hapart', hlist'⟩ := ih hr₁
        (by rw [update_self]; simpa using hfuel)
        (fun h => by
          by_cases hh : h = mp
          · rw [hh, update_self]
            simp
          · rw [update_of_ne hh]
            exact hidle h)
        (fun j hj => by rw [hother j hj]; exact hcount₁ j hj)
      refine ⟨s', own', seg', free', ?_, ?_, hidle', fun j hj => ?_,
        fun h => (hapart₁ h).trans (hapart' h), ?_⟩
      · rw [freeAll, hlinked.1]
        change (msgfree info i none mp s).bind _ = _
        rw [show msgfree info i none mp s = some s₁ from hs₁]
        exact hs'
      · rw [update_idem] at hr'
        exact hr'
      · have hj' := hcount' j hj
        rw [hother j hj] at hj'
        exact hj'
      · rw [hlist', hlist₁, update_idem]

end Svr42.Msg

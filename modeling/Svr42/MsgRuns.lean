import Svr42.MsgCalls

/-! Runs of the message calls, read as runs of a system whose queues are lists. -/

namespace Svr42.Msg
open Function List

variable {info : Msginfo} {s s' : State} {p q i j mp h cap size a : Nat} {run : Option Nat}
  {own : Nat → Owner} {seg : Nat → Set Nat} {cells : Nat → List Nat} {free : List Nat} {c : Snd}

/-- Headers, space and byte counts are in order, and no header is with a call that runs. -/
structure Books (info : Msginfo) (cap : Nat) (s : State) (own : Nat → Owner) (seg : Nat → Set Nat)
    (cells : Nat → List Nat) (free : List Nat) : Prop where
  rep : Rep info cap none s own seg cells free
  counted : Counted s cells
  idle : ∀ h, own h ≠ .busy

def Sound (info : Msginfo) (cap : Nat) (s : State) : Prop :=
  ∃ own seg cells free, Books info cap s own seg cells free

theorem Sound.same (hs : Sound info cap s) (h : SameData s s') : Sound info cap s' := by
  obtain ⟨own, seg, cells, free, hb⟩ := hs
  exact ⟨own, seg, cells, free, hb.rep.same h, h.counted hb.counted, hb.idle⟩

theorem msgconv_slot {id : Int} (hconv : msgconv info s id = some i) :
    i = slot info id ∧ 0 ≤ id ∧ (s.msgque i).alloc = true := by
  unfold msgconv at hconv
  dsimp only at hconv
  split at hconv
  · cases hconv
  · split at hconv
    · cases hconv
    · rename_i hneg hor
      have hi := Option.some.inj hconv
      rw [← hi]
      refine ⟨rfl, by omega, ?_⟩
      cases halloc : (s.msgque (id.toNat % info.msgmni)).alloc with
      | true => rfl
      | false => exact absurd (.inl halloc) hor

theorem idle_update {dst : Owner} (hidle : ∀ h, own h ≠ .busy) (hdst : dst ≠ .busy) (mp h : Nat) :
    update own mp dst h ≠ .busy := by
  by_cases hh : h = mp
  · rw [hh, update_self]
    exact hdst
  · rw [update_of_ne hh]
    exact hidle h

/-! ### `msgsnd` -/

/-- What a send has done when it returns, sleeps, or starts to copy in its text. -/
def Sent (info : Msginfo) (p : Nat) (c : Snd) (s s' : State) : Outcome → Prop
  | .ret none => c.cnt = 0 ∧ s'.list info = update (s.list info) (slot info c.msqid)
      (s.list info (slot info c.msqid) ++ [(c.type, [])])
  | .copyin => (∃ mp spot, s'.proc p = .copying c mp spot) ∧ s'.list info = s.list info
  | _ => SameData s s'

theorem putBack_same {msgmap : Resmap.RMap} (hfp : s.msgfp = some mp)
    (hslots : msgmap.slots = s.msgmap.slots) (hsize : msgmap.mapsize = s.msgmap.mapsize) :
    SameData s (msgfpFree mp { s with msgfp := s.next mp, msgmap := msgmap }) := by
  refine SameData.trans ?_ (msgfpFree_same mp _)
  refine ⟨fun _ => rfl, rfl, ?_, hfp.symm, hslots, hsize, rfl, fun _ _ _ _ => .rfl⟩
  exact update_eq_self mp s.msgh

theorem getres_ok (hs : Sound info cap s) (hcap : cap < Resmap.ulong)
    (hp : ∀ c h spot, s.proc p ≠ .copying c h spot) (hconv : msgconv info s c.msqid = some i)
    (hlock : s.msglock i = false) :
    ∃ s' r, getres info p i c s = some (s', r) ∧ Sound info cap s' ∧ Sent info p c s s' r := by
  obtain ⟨hslot, -, halloc⟩ := msgconv_slot hconv
  have hquit : ∀ e s₁, SameData s s₁ → ∃ s' r, some (s₁.setProc p .user, Outcome.ret (some e)) =
      some (s', r) ∧ Sound info cap s' ∧ Sent info p c s s' r := by
    intro e s₁ h₁
    have hsame := h₁.trans (setProc_same (p := p) (v := .user)
      (fun c h spot heq => hp c h spot ((h₁.copying p c h spot).mp heq)) (by simp))
    exact ⟨_, _, rfl, hs.same hsame, hsame⟩
  have hsleep : ∀ chan s₁, SameData s s₁ → ∃ s' r,
      some (s₁.setProc p (.asleep (.snd c) chan), Outcome.sleep chan) = some (s', r) ∧
        Sound info cap s' ∧ Sent info p c s s' r := by
    intro chan s₁ h₁
    have hsame := h₁.trans (setProc_same (p := p) (v := .asleep (.snd c) chan)
      (fun c h spot heq => hp c h spot ((h₁.copying p c h spot).mp heq)) (by simp))
    exact ⟨_, _, rfl, hs.same hsame, hsame⟩
  unfold getres
  by_cases hroom : (s.msgque i).msgQbytes < c.cnt + (s.msgque i).msgCbytes
  · rw [if_pos hroom]
    by_cases hnowait : c.nowait = true
    · rw [if_pos hnowait]
      exact hquit .eagain s .refl
    · rw [if_neg hnowait]
      exact hsleep (.queue i) _ (setQue_same rfl)
  rw [if_neg hroom]
  cases hfp : s.msgfp with
  | none =>
    by_cases hnowait : c.nowait = true
    · rw [if_pos hnowait]
      exact hquit .eagain s .refl
    · rw [if_neg hnowait]
      exact hsleep .msgfp s .refl
  | some mp =>
    obtain ⟨own, seg, cells, free, hb⟩ := hs
    obtain ⟨rest, -, hmp, -, hempty, hr₁⟩ := hb.rep.take hfp
    have hbusy : update own mp Owner.busy mp = .busy := update_self _ _ _
    dsimp only
    by_cases hcnt : c.cnt = 0
    · rw [if_pos hcnt]
      obtain ⟨cells', hr', hcount', hlist⟩ := hr₁.enqueue (i := i) (hb.counted.congr rfl rfl)
        hmp hbusy halloc c.type 0 0 hempty fun hne => absurd rfl hne
      rw [update_idem] at hr'
      have hsame := setProc_same (s := enqueue i mp c.type 0 0 { s with msgfp := s.next mp })
        (p := p) (v := .user)
        (fun c' h spot heq => hp c' h spot ((enqueue_copying i mp c.type 0 0 { s with msgfp := s.next mp } p
          c' h spot).mp heq)) (by simp)
      refine ⟨_, _, rfl, ⟨_, _, cells', rest, hr'.same hsame, hsame.counted hcount',
        idle_update hb.idle (by simp) mp⟩, hcnt, ?_⟩
      rw [hsame.list, ← hslot]
      exact hlist
    · rw [if_neg hcnt]
      obtain ⟨used, hwf⟩ := hb.rep.map.map
      obtain ⟨msgmap, spot, used', halloc', -, hgranted⟩ := Resmap.rmalloc_ok hwf hcap (btoq info c.cnt)
      rw [halloc', Option.map_some]
      by_cases hspot : spot = 0
      · rw [if_pos hspot]
        have hsame := (hgranted.none hspot).1
        by_cases hnowait : c.nowait = true
        · rw [if_pos hnowait]
          exact hquit .eagain _ (putBack_same hfp (by rw [hsame]) (by rw [hsame]))
        · rw [if_neg hnowait]
          exact hsleep .msgmap _ (putBack_same hfp (by rw [hsame]) (by rw [hsame]))
      · rw [if_neg hspot]
        obtain ⟨-, hend, hr₂⟩ := hr₁.grant hcap hmp hbusy halloc' hspot
        obtain ⟨spot, rfl⟩ : ∃ n, spot = n + 1 := ⟨spot - 1, by omega⟩
        rw [hslot] at hlock hconv ⊢
        have hspace : update seg mp (Resmap.run (spot + 1) (btoq info c.cnt)) mp =
            space info c.cnt spot := by
          rw [update_self, space, if_neg hcnt]
        have hr₃ := hr₂.send (c := c) hmp hbusy hp (by omega) hspace hend hlock hconv
        rw [update_idem] at hr₃
        exact ⟨_, _, rfl, ⟨_, _, cells, rest, hr₃, hb.counted.congr rfl rfl,
          idle_update hb.idle (by simp) mp⟩, ⟨mp, spot, setProc_self _⟩, rfl⟩

theorem Rep.write (hr : Rep info cap run s own seg cells free) (pool : Nat → UInt8) :
    Rep info cap run { s with pool := pool } own seg cells free :=
  ⟨hr.freeList, fun i => ⟨(hr.queue i).linked, (hr.queue i).last, (hr.queue i).qnum, (hr.queue i).dead⟩,
    hr.memFree, hr.memQueue, hr.sending, hr.sender, hr.sole, hr.map, hr.segFree, hr.segQueue⟩

variable {spot : Nat} {text : List UInt8}

theorem write_list (hb : Books info cap s own seg cells free) (hproc : s.proc p = .copying c mp spot)
    (hlength : text.length ≤ c.cnt) :
    State.list info { s with pool := write (info.msgssz * spot) text s.pool } = s.list info := by
  obtain ⟨-, hown, -, hseg, -⟩ := hb.rep.sending p c mp spot (by simp) hproc
  funext i
  rw [(hb.rep.write _).list_eq, hb.rep.list_eq]
  refine map_congr_left fun x hx => ?_
  have hx' := ((hb.rep.memQueue i x).mp hx).2
  have hne : x ≠ mp := by
    intro heq
    rw [heq, hown] at hx'
    cases hx'
  have hspace := hb.rep.map.apart x mp hne
  rw [(hb.rep.segQueue x i hx').1, hseg] at hspace
  unfold State.msg
  rw [read_write_apart s.pool hlength hspace]

def GaveBack (info : Msginfo) (c : Snd) (mp spot : Nat) (s s' : State) : Prop :=
  s'.msgfp = some mp ∧ s'.next mp = s.msgfp ∧ ∃ msgmap,
    Resmap.Freed s.msgmap (btoq info c.cnt) (spot + 1) msgmap ∧ s'.msgmap.slots = msgmap.slots ∧
      s'.msgmap.mapsize = msgmap.mapsize

section

variable (hr : Rep info cap (some p) s own seg cells free) (hcount : Counted s cells)
include hr hcount

/-- The running call, which has the lock of the queue `i`, ends with its message on the queue. -/
theorem Rep.post
    (hidle : ∀ h, h ≠ mp → own h ≠ .busy) (hmp : mp < info.msgtql) (hown : own mp = .busy)
    (halloc : (s.msgque i).alloc = true) (type : Int) (cnt spot : Nat)
    (hseg : seg mp = Msg.space info cnt spot) (hend : cnt ≠ 0 → spot + 1 + btoq info cnt ≤ Resmap.ulong)
    (hsole : ∀ q c h spot, q ≠ p → s.proc q = .copying c h spot → slot info c.msqid ≠ i) :
    Sound info cap (((Msg.enqueue i mp type cnt spot s).setLock i false).setProc p .user) ∧
      State.list info (((Msg.enqueue i mp type cnt spot s).setLock i false).setProc p .user) =
        update (s.list info) i (s.list info i ++ [(type, read (info.msgssz * spot) s.pool cnt)]) := by
  obtain ⟨cells', hr', hcount', hlist⟩ := hr.enqueue hcount hmp hown halloc type cnt spot hseg hend
  have hfin := hr'.finish (i := i) fun q c h spot' hq hproc =>
    hsole q c h spot' hq ((enqueue_copying i mp type cnt spot s q c h spot').mp hproc)
  refine ⟨⟨_, seg, cells', free, hfin, hcount'.congr rfl rfl, fun h => ?_⟩, hlist⟩
  by_cases hh : h = mp
  · rw [hh, update_self]
    simp
  · rw [update_of_ne hh]
    exact hidle h hh

/-- It ends without its message on the queue. -/
theorem Rep.giveBack
    (hcap : cap < Resmap.ulong) (hidle : ∀ h, h ≠ mp → own h ≠ .busy) (hmp : mp < info.msgtql)
    (hown : own mp = .busy) (hcnt : 0 < c.cnt) (hseg : seg mp = Msg.space info c.cnt spot)
    (hend : spot + 1 + btoq info c.cnt ≤ Resmap.ulong)
    (hsole : ∀ q c h spot, q ≠ p → s.proc q = .copying c h spot → slot info c.msqid ≠ i) :
    ∃ s₁, freeSpace (btoq info c.cnt) (spot + 1) s = some s₁ ∧
      Sound info cap (((msgfpFree mp s₁).setLock i false).setProc p .user) ∧
      State.list info (((msgfpFree mp s₁).setLock i false).setProc p .user) = s.list info ∧
      GaveBack info c mp spot s (((msgfpFree mp s₁).setLock i false).setProc p .user) := by
  rw [Msg.space, if_neg (by omega)] at hseg
  obtain ⟨s₁, msgmap, hs₁, -, hfreed, hsame, hr₁⟩ :=
    hr.release hcap hmp hown hseg (by omega) (btoq_pos info hcnt) hend
  have hr₂ := hr₁.put hmp hown (update_self _ _ _)
  have hput := msgfpFree_same mp s₁
  have happ : ∀ h, Apart h s (msgfpFree mp s₁) := fun h => by
    have hspace : Apart h s { s with msgmap := msgmap } :=
      ⟨fun _ => ⟨rfl, rfl⟩, rfl, rfl, fun _ _ _ _ => .rfl, fun _ _ => ⟨rfl, rfl, rfl⟩⟩
    exact (hspace.trans hsame.apart).trans (msgfpFree_apart mp h s₁)
  have hfin := hr₂.finish (i := i) fun q c h spot' hq hproc =>
    hsole q c h spot' hq (((happ h).copying q c h spot').mp hproc)
  have hcount' : Counted (msgfpFree mp s₁) cells := fun j => by
    rw [(plain_fields (hput.que j)).2.2.2.2.1, load_congr happ]
    exact (plain_fields (hsame.que j)).2.2.2.2.1.trans (hcount j)
  refine ⟨s₁, hs₁, ⟨_, _, cells, mp :: free, hfin, hcount'.congr rfl rfl, fun h => ?_⟩, ?_, ?_⟩
  · by_cases hh : h = mp
    · rw [hh, update_self]
      simp
    · rw [update_of_ne hh]
      exact hidle h hh
  · funext j
    change (msgfpFree mp s₁).list info j = _
    rw [hr₂.list_eq, hr.list_eq]
    exact map_congr_left fun x _ => msg_congr happ x
  · refine ⟨hput.msgfp, ?_, msgmap, hfreed, hput.slots.trans hsame.slots, hput.size.trans hsame.size⟩
    change (msgfpFree mp s₁).next mp = s.msgfp
    rw [hput.next]
    change (s₁.setNext mp s₁.msgfp).next mp = s.msgfp
    rw [setNext_next, update_self]
    exact hsame.msgfp

end

theorem copied_ok (hs : Sound info cap s) (hcap : cap < Resmap.ulong) {ok : Bool}
    (hproc : s.proc p = .copying c mp spot) (hlength : text.length ≤ c.cnt)
    (hall : ok = true → text.length = c.cnt) :
    ∃ s', Sound info cap s' ∧ ((ok = true ∧ copied info p c mp spot text ok s = some (s', .ret none) ∧
        s'.list info = update (s.list info) (slot info c.msqid)
          (s.list info (slot info c.msqid) ++ [(c.type, text)])) ∨
      (ok = false ∧ copied info p c mp spot text ok s = some (s', .ret (some .efault)) ∧
        s'.list info = s.list info ∧ GaveBack info c mp spot s s')) := by
  obtain ⟨own, seg, cells, free, hb⟩ := hs
  obtain ⟨hmp, hown, hcnt, hseg, hend, hlock, hconv⟩ := hb.rep.sending p c mp spot (by simp) hproc
  have halloc := (msgconv_slot hconv).2.2
  have hlist := write_list hb hproc hlength
  have hsole : ∀ q c' h spot', q ≠ p → s.proc q = .copying c' h spot' →
      slot info c'.msqid ≠ slot info c.msqid := fun q c' h spot' hq hproc' heq =>
    hq (hb.rep.sole q p c' c h mp spot' spot (by simp) (by simp) hproc' hproc heq)
  have hr := (hb.rep.begin hproc).write (write (info.msgssz * spot) text s.pool)
  have hbusy : update own mp Owner.busy mp = .busy := update_self _ _ _
  have hidle : ∀ h, h ≠ mp → update own mp Owner.busy h ≠ .busy := fun h hh => by
    rw [update_of_ne hh]
    exact hb.idle h
  unfold copied
  cases ok with
  | true =>
    obtain ⟨hsound, hlist'⟩ := hr.post (hb.counted.congr rfl rfl) hidle hmp hbusy halloc c.type c.cnt
      spot hseg (fun _ => hend) hsole
    rw [if_pos rfl]
    refine ⟨_, hsound, .inl ⟨rfl, rfl, hlist'.trans ?_⟩⟩
    rw [hlist, ← hall rfl, read_write]
  | false =>
    obtain ⟨s₁, hs₁, hsound, hlist', hback⟩ := hr.giveBack (c := c) (hb.counted.congr rfl rfl) hcap
      hidle hmp hbusy hcnt hseg hend hsole
    rw [if_neg (by simp), hs₁]
    exact ⟨_, hsound, .inr ⟨rfl, rfl, hlist'.trans hlist, hback⟩⟩

/-! ### `msgrcv` -/

/-- A receive gets `text`, with its type, from the list `q`, and leaves `q'`. -/
def Takes (c : Rcv) (q : List (Int × List UInt8)) (type : Int) (text : List UInt8)
    (q' : List (Int × List UInt8)) : Prop :=
  ∃ front whole back, q = front ++ (type, whole) :: back ∧ q' = front ++ back ∧
    Picks c.msgtyp (front.map Prod.fst) type (back.map Prod.fst) ∧ text = whole.take c.msgsz ∧
      (whole.length ≤ c.msgsz ∨ c.noerror = true)

/-- What a receive has done when it returns or sleeps. -/
def Got (info : Msginfo) (c : Rcv) (s s' : State) : Received → Prop
  | .msg type text => ∃ q', Takes c (s.list info (slot info c.msqid)) type text q' ∧
      s'.list info = update (s.list info) (slot info c.msqid) q'
  | .sleep _ => SameData s s' ∧ ∀ m ∈ s.list info (slot info c.msqid), ¬ Wanted c.msgtyp m.1
  | .error e => SameData s s' ∧ (e = .enomsg →
      ∀ m ∈ s.list info (slot info c.msqid), ¬ Wanted c.msgtyp m.1)

theorem map_fst (info : Msginfo) (s : State) (xs : List Nat) :
    (xs.map (s.msg info)).map Prod.fst = xs.map s.type := by
  rw [map_map]
  rfl

theorem read_length (base : Nat) (pool : Nat → UInt8) (n : Nat) : (read base pool n).length = n := by
  simp [read]

theorem read_take (base : Nat) (pool : Nat → UInt8) {m n : Nat} (h : m ≤ n) :
    read base pool m = (read base pool n).take m := by
  unfold read
  rw [← map_take, take_range, Nat.min_eq_left h]

/-- A message leaves its queue and its header and space are free. -/
theorem Books.receive (hb : Books info cap s own seg cells free) (hcap : cap < Resmap.ulong)
    {front back : List Nat} (hcells : cells i = front ++ mp :: back) :
    ∃ s', msgfree info i front.getLast? mp (s.setQue i { s.msgque i with
        msgCbytes := (s.msgque i).msgCbytes - (s.msgh mp).msgTs }) = some s' ∧ Sound info cap s' ∧
      (∀ h, Apart h s s') ∧
      s'.list info = update (s.list info) i ((front ++ back).map (s.msg info)) := by
  obtain ⟨qp, hqp⟩ : ∃ qp : MsqidDs, qp = { s.msgque i with
    msgCbytes := (s.msgque i).msgCbytes - (s.msgh mp).msgTs } := ⟨_, rfl⟩
  have hq := hb.rep.queue i
  have hapart : ∀ h, Apart h s (s.setQue i qp) := fun h =>
    setQue_apart (by rw [hqp]) (by rw [hqp])
  have hr := hb.rep.setQue (hq.setQue qp (by rw [hqp]) (by rw [hqp]) (by rw [hqp])
    (by rw [hqp]; exact hq.dead)) (.inl ⟨by rw [hqp], by rw [hqp]⟩)
  have hlist : State.list info (s.setQue i qp) = s.list info := by
    funext j
    rw [hr.list_eq, hb.rep.list_eq]
    rfl
  rw [← hqp]
  obtain ⟨s', hs', hr', hcount', hsame, hapart', hlist'⟩ := hr.drop hcap front back hcells fun j hj => by
      rw [setQue_of_ne _ hj, load_congr hapart]
      exact hb.counted j
  refine ⟨s', hs', ⟨_, _, _, _, hr', fun j => ?_, idle_update hb.idle (by simp) mp⟩,
    fun h => (hapart h).trans (hapart' h), ?_⟩
  · by_cases hj : j = i
    · have hload := hb.counted i
      rw [hcells, load_append, load] at hload
      rw [hj, update_self, hsame, setQue_self, hqp, load_congr hapart', load_congr hapart, load_append]
      dsimp only
      omega
    · rw [update_of_ne hj]
      exact hcount' j hj
  · rw [hlist', hlist]
    rfl

theorem findmsg_ok {c : Rcv} {ok : Bool} (hs : Sound info cap s) (hcap : cap < Resmap.ulong)
    (hp : ∀ c h spot, s.proc p ≠ .copying c h spot) (hconv : msgconv info s c.msqid = some i)
    (hlong : Negatable c.msgtyp) :
    ∃ s' r, findmsg info p i c ok s = some (s', r) ∧ Sound info cap s' ∧ Got info c s s' r := by
  obtain ⟨hslot, -, halloc⟩ := msgconv_slot hconv
  have hleave : SameData s (s.setProc p .user) := setProc_same hp (by simp)
  obtain ⟨own, seg, cells, free, hb⟩ := hs
  have hs : Sound info cap s := ⟨own, seg, cells, free, hb⟩
  have hfound := select_ok (hb.rep.queue i) hlong (hb.rep.length_le i)
  unfold findmsg
  generalize select info i c.msgtyp s = found at hfound ⊢
  obtain ⟨smp, spmp⟩ := found
  cases smp with
  | none =>
    have hnone : ∀ m ∈ s.list info (slot info c.msqid), ¬ Wanted c.msgtyp m.1 := by
      intro m hm
      rw [← hslot, hb.rep.list_eq] at hm
      obtain ⟨x, hx, rfl⟩ := mem_map.mp hm
      exact hfound x hx
    dsimp only
    split
    · exact ⟨_, _, rfl, hs.same hleave, hleave, fun _ => hnone⟩
    · have hsame : SameData s (s.setQue i { s.msgque i with rwait := true }) := setQue_same rfl
      have hsleep := hsame.trans (setProc_same (p := p) (v := .asleep (.rcv c) (.qnum i)) hp (by simp))
      exact ⟨_, _, rfl, hs.same hsleep, hsleep, hnone⟩
  | some mp =>
    obtain ⟨front, back, hcells, hspmp, hpicks⟩ := hfound
    dsimp only
    by_cases hbig : c.msgsz < (s.msgh mp).msgTs ∧ c.noerror = false
    · rw [if_pos hbig]
      exact ⟨_, _, rfl, hs.same hleave, hleave, nofun⟩
    rw [if_neg hbig]
    by_cases hok : ok = false
    · rw [if_pos hok]
      exact ⟨_, _, rfl, hs.same hleave, hleave, nofun⟩
    rw [if_neg hok]
    rw [show spmp = front.getLast? from hspmp]
    obtain ⟨s', hs', hsound, hapart, hlist⟩ := hb.receive hcap hcells
    rw [hs', Option.map_some]
    have hdone : SameData s' (s'.setProc p .user) := setProc_same
      (fun c' h spot heq => hp c' h spot (((hapart mp).copying p c' h spot).mp heq)) (by simp)
    refine ⟨_, _, rfl, hsound.same hdone, _, ⟨front.map (s.msg info), (s.msg info mp).2,
      back.map (s.msg info), ?_, rfl, ?_, ?_, ?_⟩, ?_⟩
    · rw [← hslot, hb.rep.list_eq, hcells, map_append, map_cons]
      rfl
    · rw [map_fst, map_fst]
      exact hpicks
    · unfold State.msg
      split
      · exact read_take _ _ (by omega)
      · rw [take_of_length_le]
        rw [read_length]
        omega
    · unfold State.msg
      rw [read_length]
      by_cases hle : (s.msgh mp).msgTs ≤ c.msgsz
      · exact .inl hle
      refine .inr ?_
      cases hnoerror : c.noerror with
      | true => rfl
      | false => exact absurd ⟨by omega, hnoerror⟩ hbig
    · rw [hdone.list, hlist, ← hslot, map_append]

/-! ### `msgctl` and `msgget` -/

theorem Rep.unlocked (hr : Rep info cap none s own seg cells free) (hlock : s.msglock i = false)
    (hp : s.proc p = .copying c mp size) : slot info c.msqid ≠ i := by
  obtain ⟨-, -, -, -, -, hlocked, -⟩ := hr.sending p c mp size (by simp) hp
  intro heq
  rw [heq, hlock] at hlocked
  cases hlocked

theorem Books.setQue (hb : Books info cap s own seg cells free) (i : Nat) (qp : MsqidDs)
    (hfirst : qp.msgFirst = (s.msgque i).msgFirst) (hlast : qp.msgLast = (s.msgque i).msgLast)
    (hqnum : qp.msgQnum = (s.msgque i).msgQnum) (hbytes : qp.msgCbytes = (s.msgque i).msgCbytes)
    (hdead : qp.alloc = false → cells i = [])
    (hconv : (qp.alloc = (s.msgque i).alloc ∧ qp.seq = (s.msgque i).seq) ∨
      ∀ q c h spot, s.proc q = .copying c h spot → slot info c.msqid ≠ i) :
    Books info cap (s.setQue i qp) own seg cells free ∧ (s.setQue i qp).list info = s.list info := by
  have hr := hb.rep.setQue ((hb.rep.queue i).setQue qp hfirst hlast hqnum hdead)
    (hconv.imp_right fun h q c x spot _ => h q c x spot)
  refine ⟨⟨hr, fun j => ?_, hb.idle⟩, funext fun j => ?_⟩
  · have hload : load (s.setQue i qp) (cells j) = load s (cells j) := load_of_msgh (by rfl) (cells j)
    rw [hload]
    by_cases hj : j = i
    · rw [hj, setQue_self, hbytes]
      exact hb.counted i
    · rw [setQue_of_ne _ hj]
      exact hb.counted j
  · rw [hr.list_eq, hb.rep.list_eq]
    rfl

theorem Books.same (hb : Books info cap s own seg cells free) (h : SameData s s') :
    Books info cap s' own seg cells free :=
  ⟨hb.rep.same h, h.counted hb.counted, hb.idle⟩

theorem retire_ok (hr : Rep info cap none s own seg cells free) (hidle : ∀ h, own h ≠ .busy)
    (hnil : cells i = []) (hcount : ∀ j, j ≠ i → (s.msgque j).msgCbytes = load s (cells j))
    (hnone : ∀ q c h spot, s.proc q = .copying c h spot → slot info c.msqid ≠ i) (seq : Nat) :
    Books info cap (retire i seq s) own seg cells free ∧ (retire i seq s).list info = s.list info := by
  unfold retire
  dsimp only
  obtain ⟨qp, hqp⟩ : ∃ qp : MsqidDs, qp = { s.msgque i with msgCbytes := 0, seq := seq } := ⟨_, rfl⟩
  rw [← hqp]
  have hr₁ := hr.setQue ((hr.queue i).setQue qp (by rw [hqp]) (by rw [hqp]) (by rw [hqp])
    fun _ => hnil) (.inr fun q c h spot _ => hnone q c h spot)
  have hb₁ : Books info cap (s.setQue i qp) own seg cells free := by
    refine ⟨hr₁, fun j => ?_, hidle⟩
    rw [load_of_msgh (s := s) (by rfl)]
    by_cases hj : j = i
    · rw [hj, setQue_self, hnil, hqp]
      rfl
    · rw [setQue_of_ne _ hj]
      exact hcount j hj
  have hlist₁ : (s.setQue i qp).list info = s.list info := by
    funext j
    rw [hr₁.list_eq, hr.list_eq]
    rfl
  have hwake : ∀ (b : Bool) (chan : Chan) (s₁ : State),
      SameData s₁ (if b = true then wakeprocs chan s₁ else s₁) := by
    intro b chan s₁
    split
    · exact wakeprocs_same chan
    · exact .refl
  have hsame := (hwake (s.msgque i).rwait (.qnum i) (s.setQue i qp)).trans
    (hwake (s.msgque i).wwait (.queue i) _)
  have hclear : ∀ s₁, SameData (s.setQue i qp) s₁ →
      Books info cap (s₁.setQue i { s₁.msgque i with alloc := false, rwait := false, wwait := false })
        own seg cells free ∧
      State.list info (s₁.setQue i { s₁.msgque i with
        alloc := false, rwait := false, wwait := false }) = s.list info := by
    intro s₁ h₁
    obtain ⟨hb₂, hlist₂⟩ := (hb₁.same h₁).setQue i { s₁.msgque i with
      alloc := false, rwait := false, wwait := false } rfl rfl rfl rfl (fun _ => hnil)
      (.inr fun q c h spot hproc => hnone q c h spot ((h₁.copying q c h spot).mp hproc))
    exact ⟨hb₂, hlist₂.trans (h₁.list.trans hlist₁)⟩
  exact hclear _ hsame

theorem rmid_ok (hs : Sound info cap s) (hcap : cap < Resmap.ulong) (old : Bool) {id : Int}
    (hconv : msgconv info s id = some i) (hlock : Unlocked info s id) :
    ∃ s', rmid info old id i s = some s' ∧ Sound info cap s' ∧
      s'.list info = update (s.list info) i [] := by
  obtain ⟨hslot, hid, -⟩ := msgconv_slot hconv
  have hfree : s.msglock i = false := by
    rw [hslot]
    exact hlock.resolve_left (by omega)
  obtain ⟨own, seg, cells, free, hb⟩ := hs
  obtain ⟨s₁, own', seg', free', hs₁, hr₁, hidle₁, hcount₁, hapart₁, hlist₁⟩ :=
    freeAll_ok (i := i) info.msgtql hb.rep hcap
      (Nat.lt_succ_of_le (hb.rep.length_le i)) hb.idle fun j _ => hb.counted j
  obtain ⟨hb', hlist'⟩ := retire_ok hr₁ hidle₁ (update_self _ _ _) (fun j hj => by
      rw [update_of_ne hj]
      exact hcount₁ j hj)
    (fun q c h spot hproc =>
      hb.rep.unlocked hfree (((hapart₁ h).copying q c h spot).mp hproc))
    (if (old = true ∧ 32767 < int (id + info.msgmni)) ∨ int (id + info.msgmni) < 0 then 0
      else (s₁.msgque i).seq + 1)
  refine ⟨_, ?_, ⟨own', seg', _, free', hb'⟩, hlist'.trans hlist₁⟩
  unfold rmid
  rw [hs₁]
  rfl

theorem msgget_ok (info : Msginfo) (hs : Sound info cap s) (hdead : (s.msgque i).alloc = false) :
    Sound info cap (msgget info i s) ∧ s.list info i = [] ∧ (msgget info i s).list info = s.list info := by
  obtain ⟨own, seg, cells, free, hb⟩ := hs
  have hq := hb.rep.queue i
  have hnil := hq.dead hdead
  have hlinked := hq.linked
  have hlast := hq.last
  have hqnum := hq.qnum
  rw [hnil] at hlinked hlast hqnum
  have hnone : ∀ q c h spot, s.proc q = .copying c h spot → slot info c.msqid ≠ i := by
    intro q c h spot hproc heq
    obtain ⟨-, -, -, -, -, -, hconv⟩ := hb.rep.sending q c h spot (by simp) hproc
    have halloc := (msgconv_slot hconv).2.2
    rw [heq, hdead] at halloc
    cases halloc
  obtain ⟨hb', hlist⟩ := hb.setQue i { s.msgque i with
    alloc := true
    rwait := false
    wwait := false
    msgFirst := none
    msgLast := none
    msgQnum := 0
    msgQbytes := info.msgmnb } (Eq.symm hlinked) hlast.symm hqnum.symm rfl (fun _ => hnil) (.inr hnone)
  refine ⟨⟨own, seg, cells, free, hb'⟩, ?_, hlist⟩
  rw [hb.rep.list_eq, hnil, map_nil]

theorem ipcset_ok (hs : Sound info cap s) (qbytes : Nat) :
    Sound info cap (ipcset i qbytes s) ∧ (ipcset i qbytes s).list info = s.list info := by
  obtain ⟨own, seg, cells, free, hb⟩ := hs
  obtain ⟨hb', hlist⟩ := hb.setQue i { s.msgque i with msgQbytes := qbytes } rfl rfl
    rfl rfl (hb.rep.queue i).dead (.inl ⟨rfl, rfl⟩)
  exact ⟨⟨own, seg, cells, free, hb'⟩, hlist⟩

/-! ### Calls -/

section

variable (hs : Sound info cap s) (hcap : cap < Resmap.ulong)
  (hp : ∀ c h spot, s.proc p ≠ .copying c h spot)
include hs hcap hp

theorem msgsnd_ok {msqid : Int} (hlock : Unlocked info s msqid) (msgsz : Int) (mtype : Option Int)
    (nowait : Bool) :
    ∃ s' r, msgsnd info p msqid msgsz mtype nowait s = some (s', r) ∧ Sound info cap s' ∧
      Sent info p ⟨msqid, mtype.getD 0, msgsz.toNat, nowait⟩ s s' r := by
  unfold msgsnd
  cases hconv : msgconv info s msqid with
  | none => exact ⟨s, _, rfl, hs, SameData.refl⟩
  | some i =>
    obtain ⟨hslot, hid, -⟩ := msgconv_slot hconv
    dsimp only
    split
    · exact ⟨s, _, rfl, hs, SameData.refl⟩
    · cases mtype with
      | none => exact ⟨s, _, rfl, hs, SameData.refl⟩
      | some type =>
        dsimp only
        split
        · exact ⟨s, _, rfl, hs, SameData.refl⟩
        · refine getres_ok hs hcap hp hconv ?_
          rw [hslot]
          exact hlock.resolve_left (by omega)

theorem resumeSnd_ok (hlock : Unlocked info s c.msqid) :
    ∃ s' r, resumeSnd info p c s = some (s', r) ∧ Sound info cap s' ∧ Sent info p c s s' r := by
  unfold resumeSnd
  cases hconv : msgconv info s c.msqid with
  | none =>
    have hsame : SameData s (s.setProc p .user) := setProc_same hp (by simp)
    exact ⟨_, _, rfl, hs.same hsame, hsame⟩
  | some i =>
    obtain ⟨hslot, hid, -⟩ := msgconv_slot hconv
    refine getres_ok hs hcap hp hconv ?_
    rw [hslot]
    exact hlock.resolve_left (by omega)

theorem msgrcv_ok {msgtyp : Int} (hlong : Negatable msgtyp) (msqid msgsz : Int)
    (nowait noerror ok : Bool) :
    ∃ s' r, msgrcv info p msqid msgsz msgtyp nowait noerror ok s = some (s', r) ∧ Sound info cap s' ∧
      Got info ⟨msqid, msgsz.toNat, msgtyp, nowait, noerror⟩ s s' r := by
  unfold msgrcv
  cases hconv : msgconv info s msqid with
  | none => exact ⟨s, _, rfl, hs, .refl, nofun⟩
  | some i =>
    dsimp only
    split
    · exact ⟨s, _, rfl, hs, .refl, nofun⟩
    · exact findmsg_ok hs hcap hp hconv hlong

end

theorem resumeRcv_ok {c : Rcv} (hs : Sound info cap s) (hcap : cap < Resmap.ulong)
    (hp : ∀ c h spot, s.proc p ≠ .copying c h spot) (hlong : Negatable c.msgtyp) (ok : Bool) :
    ∃ s' r, resumeRcv info p c ok s = some (s', r) ∧ Sound info cap s' ∧ Got info c s s' r := by
  unfold resumeRcv
  cases hconv : msgconv info s c.msqid with
  | none =>
    have hsame : SameData s (s.setProc p .user) := setProc_same hp (by simp)
    exact ⟨_, _, rfl, hs.same hsame, hsame, nofun⟩
  | some i => exact findmsg_ok hs hcap hp hconv hlong

theorem interruptSnd_same (hp : ∀ c h spot, s.proc p ≠ .copying c h spot) (c : Snd) (chan : Chan) :
    SameData s (interruptSnd info p c chan s) := by
  have huser : ∀ s₁, SameData s s₁ → SameData s (s₁.setProc p .user) := fun s₁ h₁ =>
    h₁.trans (setProc_same (fun c h spot heq => hp c h spot ((h₁.copying p c h spot).mp heq)) (by simp))
  unfold interruptSnd
  cases msgconv info s c.msqid with
  | none => exact huser s .refl
  | some i =>
    dsimp only
    split
    · refine huser _ (SameData.trans (setQue_same ?_) (wakeprocs_same (.queue i)))
      rfl
    · exact huser s .refl

/-! ### Queues that are lists -/

/-- The steps of a system whose queues are lists of types and texts. -/
inductive ListStep (info : Msginfo) :
    (Nat → List (Int × List UInt8)) → Event → (Nat → List (Int × List UInt8)) → Prop
  | msgget {q : Nat → List (Int × List UInt8)} {i : Nat} : q i = [] → ListStep info q (.msgget i) q
  | rmid {q : Nat → List (Int × List UInt8)} {i : Nat} :
      ListStep info q (.rmid i) (update q i [])
  | ipcset {q : Nat → List (Int × List UInt8)} {i qbytes : Nat} : ListStep info q (.ipcset i qbytes) q
  | sentEmpty {q : Nat → List (Int × List UInt8)} {p : Nat} {c : Snd} : c.cnt = 0 →
      ListStep info q (.msgsnd p c (.ret none)) (update q (slot info c.msqid)
        (q (slot info c.msqid) ++ [(c.type, [])]))
  | sent {q : Nat → List (Int × List UInt8)} {p : Nat} {c : Snd} {text : List UInt8} :
      text.length = c.cnt → ListStep info q (.copied p c text (.ret none))
        (update q (slot info c.msqid) (q (slot info c.msqid) ++ [(c.type, text)]))
  | unsent {q : Nat → List (Int × List UInt8)} {p : Nat} {c : Snd} {r : Outcome} : r ≠ .ret none →
      ListStep info q (.msgsnd p c r) q
  | notCopied {q : Nat → List (Int × List UInt8)} {p : Nat} {c : Snd} {text : List UInt8}
      {e : Errno} : ListStep info q (.copied p c text (.ret (some e))) q
  | received {q : Nat → List (Int × List UInt8)} {p : Nat} {c : Rcv} {type : Int}
      {text : List UInt8} {rest : List (Int × List UInt8)} :
      Takes c (q (slot info c.msqid)) type text rest →
      ListStep info q (.msgrcv p c (.msg type text)) (update q (slot info c.msqid) rest)
  | noMessage {q : Nat → List (Int × List UInt8)} {p : Nat} {c : Rcv} {r : Received} :
      (r = .error .enomsg ∨ ∃ chan, r = .sleep chan) →
      (∀ m ∈ q (slot info c.msqid), ¬ Wanted c.msgtyp m.1) → ListStep info q (.msgrcv p c r) q
  | notReceived {q : Nat → List (Int × List UInt8)} {p : Nat} {c : Rcv} {e : Errno} : e ≠ .enomsg →
      ListStep info q (.msgrcv p c (.error e)) q
  | signal {q : Nat → List (Int × List UInt8)} {p : Nat} : ListStep info q (.signal p) q
  | interrupt {q : Nat → List (Int × List UInt8)} {p : Nat} : ListStep info q (.interrupt p) q

theorem Sent.listStep {r : Outcome} (h : Sent info p c s s' r) :
    ListStep info (s.list info) (.msgsnd p c r) (s'.list info) := by
  cases r with
  | ret error =>
    cases error with
    | none =>
      rw [h.2]
      exact .sentEmpty h.1
    | some e =>
      rw [SameData.list h]
      exact .unsent (by simp)
  | sleep chan =>
    rw [SameData.list h]
    exact .unsent (by simp)
  | copyin =>
    rw [h.2]
    exact .unsent (by simp)

theorem Got.listStep {c : Rcv} {r : Received} (h : Got info c s s' r) :
    ListStep info (s.list info) (.msgrcv p c r) (s'.list info) := by
  cases r with
  | msg type text =>
    obtain ⟨rest, htakes, hlist⟩ := h
    rw [hlist]
    exact .received htakes
  | sleep chan =>
    rw [h.1.list]
    exact .noMessage (.inr ⟨chan, rfl⟩) h.2
  | error e =>
    rw [h.1.list]
    by_cases he : e = .enomsg
    · exact .noMessage (.inl (congrArg Received.error he)) (h.2 he)
    · exact .notReceived he

def Readable : Event → Prop
  | .msgrcv _ c _ => Negatable c.msgtyp
  | _ => True

/-- A call that gives an error before it has had anything, or is stopped in its sleep. -/
def Refused : Event → Prop
  | .msgsnd _ _ (.ret (some _)) => True
  | .msgrcv _ _ (.error _) => True
  | .interrupt _ => True
  | _ => False

theorem proc_not_copying {v : Proc} (hproc : s.proc p = v) (hv : ∀ c h spot, v ≠ .copying c h spot) :
    ∀ c h spot, s.proc p ≠ .copying c h spot := by
  intro c h spot heq
  rw [hproc] at heq
  exact hv c h spot heq

variable {event : Event} {events : List Event} {msgmap : Resmap.RMap}

/-- What one step does: the books stay in order, the queues change as lists do, and a call that is
refused leaves everything as it was. -/
structure Follows (info : Msginfo) (cap : Nat) (s : State) (event : Event) (s' : State) : Prop where
  sound : Sound info cap s'
  list : ListStep info (s.list info) event (s'.list info)
  refused : Refused event → SameData s s'

theorem Sent.follows {r : Outcome} (hs : Sound info cap s') (h : Sent info p c s s' r) :
    Follows info cap s (.msgsnd p c r) s' := by
  refine ⟨hs, h.listStep, fun hrefused => ?_⟩
  cases r with
  | ret error =>
    cases error with
    | none => cases hrefused
    | some e => exact h
  | sleep chan => cases hrefused
  | copyin => cases hrefused

theorem Got.follows {c : Rcv} {r : Received} (hs : Sound info cap s') (h : Got info c s s' r) :
    Follows info cap s (.msgrcv p c r) s' := by
  refine ⟨hs, h.listStep, fun hrefused => ?_⟩
  cases r with
  | error e => exact h.1
  | msg type text => cases hrefused
  | sleep chan => cases hrefused

theorem SameData.follows (hs : Sound info cap s) (h : SameData s s')
    (hlist : ListStep info (s.list info) event (s.list info)) : Follows info cap s event s' := by
  refine ⟨hs.same h, ?_, fun _ => h⟩
  rw [h.list]
  exact hlist

theorem step_follows (hs : Sound info cap s) (hcap : cap < Resmap.ulong) (hread : Readable event)
    (hstep : Step info s event s') : Follows info cap s event s' := by
  cases hstep with
  | msgget _ hdead =>
    obtain ⟨hsound, hnil, hlist⟩ := msgget_ok info hs hdead
    refine ⟨hsound, ?_, nofun⟩
    rw [hlist]
    exact .msgget hnil
  | rmid hconv hlock heq =>
    obtain ⟨s₁, hs₁, hsound, hlist⟩ := rmid_ok hs hcap _ hconv hlock
    rw [heq] at hs₁
    cases hs₁
    refine ⟨hsound, ?_, nofun⟩
    rw [hlist]
    exact .rmid
  | ipcset _ _ =>
    obtain ⟨hsound, hlist⟩ := ipcset_ok hs _
    refine ⟨hsound, ?_, nofun⟩
    rw [hlist]
    exact .ipcset
  | msgsnd hp hlock heq =>
    obtain ⟨s₁, r₁, hs₁, hsound, hsent⟩ := msgsnd_ok hs hcap (proc_not_copying hp (by simp)) hlock _ _ _
    rw [heq] at hs₁
    cases hs₁
    exact hsent.follows hsound
  | resumeSnd hp hlock heq =>
    obtain ⟨s₁, r₁, hs₁, hsound, hsent⟩ := resumeSnd_ok hs hcap (proc_not_copying hp (by simp)) hlock
    rw [heq] at hs₁
    cases hs₁
    exact hsent.follows hsound
  | copied hp hlength hall heq =>
    obtain ⟨s₁, hsound, ⟨hok, hs₁, hlist⟩ | ⟨hok, hs₁, hlist, -⟩⟩ := copied_ok hs hcap hp hlength hall
    · rw [heq] at hs₁
      cases hs₁
      refine ⟨hsound, ?_, nofun⟩
      rw [hlist]
      exact .sent (hall hok)
    · rw [heq] at hs₁
      cases hs₁
      refine ⟨hsound, ?_, nofun⟩
      rw [hlist]
      exact .notCopied
  | msgrcv hp hlock _ heq =>
    obtain ⟨s₁, r₁, hs₁, hsound, hgot⟩ :=
      msgrcv_ok hs hcap (proc_not_copying hp (by simp)) hread _ _ _ _ _
    rw [heq] at hs₁
    cases hs₁
    exact hgot.follows hsound
  | resumeRcv hp hlock heq =>
    obtain ⟨s₁, r₁, hs₁, hsound, hgot⟩ := resumeRcv_ok hs hcap (proc_not_copying hp (by simp)) hread _
    rw [heq] at hs₁
    cases hs₁
    exact hgot.follows hsound
  | signal hp =>
    exact (setProc_same (proc_not_copying hp (by simp)) (by simp)).follows hs .signal
  | interruptSnd hp _ =>
    exact (interruptSnd_same (proc_not_copying hp (by simp)) _ _).follows hs .interrupt
  | interruptRcv hp =>
    exact (setProc_same (proc_not_copying hp (by simp)) (by simp)).follows hs .interrupt
  | leave hp _ =>
    exact (setProc_same (proc_not_copying hp (by simp)) (by simp)).follows hs .interrupt

/-! ### Runs -/

theorem boot_linked (info : Msginfo) (msgmap : Resmap.RMap) (n k : Nat)
    (hsum : k + (n + 1) = info.msgtql) : Linked (boot info msgmap).next (some k) (range' k (n + 1)) := by
  induction n generalizing k with
  | zero =>
    refine ⟨rfl, ?_⟩
    simp [boot, State.next, Linked]
    omega
  | succ n ih =>
    rw [range'_succ]
    refine ⟨rfl, ?_⟩
    have hnext : (boot info msgmap).next k = some (k + 1) := by
      simp [boot, State.next]
      omega
    rw [hnext]
    exact ih (k + 1) (by omega)

theorem boot_books (hcap : cap < Resmap.ulong) (hend : 1 + size ≤ Resmap.ulong)
    (hmap : Resmap.rmfree (Resmap.mapinit cap) size 1 = some msgmap) :
    Books info cap (boot info msgmap) (fun _ => .free) (fun _ => ∅) (fun _ => [])
      (range' 0 info.msgtql) where
  rep := by
    obtain ⟨n, hn⟩ : ∃ n, info.msgtql = n + 1 := ⟨info.msgtql - 1, by have := info.msgtqlPos; omega⟩
    refine ⟨?_, fun i => ⟨rfl, rfl, rfl, fun _ => rfl⟩, fun h => ?_, fun i h => (by simp),
      fun p c h spot _ hproc => (by cases hproc), fun h p hown => (by cases hown),
      fun p q c c' h h' spot spot' _ _ hproc => (by cases hproc),
      Resmap.Apportioned.initial hcap hend (fun _ => rfl) hmap, fun _ _ => rfl,
      fun h i hown => (by cases hown)⟩
    · rw [hn]
      exact boot_linked info msgmap n 0 (by omega)
    · simp
  counted i := rfl
  idle h := by simp

theorem boot_list (info : Msginfo) (msgmap : Resmap.RMap) :
    (boot info msgmap).list info = fun _ => [] := by
  funext i
  unfold State.list
  cases info.msgtql with
  | zero => rfl
  | succ n => rfl

def bytes : List (Int × List UInt8) → Nat
  | [] => 0
  | m :: q => m.2.length + bytes q

theorem load_bytes (info : Msginfo) (s : State) (xs : List Nat) :
    load s xs = bytes (xs.map (s.msg info)) := by
  induction xs with
  | nil => rfl
  | cons x xs ih =>
    rw [load, map_cons, bytes, ih]
    unfold State.msg
    rw [read_length]

/-- Every call that may run has a result. -/
structure Returns (info : Msginfo) (s : State) : Prop where
  msgsnd : ∀ p msqid msgsz mtype nowait, s.proc p = .user → Unlocked info s msqid →
    (Msg.msgsnd info p msqid msgsz mtype nowait s).isSome = true
  resumeSnd : ∀ p c chan, s.proc p = .ready (.snd c) chan → Unlocked info s c.msqid →
    (Msg.resumeSnd info p c s).isSome = true
  copied : ∀ p c mp spot text ok, s.proc p = .copying c mp spot → text.length ≤ c.cnt →
    (ok = true → text.length = c.cnt) → (Msg.copied info p c mp spot text ok s).isSome = true
  msgrcv : ∀ p msqid msgsz msgtyp nowait noerror ok, s.proc p = .user → Negatable msgtyp →
    (Msg.msgrcv info p msqid msgsz msgtyp nowait noerror ok s).isSome = true
  resumeRcv : ∀ p c chan ok, s.proc p = .ready (.rcv c) chan → Negatable c.msgtyp →
    (Msg.resumeRcv info p c ok s).isSome = true
  rmid : ∀ old id i, msgconv info s id = some i → Unlocked info s id →
    (Msg.rmid info old id i s).isSome = true

theorem Sound.returns (hs : Sound info cap s) (hcap : cap < Resmap.ulong) : Returns info s where
  msgsnd p msqid msgsz mtype nowait hp hlock := by
    obtain ⟨s', r, heq, -⟩ := msgsnd_ok hs hcap (proc_not_copying hp (by simp)) hlock msgsz mtype nowait
    rw [heq]
    rfl
  resumeSnd p c chan hp hlock := by
    obtain ⟨s', r, heq, -⟩ := resumeSnd_ok hs hcap (proc_not_copying hp (by simp)) hlock
    rw [heq]
    rfl
  copied p c mp spot text ok hp hlength hall := by
    obtain ⟨s', -, ⟨-, heq, -⟩ | ⟨-, heq, -⟩⟩ := copied_ok hs hcap hp hlength hall
    · rw [heq]
      rfl
    · rw [heq]
      rfl
  msgrcv p msqid msgsz msgtyp nowait noerror ok hp hlong := by
    obtain ⟨s', r, heq, -⟩ :=
      msgrcv_ok hs hcap (proc_not_copying hp (by simp)) hlong msqid msgsz nowait noerror ok
    rw [heq]
    rfl
  resumeRcv p c chan ok hp hlong := by
    obtain ⟨s', r, heq, -⟩ := resumeRcv_ok hs hcap (proc_not_copying hp (by simp)) hlong ok
    rw [heq]
    rfl
  rmid old id i hconv hlock := by
    obtain ⟨s', heq, -⟩ := rmid_ok hs hcap old hconv hlock
    rw [heq]
    rfl

theorem run_follows (hcap : cap < Resmap.ulong) (hend : 1 + size ≤ Resmap.ulong)
    (hmap : Resmap.rmfree (Resmap.mapinit cap) size 1 = some msgmap)
    (hrun : Exec (Guarded (Step info) fun _ event => Readable event) (boot info msgmap) events s) :
    Sound info cap s ∧ Exec (ListStep info) (fun _ => []) events (s.list info) := by
  generalize hboot : boot info msgmap = s₀ at hrun
  induction hrun with
  | nil =>
    rw [← hboot, boot_list]
    exact ⟨⟨_, _, _, _, boot_books hcap hend hmap⟩, Exec.nil _⟩
  | snoc _ hstep ih =>
    obtain ⟨hs, hlist⟩ := ih
    have h := step_follows hs hcap hstep.1 hstep.2
    exact ⟨h.sound, Exec.snoc hlist h.list⟩

/-- In every run the queues are the lists that the calls make of them. Each header is free, on one
queue, or with one process that copies in a text, and so is the space; a call that is refused leaves
all as it was, and one whose text cannot be copied in gives back what it had. -/
theorem queues_refine_lists (hcap : cap < Resmap.ulong) (hend : 1 + size ≤ Resmap.ulong)
    (hmap : Resmap.rmfree (Resmap.mapinit cap) size 1 = some msgmap)
    (hrun : Exec (Guarded (Step info) fun _ event => Readable event) (boot info msgmap) events s) :
    Exec (ListStep info) (fun _ => []) events (s.list info) ∧
    (∃ own seg cells free, Books info cap s own seg cells free ∧ ∀ i,
      s.list info i = (cells i).map (s.msg info) ∧ (s.msgque i).msgLast = (cells i).getLast? ∧
        (s.msgque i).msgCbytes = bytes (s.list info i) ∧
        (s.msgque i).msgQnum = (s.list info i).length) ∧
    (∀ event s', Readable event → Step info s event s' → Refused event → SameData s s') ∧
    (∀ p c mp spot text e s', s.proc p = .copying c mp spot →
      Step info s (.copied p c text (.ret (some e))) s' → GaveBack info c mp spot s s') ∧
    Returns info s := by
  obtain ⟨hs, hlist⟩ := run_follows hcap hend hmap hrun
  obtain ⟨own, seg, cells, free, hb⟩ := hs
  have hs : Sound info cap s := ⟨own, seg, cells, free, hb⟩
  refine ⟨hlist, ⟨own, seg, cells, free, hb, fun i => ?_⟩, fun event s' hread hstep =>
    (step_follows hs hcap hread hstep).refused, fun p c mp spot text e s' hproc hstep => ?_,
    hs.returns hcap⟩
  · have heq := hb.rep.list_eq i
    refine ⟨heq, (hb.rep.queue i).last, ?_, ?_⟩
    · rw [heq, ← load_bytes]
      exact hb.counted i
    · rw [heq, length_map]
      exact (hb.rep.queue i).qnum
  · cases hstep with
    | copied hp hlength hall heq =>
      rw [hproc, Proc.copying.injEq] at hp
      obtain ⟨-, rfl, rfl⟩ := hp
      obtain ⟨s₁, -, ⟨-, hs₁, -⟩ | ⟨-, hs₁, -, hback⟩⟩ := copied_ok hs hcap hproc hlength hall
      · rw [heq] at hs₁
        cases hs₁
      · rw [heq] at hs₁
        cases hs₁
        exact hback

def smallInfo : Msginfo := ⟨8, 8, 1, 4, 2, by decide, by decide⟩

def smallMap : Resmap.RMap := ⟨1, 0, [⟨2, 1⟩, ⟨0, 0⟩, ⟨0, 0⟩]⟩

def emptySnd : Snd := ⟨0, 1, 0, true⟩

theorem queues_refine_lists_empty : ∃ s, s.list smallInfo 0 = [(1, [])] ∧ ∃ own seg cells free,
    Books smallInfo 2 s own seg cells free := by
  have hrun : ∃ s, Exec (Guarded (Step smallInfo) fun _ event => Readable event)
      (boot smallInfo smallMap) [.msgget 0, .msgsnd 1 emptySnd (.ret none)] s ∧
      s.list smallInfo 0 = [(1, [])] :=
    ⟨_, Exec.snoc (Exec.single ⟨trivial, Step.msgget (by decide) rfl⟩)
      ⟨trivial, @Step.msgsnd smallInfo _ _ 1 0 0 (some 1) true _ rfl (.inr rfl) rfl⟩, rfl⟩
  obtain ⟨s, hrun, hlist⟩ := hrun
  obtain ⟨-, ⟨own, seg, cells, free, hb, -⟩, -⟩ := queues_refine_lists
    (by decide : 2 < Resmap.ulong) (by decide : 1 + 2 ≤ Resmap.ulong) (by decide) hrun
  exact ⟨s, hlist, own, seg, cells, free, hb⟩

def textSnd : Snd := ⟨0, 1, 4, true⟩

/-- While a text is copied in, its header is neither free nor on a queue; and a receive of the
lowest long finds nothing on a queue that is not empty. -/
theorem header_nowhere :
    (∃ s, Exec (Step smallInfo) (boot smallInfo smallMap) [.msgget 0, .msgsnd 1 textSnd .copyin] s ∧
      0 < smallInfo.msgtql ∧ 0 ∉ chain s.next smallInfo.msgtql s.msgfp ∧
      ∀ i, 0 ∉ chain s.next smallInfo.msgtql (s.msgque i).msgFirst) ∧
    ∃ s s', Exec (Step smallInfo) (boot smallInfo smallMap)
        [.msgget 0, .msgsnd 1 emptySnd (.ret none)] s ∧
      Step smallInfo s (.msgrcv 2 ⟨0, 8, -0x80000000, true, true⟩ (.error .enomsg)) s' ∧
      s.list smallInfo 0 = [(1, [])] := by
  constructor
  · refine ⟨_, Exec.snoc (Exec.single (Step.msgget (by decide) rfl))
      (@Step.msgsnd smallInfo _ _ 1 0 4 (some 1) true _ rfl (.inr rfl) rfl), by decide, ?_, ?_⟩
    · decide
    · intro i
      cases i with
      | zero => decide
      | succ i => exact not_mem_nil
  · refine ⟨_, _, Exec.snoc (Exec.single (Step.msgget (by decide) rfl))
      (@Step.msgsnd smallInfo _ _ 1 0 0 (some 1) true _ rfl (.inr rfl) rfl),
      @Step.msgrcv smallInfo _ _ 2 0 8 (-0x80000000) true true true _ rfl (.inr rfl) (by decide) rfl,
      rfl⟩

end Svr42.Msg

import Svr42.MsgQueues

/-! What becomes of headers and of space: taken and given back, put on a queue and unlinked. -/

namespace Svr42.Msg
open Function List Option

variable {info : Msginfo} {s s' : State} {p q i j mp h cap size a : Nat} {run : Option Nat}
  {own : Nat → Owner} {seg : Nat → Set Nat} {cells : Nat → List Nat} {free : List Nat}

/-! ### Headers on the free list -/

theorem setNext_next (np : Option Nat) : (s.setNext mp np).next = update s.next mp np := by
  funext h
  by_cases hh : h = mp
  · rw [hh, update_self]
    simp [State.next, State.setNext, State.setMsg]
  · rw [update_of_ne hh]
    simp [State.next, State.setNext, State.setMsg, hh]

theorem setNext_msgh (np : Option Nat) (h : Nat) :
    ((s.setNext mp np).msgh h).msgType = (s.msgh h).msgType ∧
      ((s.setNext mp np).msgh h).msgTs = (s.msgh h).msgTs ∧
      ((s.setNext mp np).msgh h).msgSpot = (s.msgh h).msgSpot := by
  by_cases hh : h = mp
  · rw [hh]
    simp [State.setNext, State.setMsg]
  · simp [State.setNext, State.setMsg, hh]

theorem setNext_apart (np : Option Nat) (h : Nat) : Apart h s (s.setNext mp np) :=
  ⟨fun _ => ⟨rfl, rfl⟩, rfl, rfl, fun _ _ _ _ => .rfl, fun x _ => setNext_msgh np x⟩

theorem msgfpFree_same (mp : Nat) (s : State) :
    SameData { s.setNext mp s.msgfp with msgfp := some mp } (msgfpFree mp s) := by
  unfold msgfpFree
  dsimp only
  split
  · exact wakeprocs_same .msgfp
  · exact .refl

theorem busy_ne_sending (hown : own mp = .busy) (p : Nat) : own mp ≠ .sending p := by
  rw [hown]
  simp

variable {msgmap : Resmap.RMap}

theorem freeSpace_same (hfree : Resmap.rmfree s.msgmap size a = some msgmap) :
    ∃ s', freeSpace size a s = some s' ∧ SameData { s with msgmap := msgmap } s' := by
  unfold freeSpace
  rw [hfree, map_some]
  refine ⟨_, rfl, ?_⟩
  dsimp only
  split
  · exact wakeprocs_same .msgmap
  · exact .refl

section

variable (hr : Rep info cap run s own seg cells free)
include hr

/-- The first free header is taken. -/
theorem Rep.take (hfp : s.msgfp = some mp) :
    ∃ rest, free = mp :: rest ∧ mp < info.msgtql ∧ own mp = .free ∧ seg mp = ∅ ∧
      Rep info cap run { s with msgfp := s.next mp } (update own mp .busy) seg cells rest := by
  have hlist := hr.freeList
  cases free with
  | nil =>
    rw [hfp] at hlist
    cases hlist
  | cons x rest =>
    have hx : x = mp := some.inj (hlist.1.symm.trans hfp)
    rw [hx] at hlist hr ⊢
    have hnodup := nodup_cons.mp hlist.nodup
    obtain ⟨hlt, hown⟩ := (hr.memFree mp).mp (.head _)
    refine ⟨rest, rfl, hlt, hown, hr.segFree mp hown, ?_⟩
    refine hr.move ?_ hlt (fun p => by rw [hown]; simp)
      (fun p => by simp) hlist.2 (fun i => ?_) (fun y => ?_) (fun i y => ?_) (fun _ _ => rfl) hr.map
      nofun nofun
    · exact ⟨fun _ => ⟨rfl, rfl⟩, rfl, rfl, fun _ _ _ _ => .rfl, fun _ _ => ⟨rfl, rfl, rfl⟩⟩
    · exact ⟨(hr.queue i).linked, (hr.queue i).last, (hr.queue i).qnum, (hr.queue i).dead⟩
    · split_ifs with hy
      · rw [hy]
        exact ⟨fun hmem => absurd hmem hnodup.1, nofun⟩
      · rw [mem_cons]
        exact ⟨.inr, fun hor => hor.resolve_left hy⟩
    · by_cases hy : y = mp
      · rw [if_pos hy, hy, hr.memQueue, hown]
        simp
      · rw [if_neg hy]

/-- A header without space is put back. -/
theorem Rep.put (hmp : mp < info.msgtql) (hown : own mp = .busy) (hseg : seg mp = ∅) :
    Rep info cap run (msgfpFree mp s) (update own mp .free) seg cells (mp :: free) := by
  have hfree : mp ∉ free := by
    rw [hr.memFree, hown]
    simp
  have hcells : ∀ i, mp ∉ cells i := fun i => by
    rw [hr.memQueue, hown]
    simp
  have hnext : State.next { s.setNext mp s.msgfp with msgfp := some mp } =
      update s.next mp s.msgfp := setNext_next s.msgfp
  refine Rep.same ?_ (msgfpFree_same mp s)
  refine hr.move ?_ hmp
    (busy_ne_sending hown) (fun p => by simp) ?_ (fun i => ?_) (fun y => ?_) (fun i y => ?_)
    (fun _ _ => rfl) hr.map (fun _ => hseg) nofun
  · exact ⟨fun _ => ⟨rfl, rfl⟩, rfl, rfl, fun _ _ _ _ => .rfl, fun x _ => setNext_msgh _ x⟩
  · rw [hnext]
    exact hr.freeList.push hfree
  · refine ⟨?_, (hr.queue i).last, (hr.queue i).qnum, (hr.queue i).dead⟩
    rw [hnext]
    exact (hr.queue i).linked.update_of_notMem (hcells i) _
  · split_ifs with hy
    · rw [hy]
      simp
    · rw [mem_cons]
      exact ⟨fun hor => hor.resolve_left hy, .inr⟩
  · by_cases hy : y = mp
    · rw [if_pos hy, hy]
      exact ⟨fun hmem => absurd hmem (hcells i), nofun⟩
    · rw [if_neg hy]

/-! ### Space -/

/-- The space of a header that the running call has is another, and the map with it. -/
theorem Rep.space (hmp : mp < info.msgtql) (hown : own mp = .busy) {units : Set Nat}
    (hmap : Resmap.Apportioned cap msgmap (update seg mp units)) :
    Rep info cap run { s with msgmap := msgmap } own (update seg mp units) cells free := by
  have hmove : Rep info cap run { s with msgmap := msgmap } (update own mp .busy)
      (update seg mp units) cells free := hr.move
    ⟨fun _ => ⟨rfl, rfl⟩, rfl, rfl, fun _ _ _ _ => .rfl, fun _ _ => ⟨rfl, rfl, rfl⟩⟩ hmp
    (busy_ne_sending hown) (fun p => by simp) hr.freeList
    (fun i => ⟨(hr.queue i).linked, (hr.queue i).last, (hr.queue i).qnum, (hr.queue i).dead⟩)
    (fun y => ?_) (fun i y => ?_) (fun y hy => update_of_ne hy _ _) hmap
    nofun nofun
  · rw [← hown, update_eq_self] at hmove
    exact hmove
  · by_cases hy : y = mp
    · rw [if_pos hy, hy, hr.memFree, hown]
      simp
    · rw [if_neg hy]
  · by_cases hy : y = mp
    · rw [if_pos hy, hy, hr.memQueue, hown]
      simp
    · rw [if_neg hy]

theorem Rep.grant (hcap : cap < Resmap.ulong) (hmp : mp < info.msgtql) (hown : own mp = .busy)
    (halloc : Resmap.rmalloc s.msgmap size = some (msgmap, a)) (ha : a ≠ 0) :
    0 < size ∧ a + size ≤ Resmap.ulong ∧ Rep info cap run { s with msgmap := msgmap } own
        (update seg mp (Resmap.run a size)) cells free := by
  obtain ⟨hsize, hend, hmap⟩ := hr.map.grant (h := mp) hcap halloc ha
  exact ⟨hsize, hend, hr.space hmp hown hmap⟩

theorem Rep.release (hcap : cap < Resmap.ulong)
    (hmp : mp < info.msgtql) (hown : own mp = .busy) (hseg : seg mp = Resmap.run a size) (ha : 0 < a)
    (hsize : 0 < size) (hend : a + size ≤ Resmap.ulong) :
    ∃ s' msgmap, freeSpace size a s = some s' ∧ Resmap.rmfree s.msgmap size a = some msgmap ∧
      Resmap.Freed s.msgmap size a msgmap ∧ SameData { s with msgmap := msgmap } s' ∧
      Rep info cap run s' own (update seg mp ∅) cells free := by
  obtain ⟨msgmap, heq, hfreed, hmap⟩ := hr.map.release hcap hseg ha hsize hend
  obtain ⟨s', hs', hsame⟩ := freeSpace_same heq
  exact ⟨s', msgmap, hs', heq, hfreed, hsame, (hr.space hmp hown hmap).same hsame⟩

end

/-! ### Queues -/

/-- The queue `i` is `qp` now, but for its wait flags, and the links are `link`. -/
structure Relinked (i mp : Nat) (qp : MsqidDs) (link : Nat → Option Nat) (s s' : State) : Prop where
  here : (s'.msgque i).plain = qp.plain
  other : ∀ j, j ≠ i → (s'.msgque j).plain = (s.msgque j).plain
  next : s'.next = link
  apart : Apart mp s s'
  msgfp : s'.msgfp = s.msgfp
  slots : s'.msgmap.slots = s.msgmap.slots
  size : s'.msgmap.mapsize = s.msgmap.mapsize

variable {qp : MsqidDs} {link : Nat → Option Nat}

theorem Relinked.same {s₁ : State} (h : Relinked i mp qp link s s₁) (h' : SameData s₁ s') :
    Relinked i mp qp link s s' where
  here := (h'.que i).trans h.here
  other j hj := (h'.que j).trans (h.other j hj)
  next := h'.next.trans h.next
  apart := h.apart.trans h'.apart
  msgfp := h'.msgfp.trans h.msgfp
  slots := h'.slots.trans h.slots
  size := h'.size.trans h.size

/-- The queue `qp` with the message `m` at its end. -/
def MsqidDs.append (qp : MsqidDs) (mp : Nat) (m : Msg) : MsqidDs :=
  { qp with
    msgFirst := if qp.msgLast = none then some mp else qp.msgFirst
    msgLast := some mp
    msgCbytes := qp.msgCbytes + m.msgTs
    msgQnum := qp.msgQnum + 1 }

def behind (next : Nat → Option Nat) (last : Option Nat) (mp : Nat) : Nat → Option Nat :=
  last.elim (update next mp none) fun q =>
    update (update next mp none) q (some mp)

def queued (type : Int) (cnt spot : Nat) : Msg := ⟨none, type, cnt, if cnt = 0 then 0xFFFFFFFF else spot⟩

theorem wake_same (c : Chan) (hflag : Bool) (qp : MsqidDs) (hplain : qp.plain = (s.msgque i).plain) :
    SameData s (if hflag = true then wakeprocs c (s.setQue i qp) else s) := by
  split
  · exact (setQue_same hplain).trans (wakeprocs_same c)
  · exact .refl

theorem setQue_apart (halloc : qp.alloc = (s.msgque i).alloc) (hseq : qp.seq = (s.msgque i).seq) :
    Apart mp s (s.setQue i qp) := by
  refine ⟨fun j => ?_, rfl, rfl, fun _ _ _ _ => .rfl, fun _ _ => ⟨rfl, rfl, rfl⟩⟩
  by_cases hj : j = i
  · rw [hj, setQue_self]
    exact ⟨halloc, hseq⟩
  · rw [setQue_of_ne _ hj]
    exact ⟨rfl, rfl⟩

/-- The state with `mp` linked in at the end of the queue `i`. -/
def append (i mp : Nat) (m : Msg) (s : State) : State :=
  let s' := s.setMsg mp m
  let s' := (s.msgque i).msgLast.elim s' fun last => s'.setNext last (some mp)
  s'.setQue i ((s.msgque i).append mp m)

theorem wakeReaders_same : SameData s (wakeReaders i s) := wake_same _ _ _ rfl

theorem enqueue_eq (i mp : Nat) (type : Int) (cnt spot : Nat) (s : State) :
    enqueue i mp type cnt spot s = wakeReaders i (append i mp (queued type cnt spot) s) := by
  unfold enqueue append queued MsqidDs.append
  rcases (s.msgque i).msgLast.eq_none_or_eq_some with hl | ⟨last, hl⟩
  · simp [State.setQue, State.setMsg, hl]
  · simp [State.setQue, State.setMsg, State.setNext, hl]

theorem enqueue_same (i mp : Nat) (type : Int) (cnt spot : Nat) (s : State) :
    SameData (append i mp (queued type cnt spot) s) (enqueue i mp type cnt spot s) := by
  rw [enqueue_eq]
  exact wakeReaders_same

variable {m : Msg}

theorem setMsg_next (hnil : m.msgNext = none) : (s.setMsg mp m).next = update s.next mp none := by
  funext x
  by_cases hx : x = mp
  · rw [hx, update_self]
    simp [State.next, State.setMsg, hnil]
  · rw [update_of_ne hx]
    simp [State.next, State.setMsg, hx]

theorem append_relinked (i mp : Nat) (s : State) (hnil : m.msgNext = none) :
    Relinked i mp ((s.msgque i).append mp m) (behind s.next (s.msgque i).msgLast mp) s
      (append i mp m s) := by
  unfold append behind
  have hset : Apart mp s (s.setMsg mp m) := by
    refine ⟨fun _ => ⟨rfl, rfl⟩, rfl, rfl, fun _ _ _ _ => .rfl, fun x hx => ?_⟩
    simp [State.setMsg, hx]
  cases hl : (s.msgque i).msgLast with
  | none =>
    refine ⟨?_, fun j hj => ?_, setMsg_next hnil, hset.trans (setQue_apart rfl rfl), rfl, rfl, rfl⟩
    · rw [setQue_self]
    · rw [setQue_of_ne _ hj]
      rfl
  | some last =>
    refine ⟨?_, fun j hj => ?_, ?_,
      (hset.trans (setNext_apart (some mp) mp)).trans (setQue_apart rfl rfl), rfl, rfl, rfl⟩
    · rw [setQue_self]
    · rw [setQue_of_ne _ hj]
      rfl
    · change ((s.setMsg mp m).setNext last (some mp)).next = _
      rw [setNext_next, setMsg_next hnil]
      rfl

theorem append_msgh (hlast : (s.msgque i).msgLast ≠ some mp) : (append i mp m s).msgh mp = m := by
  unfold append
  cases hl : (s.msgque i).msgLast with
  | none => exact update_self _ _ _
  | some last =>
    have hne : mp ≠ last := fun heq => hlast (heq ▸ hl)
    simp [State.setQue, State.setNext, State.setMsg, hne]

variable {next : Nat → Option Nat}

theorem behind_of_ne {last : Option Nat} {x : Nat} (hx : x ≠ mp) (hlast : last ≠ some x) :
    behind next last mp x = next x := by
  unfold behind
  cases last with
  | none => exact update_of_ne hx _ _
  | some q =>
    have hq : x ≠ q := fun heq => hlast (heq ▸ rfl)
    rw [elim_some, update_of_ne hq, update_of_ne hx]

theorem QueueRep.relinked {cells : List Nat} (hq : QueueRep s j cells) (h : Relinked i mp qp link s s')
    (hj : j ≠ i) (hlink : ∀ x ∈ cells, link x = s.next x) : QueueRep s' j cells := by
  obtain ⟨halloc, -, hfirst, hlast, -, hqnum, -⟩ := plain_fields (h.other j hj)
  refine ⟨?_, hlast.trans hq.last, hqnum.trans hq.qnum, fun hdead => hq.dead (halloc.symm.trans hdead)⟩
  rw [h.next, hfirst]
  exact hq.linked.congr hlink

variable {first : Option Nat}

theorem append_linked {cells : List Nat} (hlinked : Linked next first cells) (hmp : mp ∉ cells) :
    Linked (behind next cells.getLast? mp) (if cells.getLast? = none then some mp else first)
      (cells ++ [mp]) := by
  rcases eq_nil_or_concat cells with hnil | ⟨front, q, hcells⟩
  · rw [hnil]
    refine ⟨rfl, ?_⟩
    exact update_self _ _ _
  · rw [hcells, concat_eq_append] at hmp ⊢
    rw [hcells, concat_eq_append] at hlinked
    rw [getLast?_concat, if_neg (by simp), append_assoc]
    exact (hlinked.update_of_notMem hmp none).snoc hmp (update_self _ _ _)

/-- The running call puts its message at the end of a queue. -/
theorem Rep.append (hr : Rep info cap run s own seg cells free) (hmp : mp < info.msgtql)
    (hown : own mp = .busy) (halloc : (s.msgque i).alloc = true) (hnil : m.msgNext = none)
    (hseg : seg mp = Msg.space info m.msgTs m.msgSpot)
    (hend : m.msgTs ≠ 0 → m.msgSpot + 1 + btoq info m.msgTs ≤ Resmap.ulong) :
    Rep info cap run (append i mp m s) (update own mp (.queue i)) seg
      (update cells i (cells i ++ [mp])) free := by
  have hrel := append_relinked i mp s hnil
  have hfree : mp ∉ free := by
    rw [hr.memFree, hown]
    simp
  have hcells : ∀ j, mp ∉ cells j := fun j => by
    rw [hr.memQueue, hown]
    simp
  have hlast := (hr.queue i).last
  have hmsgh : (Msg.append i mp m s).msgh mp = m := by
    refine append_msgh fun heq => hcells i ?_
    exact mem_of_getLast? (hlast.symm.trans heq)
  have helse : ∀ x, x ≠ mp → x ∉ cells i → behind s.next (s.msgque i).msgLast mp x = s.next x :=
    fun x hx hmem => behind_of_ne hx fun heq => hmem (mem_of_getLast? (hlast.symm.trans heq))
  refine hr.move hrel.apart hmp (busy_ne_sending hown) (fun p => by simp) ?_ (fun j => ?_)
    (fun y => ?_) (fun j y => ?_) (fun _ _ => rfl) (hr.map.slots hrel.slots hrel.size)
    nofun (fun j _ => ?_)
  · rw [hrel.next, hrel.msgfp]
    refine hr.freeList.congr fun x hx => helse x (ne_of_mem_of_not_mem hx hfree) fun hmem => ?_
    have heq := ((hr.memFree x).mp hx).2.symm.trans ((hr.memQueue i x).mp hmem).2
    cases heq
  · by_cases hj : j = i
    · rw [hj, update_self]
      obtain ⟨halloc', -, hfirst', hlast', -, hqnum', -⟩ := plain_fields hrel.here
      refine ⟨?_, ?_, ?_, fun hdead => ?_⟩
      · rw [hrel.next, hfirst', hlast]
        have hlinked := append_linked (hr.queue i).linked (hcells i)
        rw [← hlast] at hlinked ⊢
        exact hlinked
      · rw [hlast', getLast?_concat]
        rfl
      · rw [hqnum', length_append]
        exact congrArg (· + 1) (hr.queue i).qnum
      · rw [halloc'] at hdead
        change (s.msgque i).alloc = false at hdead
        rw [halloc] at hdead
        cases hdead
    · rw [update_of_ne hj]
      refine (hr.queue j).relinked hrel hj fun x hx => helse x (ne_of_mem_of_not_mem hx (hcells j)) ?_
      intro hmem
      have heq := ((hr.memQueue j x).mp hx).2.symm.trans ((hr.memQueue i x).mp hmem).2
      rw [Owner.queue.injEq] at heq
      exact hj heq
  · by_cases hy : y = mp
    · rw [if_pos hy, hy]
      exact ⟨fun hmem => absurd hmem hfree, nofun⟩
    · rw [if_neg hy]
  · by_cases hj : j = i
    · rw [hj, update_self, mem_append, mem_singleton]
      by_cases hy : y = mp
      · simp [hy]
      · simp [hy]
    · rw [update_of_ne hj]
      by_cases hy : y = mp
      · rw [if_pos hy, hy, Owner.queue.injEq]
        exact ⟨fun hmem => absurd hmem (hcells j), fun heq => absurd heq.symm hj⟩
      · rw [if_neg hy]
  · rw [hmsgh]
    exact ⟨hseg, hend⟩

/-- The queue `qp` without the message behind `pmp` and before `np`. -/
def MsqidDs.remove (qp : MsqidDs) (pmp np : Option Nat) : MsqidDs :=
  { qp with
    msgFirst := if pmp = none then np else qp.msgFirst
    msgLast := if np = none then pmp else qp.msgLast
    msgQnum := qp.msgQnum - 1 }

def past (next : Nat → Option Nat) (pmp : Option Nat) (mp : Nat) : Nat → Option Nat :=
  pmp.elim next fun q => update next q (next mp)

def unlink (i : Nat) (pmp : Option Nat) (mp : Nat) (s : State) : State :=
  (pmp.elim s fun q => s.setNext q (s.next mp)).setQue i ((s.msgque i).remove pmp (s.next mp))

/-- Whoever waits for room on the queue `i` is woken. -/
def wakeRoom (i : Nat) (s : State) : State :=
  if (s.msgque i).wwait = true then
    wakeprocs (.queue i) (s.setQue i { s.msgque i with wwait := false })
  else s

theorem wakeRoom_same : SameData s (wakeRoom i s) := wake_same _ _ _ rfl

theorem unlink_msgh (i : Nat) (pmp : Option Nat) (mp h : Nat) (s : State) :
    ((unlink i pmp mp s).msgh h).msgType = (s.msgh h).msgType ∧
      ((unlink i pmp mp s).msgh h).msgTs = (s.msgh h).msgTs ∧
      ((unlink i pmp mp s).msgh h).msgSpot = (s.msgh h).msgSpot := by
  cases pmp with
  | none => exact ⟨rfl, rfl, rfl⟩
  | some q => exact setNext_msgh (s.next mp) h

theorem msgfree_eq (info : Msginfo) (i : Nat) (pmp : Option Nat) (mp : Nat) (s : State) :
    msgfree info i pmp mp s =
      let s' := wakeRoom i (unlink i pmp mp s)
      (if (s'.msgh mp).msgTs ≠ 0 then
        freeSpace (btoq info (s'.msgh mp).msgTs) ((s'.msgh mp).msgSpot + 1) s'
      else some s').map (msgfpFree mp) := by
  unfold msgfree wakeRoom unlink MsqidDs.remove
  cases pmp with
  | none =>
    by_cases hnp : s.next mp = none <;> simp [State.setQue, hnp]
  | some q =>
    by_cases hnp : s.next mp = none <;> simp [State.setQue, State.setNext, State.setMsg, hnp]

theorem unlink_relinked (i : Nat) (pmp : Option Nat) (mp : Nat) (s : State) :
    Relinked i mp ((s.msgque i).remove pmp (s.next mp)) (past s.next pmp mp) s (unlink i pmp mp s) := by
  unfold unlink past
  cases pmp with
  | none =>
    refine ⟨?_, fun j hj => ?_, rfl, setQue_apart rfl rfl, rfl, rfl, rfl⟩
    · rw [setQue_self]
    · rw [setQue_of_ne _ hj]
      rfl
  | some q =>
    refine ⟨?_, fun j hj => ?_, setNext_next _, (setNext_apart _ mp).trans (setQue_apart rfl rfl),
      rfl, rfl, rfl⟩
    · rw [setQue_self]
    · rw [setQue_of_ne _ hj]
      rfl

variable {front back : List Nat}

theorem past_linked (hlinked : Linked next first (front ++ mp :: back)) :
    Linked (past next front.getLast? mp) (if front.getLast? = none then next mp else first)
      (front ++ back) := by
  rcases eq_nil_or_concat front with hnil | ⟨f, q, hfront⟩
  · rw [hnil] at hlinked ⊢
    exact hlinked.2
  rw [hfront, concat_eq_append] at hlinked ⊢
  rw [getLast?_concat, if_neg (by simp), append_assoc]
  rw [append_assoc] at hlinked
  exact hlinked.unlink

theorem past_last (hlinked : Linked next first (front ++ mp :: back)) :
    (if next mp = none then front.getLast? else (front ++ mp :: back).getLast?) =
      (front ++ back).getLast? := by
  rw [hlinked.drop.start_eq]
  cases back with
  | nil => simp
  | cons x back => simp [getLast?_append]

/-- The running call takes a message off its queue. -/
theorem Rep.unlink (hr : Rep info cap run s own seg cells free) {front back : List Nat}
    (hcells : cells i = front ++ mp :: back) : mp < info.msgtql ∧ own mp = .queue i ∧
      Rep info cap run (unlink i front.getLast? mp s) (update own mp .busy) seg
        (update cells i (front ++ back)) free := by
  have hrel := unlink_relinked i front.getLast? mp s
  have hlinked := (hr.queue i).linked
  rw [hcells] at hlinked
  obtain ⟨hmp, hown⟩ := (hr.memQueue i mp).mp (by rw [hcells]; simp)
  have hnodup := hlinked.nodup
  have hout : mp ∉ front ++ back := (nodup_cons.mp (perm_middle.nodup_iff.mp hnodup)).1
  have helse : ∀ x, x ∉ cells i → past s.next front.getLast? mp x = s.next x := by
    intro x hx
    unfold past
    cases hq : front.getLast? with
    | none => rfl
    | some q =>
      have hxq : x ≠ q := by
        intro heq
        rw [hcells, heq] at hx
        exact hx (mem_append_left _ (mem_of_getLast? hq))
      rw [elim_some, update_of_ne hxq]
  refine ⟨hmp, hown, ?_⟩
  refine hr.move hrel.apart hmp (fun p => by rw [hown]; simp) (fun p => by simp) ?_ (fun j => ?_)
    (fun y => ?_) (fun j y => ?_) (fun _ _ => rfl) (hr.map.slots hrel.slots hrel.size)
    nofun nofun
  · rw [hrel.next, hrel.msgfp]
    refine hr.freeList.congr fun x hx => helse x fun hmem => ?_
    have heq := ((hr.memFree x).mp hx).2.symm.trans ((hr.memQueue i x).mp hmem).2
    cases heq
  · by_cases hj : j = i
    · rw [hj, update_self]
      obtain ⟨halloc', -, hfirst', hlast', -, hqnum', -⟩ := plain_fields hrel.here
      refine ⟨?_, ?_, ?_, fun hdead => ?_⟩
      · rw [hrel.next, hfirst']
        exact past_linked hlinked
      · rw [hlast', ← past_last hlinked, ← hcells, ← (hr.queue i).last]
        rfl
      · rw [hqnum']
        change (s.msgque i).msgQnum - 1 = _
        rw [(hr.queue i).qnum, hcells, length_append, length_append, length_cons]
        omega
      · rw [halloc'] at hdead
        have hnone := (hr.queue i).dead hdead
        rw [hcells] at hnone
        simp at hnone
    · rw [update_of_ne hj]
      refine (hr.queue j).relinked hrel hj fun x hx => helse x fun hmem => ?_
      have heq := ((hr.memQueue j x).mp hx).2.symm.trans ((hr.memQueue i x).mp hmem).2
      rw [Owner.queue.injEq] at heq
      exact hj heq
  · by_cases hy : y = mp
    · rw [if_pos hy, hy, hr.memFree, hown]
      simp
    · rw [if_neg hy]
  · by_cases hj : j = i
    · rw [hj, update_self, hcells]
      by_cases hy : y = mp
      · rw [if_pos hy, hy]
        exact ⟨fun hmem => absurd hmem hout, nofun⟩
      · simp [hy]
    · rw [update_of_ne hj]
      by_cases hy : y = mp
      · rw [if_pos hy, hy, hr.memQueue, hown, Owner.queue.injEq]
        exact ⟨fun hmem => absurd hmem.2.symm hj, nofun⟩
      · rw [if_neg hy]

theorem msgfpFree_apart (mp h : Nat) (s : State) : Apart h s (msgfpFree mp s) := by
  refine Apart.trans ?_ (msgfpFree_same mp s).apart
  exact ⟨fun _ => ⟨rfl, rfl⟩, rfl, rfl, fun _ _ _ _ => .rfl, fun x _ => setNext_msgh _ x⟩

/-- What `msgfree` leaves of the queue `i` and of the others. -/
structure Dropped (i mp : Nat) (pmp : Option Nat) (s s' : State) : Prop where
  here : (s'.msgque i).plain = ((s.msgque i).remove pmp (s.next mp)).plain
  other : ∀ j, j ≠ i → (s'.msgque j).plain = (s.msgque j).plain
  apart : ∀ h, Apart h s s'

/-- The running call takes a message off its queue and frees what it has. -/
theorem Rep.msgfree (hr : Rep info cap run s own seg cells free) (hcap : cap < Resmap.ulong) (hcells : cells i = front ++ mp :: back) :
    ∃ s', msgfree info i front.getLast? mp s = some s' ∧ Dropped i mp front.getLast? s s' ∧
      Rep info cap run s' (update own mp .free) (update seg mp ∅)
        (update cells i (front ++ back)) (mp :: free) := by
  obtain ⟨hmp, hown, hr₁⟩ := hr.unlink hcells
  obtain ⟨hseg, hend⟩ := hr.segQueue mp i hown
  have hr₂ := hr₁.same (wakeRoom_same (i := i))
  have hsame : SameData (Msg.unlink i front.getLast? mp s)
      (wakeRoom i (Msg.unlink i front.getLast? mp s)) := wakeRoom_same
  have hrel := (unlink_relinked i front.getLast? mp s).same hsame
  have hall : ∀ h, Apart h s (wakeRoom i (Msg.unlink i front.getLast? mp s)) := by
    intro h
    refine Apart.trans ⟨hrel.apart.conv, hrel.apart.lock, hrel.apart.pool, hrel.apart.copying,
      fun x _ => ?_⟩ SameData.refl.apart
    rw [hsame.msgh]
    exact unlink_msgh i front.getLast? mp x s
  obtain ⟨-, hts, hspot⟩ := (hall (mp + 1)).msgh mp (by omega)
  rw [msgfree_eq]
  dsimp only
  rw [hts, hspot]
  generalize wakeRoom i (Msg.unlink i front.getLast? mp s) = s₂ at hr₂ hrel hall hts hspot
  have hbusy : update own mp Owner.busy mp = .busy := update_self _ _ _
  have hmap : ∃ s₃ msgmap, (if (s.msgh mp).msgTs ≠ 0 then
      freeSpace (btoq info (s.msgh mp).msgTs) ((s.msgh mp).msgSpot + 1) s₂ else some s₂) = some s₃ ∧
      SameData { s₂ with msgmap := msgmap } s₃ ∧ Rep info cap run s₃ (update own mp .busy)
        (update seg mp ∅) (update cells i (front ++ back)) free := by
    by_cases hzero : (s.msgh mp).msgTs = 0
    · rw [if_neg (by omega)]
      refine ⟨s₂, s₂.msgmap, rfl, .refl, ?_⟩
      have hempty : seg mp = ∅ := by
        rw [hseg, Msg.space, if_pos hzero]
      rw [← hempty, update_eq_self]
      exact hr₂
    · rw [if_pos hzero]
      rw [Msg.space, if_neg hzero] at hseg
      obtain ⟨s₃, msgmap, hs₃, -, -, hsame, hr₃⟩ := hr₂.release hcap hmp hbusy hseg (by omega)
        (btoq_pos info (by omega)) (hend hzero)
      exact ⟨s₃, msgmap, hs₃, hsame, hr₃⟩
  obtain ⟨s₃, msgmap, hs₃, hsame, hr₃⟩ := hmap
  rw [hs₃, map_some]
  have hfin := hr₃.put hmp hbusy (update_self _ _ _)
  rw [update_idem] at hfin
  have hback : ∀ j, ((msgfpFree mp s₃).msgque j).plain = (s₂.msgque j).plain := fun j =>
    ((msgfpFree_same mp s₃).que j).trans (hsame.que j)
  refine ⟨_, rfl, ⟨(hback i).trans hrel.here, fun j hj => (hback j).trans (hrel.other j hj),
    fun h => ?_⟩, hfin⟩
  have hspace : Apart h s₂ { s₂ with msgmap := msgmap } :=
    ⟨fun _ => ⟨rfl, rfl⟩, rfl, rfl, fun _ _ _ _ => Iff.rfl, fun _ _ => ⟨rfl, rfl, rfl⟩⟩
  exact ((hall h).trans (hspace.trans hsame.apart)).trans (msgfpFree_apart mp h s₃)

end Svr42.Msg

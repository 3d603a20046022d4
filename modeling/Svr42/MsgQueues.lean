import Svr42.MsgModel
import Svr42.ResmapHeld

/-! What a state of the message queues stands for: every header is free, on one queue, or with one
sender, and the queues, in order, hold messages whose texts lie apart in the buffer. -/

namespace Svr42.Msg
open Function List Nat

variable {info : Msginfo} {s s' : State} {p q i j mp h cap : Nat} {c : Snd} {spot size : Nat}

/-! ### Messages -/

def space (info : Msginfo) (size spot : Nat) : Set Nat :=
  if size = 0 then ∅ else Resmap.run (spot + 1) (btoq info size)

def State.msg (info : Msginfo) (s : State) (mp : Nat) : Int × List UInt8 :=
  ((s.msgh mp).msgType, read (info.msgssz * (s.msgh mp).msgSpot) s.pool (s.msgh mp).msgTs)

def load (s : State) : List Nat → Nat
  | [] => 0
  | mp :: cells => (s.msgh mp).msgTs + load s cells

/-- The queue `i` has the headers `cells`, in order. -/
structure QueueRep (s : State) (i : Nat) (cells : List Nat) : Prop where
  linked : Linked s.next (s.msgque i).msgFirst cells
  last : (s.msgque i).msgLast = cells.getLast?
  qnum : (s.msgque i).msgQnum = cells.length
  dead : (s.msgque i).alloc = false → cells = []

/-- What a header is for. `busy`: the call that runs has it. -/
inductive Owner where
  | free
  | queue (i : Nat)
  | sending (p : Nat)
  | busy
  deriving DecidableEq

/-- The headers by owner, with the segments that go with them. `run` is the process that runs, whose
entry in the process table is out of date. -/
structure Rep (info : Msginfo) (cap : Nat) (run : Option Nat) (s : State) (own : Nat → Owner)
    (seg : Nat → Set Nat) (cells : Nat → List Nat) (free : List Nat) : Prop where
  freeList : Linked s.next s.msgfp free
  queue : ∀ i, QueueRep s i (cells i)
  memFree : ∀ h, h ∈ free ↔ h < info.msgtql ∧ own h = .free
  memQueue : ∀ i h, h ∈ cells i ↔ h < info.msgtql ∧ own h = .queue i
  sending : ∀ p c h spot, some p ≠ run → s.proc p = .copying c h spot →
    h < info.msgtql ∧ own h = .sending p ∧ 0 < c.cnt ∧ seg h = space info c.cnt spot ∧
      spot + 1 + btoq info c.cnt ≤ Resmap.ulong ∧ s.msglock (slot info c.msqid) = true ∧
      msgconv info s c.msqid = some (slot info c.msqid)
  sender : ∀ h p, own h = .sending p → some p ≠ run ∧ ∃ c spot, s.proc p = .copying c h spot
  sole : ∀ p q c c' h h' spot spot', some p ≠ run → some q ≠ run →
    s.proc p = .copying c h spot → s.proc q = .copying c' h' spot' →
    slot info c.msqid = slot info c'.msqid → p = q
  map : Resmap.Apportioned cap s.msgmap seg
  segFree : ∀ h, own h = .free → seg h = ∅
  segQueue : ∀ h i, own h = .queue i →
    seg h = space info (s.msgh h).msgTs (s.msgh h).msgSpot ∧ ((s.msgh h).msgTs ≠ 0 →
      (s.msgh h).msgSpot + 1 + btoq info (s.msgh h).msgTs ≤ Resmap.ulong)

variable {run : Option Nat} {own : Nat → Owner} {seg : Nat → Set Nat} {cells : Nat → List Nat}
  {free : List Nat}

/-! ### Texts -/

theorem btoq_pos (info : Msginfo) (hsize : 0 < size) : 0 < btoq info size := by
  exact div_pos (by omega) info.msgssPos

theorem byte_segment (info : Msginfo) (spot k : Nat) (hk : k < size) :
    (info.msgssz * spot + k) / info.msgssz + 1 ∈ space info size spot := by
  have hpos := info.msgssPos
  rw [mul_add_div hpos, space, if_neg (by omega)]
  refine Resmap.mem_run.mpr ⟨succ_le_succ (le_add_right _ _), ?_⟩
  have hle : k / info.msgssz + 1 ≤ btoq info size := by
    unfold btoq
    rw [← add_div_right _ hpos]
    exact Nat.div_le_div_right (by omega)
  omega

theorem read_congr {base : Nat} {pool pool' : Nat → UInt8}
    (hsame : ∀ k, k < size → pool' (base + k) = pool (base + k)) :
    read base pool' size = read base pool size := by
  apply map_congr_left
  intro k hk
  exact hsame k (mem_range.mp hk)

theorem read_write (base : Nat) (text : List UInt8) (pool : Nat → UInt8) :
    read base (write base text pool) text.length = text := by
  unfold read
  apply ext_getElem
  · simp
  · intro k hk hk'
    rw [length_map, length_range] at hk
    simp [write, hk, getD_eq_getElem?_getD]

theorem read_write_apart {size' spot' : Nat} {text : List UInt8} (pool : Nat → UInt8)
    (hlength : text.length ≤ size') (happart : Disjoint (space info size spot) (space info size' spot')) :
    read (info.msgssz * spot) (write (info.msgssz * spot') text pool) size =
      read (info.msgssz * spot) pool size := by
  apply read_congr
  intro k hk
  unfold write
  rw [if_neg]
  rintro ⟨hlow, hhigh⟩
  have hin := byte_segment info spot k hk
  have hin' := byte_segment info spot' (info.msgssz * spot + k - info.msgssz * spot')
    (by omega : _ < size')
  rw [Nat.add_sub_cancel' hlow] at hin'
  exact Set.disjoint_left.mp happart hin hin'

/-! ### What waiting and waking change -/

def MsqidDs.plain (qp : MsqidDs) : MsqidDs := { qp with rwait := false, wwait := false }

/-- The same queues, headers, space and texts; who waits may differ. -/
structure SameData (s s' : State) : Prop where
  que : ∀ i, (s'.msgque i).plain = (s.msgque i).plain
  lock : s'.msglock = s.msglock
  msgh : s'.msgh = s.msgh
  msgfp : s'.msgfp = s.msgfp
  slots : s'.msgmap.slots = s.msgmap.slots
  size : s'.msgmap.mapsize = s.msgmap.mapsize
  pool : s'.pool = s.pool
  copying : ∀ p c h spot, s'.proc p = .copying c h spot ↔ s.proc p = .copying c h spot

theorem SameData.refl : SameData s s :=
  ⟨fun _ => rfl, rfl, rfl, rfl, rfl, rfl, rfl, fun _ _ _ _ => .rfl⟩

theorem SameData.trans {s₁ s₂ : State} (h : SameData s s₁) (h' : SameData s₁ s₂) : SameData s s₂ where
  que i := (h'.que i).trans (h.que i)
  lock := h'.lock.trans h.lock
  msgh := h'.msgh.trans h.msgh
  msgfp := h'.msgfp.trans h.msgfp
  slots := h'.slots.trans h.slots
  size := h'.size.trans h.size
  pool := h'.pool.trans h.pool
  copying p c h₀ spot := (h'.copying p c h₀ spot).trans (h.copying p c h₀ spot)

theorem wakeup_copying (v : Proc) (chan : Chan) (c : Snd) (h spot : Nat) :
    v.wakeup chan = .copying c h spot ↔ v = .copying c h spot := by
  cases v with
  | user => simp [Proc.wakeup]
  | asleep call d => by_cases hd : d = chan <;> simp [Proc.wakeup, hd]
  | ready call d => simp [Proc.wakeup]
  | copying c' h' spot' => simp [Proc.wakeup]

theorem wakeprocs_same (chan : Chan) : SameData s (wakeprocs chan s) :=
  ⟨fun _ => rfl, rfl, rfl, rfl, rfl, rfl, rfl, fun p c h spot =>
    wakeup_copying (s.proc p) chan c h spot⟩

theorem setQue_self (qp : MsqidDs) : (s.setQue i qp).msgque i = qp := update_self _ _ _

theorem setQue_of_ne (qp : MsqidDs) (hj : j ≠ i) : (s.setQue i qp).msgque j = s.msgque j :=
  update_of_ne hj _ _

theorem setProc_self (v : Proc) : (s.setProc p v).proc p = v := update_self _ _ _

theorem setProc_of_ne (v : Proc) (hq : q ≠ p) : (s.setProc p v).proc q = s.proc q :=
  update_of_ne hq _ _

theorem setQue_same {qp : MsqidDs} (hplain : qp.plain = (s.msgque i).plain) :
    SameData s (s.setQue i qp) := by
  refine ⟨fun j => ?_, rfl, rfl, rfl, rfl, rfl, rfl, fun _ _ _ _ => .rfl⟩
  by_cases hj : j = i
  · rw [hj, setQue_self]
    exact hplain
  · rw [setQue_of_ne qp hj]

theorem setProc_same {v : Proc} (hold : ∀ c h spot, s.proc p ≠ .copying c h spot)
    (hnew : ∀ c h spot, v ≠ .copying c h spot) : SameData s (s.setProc p v) := by
  refine ⟨fun _ => rfl, rfl, rfl, rfl, rfl, rfl, rfl, fun q c h spot => ?_⟩
  by_cases hq : q = p
  · rw [hq, setProc_self]
    exact ⟨fun heq => absurd heq (hnew c h spot), fun heq => absurd heq (hold c h spot)⟩
  · rw [setProc_of_ne v hq]

theorem plain_fields {qp qp' : MsqidDs} (h : qp'.plain = qp.plain) :
    qp'.alloc = qp.alloc ∧ qp'.seq = qp.seq ∧ qp'.msgFirst = qp.msgFirst ∧
      qp'.msgLast = qp.msgLast ∧ qp'.msgCbytes = qp.msgCbytes ∧ qp'.msgQnum = qp.msgQnum ∧
      qp'.msgQbytes = qp.msgQbytes := by
  rw [MsqidDs.mk.injEq] at h
  exact ⟨h.1, h.2.2.2.1, h.2.2.2.2.1, h.2.2.2.2.2.1, h.2.2.2.2.2.2.1, h.2.2.2.2.2.2.2.1,
    h.2.2.2.2.2.2.2.2⟩

theorem SameData.next (h : SameData s s') : s'.next = s.next := by
  funext mp
  unfold State.next
  rw [h.msgh]

theorem SameData.msg (h : SameData s s') (mp : Nat) : s'.msg info mp = s.msg info mp := by
  unfold State.msg
  rw [h.msgh, h.pool]

theorem load_of_msgh (hmsgh : s'.msgh = s.msgh) (xs : List Nat) : load s' xs = load s xs := by
  induction xs with
  | nil => rfl
  | cons x xs ih => rw [load, load, ih, hmsgh]

theorem SameData.load (h : SameData s s') (cells : List Nat) : load s' cells = load s cells :=
  load_of_msgh h.msgh cells

theorem msgconv_congr (s s' : State) (id : Int)
    (hsame : ∀ i, (s'.msgque i).alloc = (s.msgque i).alloc ∧ (s'.msgque i).seq = (s.msgque i).seq) :
    msgconv info s' id = msgconv info s id := by
  unfold msgconv
  dsimp only
  rw [(hsame _).1, (hsame _).2]

theorem SameData.conv (h : SameData s s') (id : Int) : msgconv info s' id = msgconv info s id :=
  msgconv_congr s s' id fun i => ⟨(plain_fields (h.que i)).1, (plain_fields (h.que i)).2.1⟩

theorem QueueRep.same {cells : List Nat} (hq : QueueRep s i cells) (h : SameData s s') :
    QueueRep s' i cells := by
  obtain ⟨halloc, -, hfirst, hlast, -, hqnum, -⟩ := plain_fields (h.que i)
  refine ⟨?_, ?_, ?_, ?_⟩
  · rw [h.next, hfirst]
    exact hq.linked
  · rw [hlast]
    exact hq.last
  · rw [hqnum]
    exact hq.qnum
  · rw [halloc]
    exact hq.dead

theorem Rep.same (hr : Rep info cap run s own seg cells free) (h : SameData s s') :
    Rep info cap run s' own seg cells free where
  freeList := by
    rw [h.next, h.msgfp]
    exact hr.freeList
  queue i := (hr.queue i).same h
  memFree := hr.memFree
  memQueue := hr.memQueue
  sending p c h₀ spot hp hproc := by
    rw [h.lock, h.conv]
    exact hr.sending p c h₀ spot hp ((h.copying p c h₀ spot).mp hproc)
  sender h₀ p hown := by
    obtain ⟨hp, c, spot, hproc⟩ := hr.sender h₀ p hown
    exact ⟨hp, c, spot, (h.copying p c h₀ spot).mpr hproc⟩
  sole p q c c' h₀ h' spot spot' hp hq hproc hproc' :=
    hr.sole p q c c' h₀ h' spot spot' hp hq ((h.copying p c h₀ spot).mp hproc)
      ((h.copying q c' h' spot').mp hproc')
  map := hr.map.slots h.slots h.size
  segFree := hr.segFree
  segQueue h₀ i hown := by
    rw [h.msgh]
    exact hr.segQueue h₀ i hown

/-! ### One header changes hands -/

/-- All is as it was but for links, for what is free, and for the message of header `mp`. -/
structure Apart (mp : Nat) (s s' : State) : Prop where
  conv : ∀ i, (s'.msgque i).alloc = (s.msgque i).alloc ∧ (s'.msgque i).seq = (s.msgque i).seq
  lock : s'.msglock = s.msglock
  pool : s'.pool = s.pool
  copying : ∀ p c h spot, s'.proc p = .copying c h spot ↔ s.proc p = .copying c h spot
  msgh : ∀ h, h ≠ mp → (s'.msgh h).msgType = (s.msgh h).msgType ∧
    (s'.msgh h).msgTs = (s.msgh h).msgTs ∧ (s'.msgh h).msgSpot = (s.msgh h).msgSpot

theorem SameData.apart (h : SameData s s') : Apart mp s s' where
  conv i := ⟨(plain_fields (h.que i)).1, (plain_fields (h.que i)).2.1⟩
  lock := h.lock
  pool := h.pool
  copying := h.copying
  msgh x _ := by
    rw [h.msgh]
    exact ⟨rfl, rfl, rfl⟩

theorem Apart.trans {s₁ s₂ : State} (h : Apart mp s s₁) (h' : Apart mp s₁ s₂) : Apart mp s s₂ where
  conv i := ⟨(h'.conv i).1.trans (h.conv i).1, (h'.conv i).2.trans (h.conv i).2⟩
  lock := h'.lock.trans h.lock
  pool := h'.pool.trans h.pool
  copying p c x spot := (h'.copying p c x spot).trans (h.copying p c x spot)
  msgh x hx := by
    obtain ⟨htype, hts, hspot⟩ := h.msgh x hx
    obtain ⟨htype', hts', hspot'⟩ := h'.msgh x hx
    exact ⟨htype'.trans htype, hts'.trans hts, hspot'.trans hspot⟩

theorem Apart.msg (h : Apart mp s s') {x : Nat} (hx : x ≠ mp) : s'.msg info x = s.msg info x := by
  obtain ⟨htype, hts, hspot⟩ := h.msgh x hx
  unfold State.msg
  rw [htype, hts, hspot, h.pool]

theorem Apart.load (h : Apart mp s s') {xs : List Nat} (hmp : mp ∉ xs) : load s' xs = load s xs := by
  induction xs with
  | nil => rfl
  | cons x xs ih =>
    have hx : x ≠ mp := fun heq => hmp (by simp [heq])
    rw [Msg.load, Msg.load, ih fun hmem => hmp (.tail _ hmem), (h.msgh x hx).2.1]

variable {seg' : Nat → Set Nat} {cells' : Nat → List Nat} {free' : List Nat} {dst : Owner}

/-- Header `mp`, which is not one of a sender, gets another owner, who is none either. -/
theorem Rep.move (hr : Rep info cap run s own seg cells free) (hsame : Apart mp s s')
    (hmp : mp < info.msgtql) (hfrom : ∀ p, own mp ≠ .sending p) (hto : ∀ p, dst ≠ .sending p)
    (hfree : Linked s'.next s'.msgfp free') (hqueue : ∀ i, QueueRep s' i (cells' i))
    (hmemFree : ∀ h, h ∈ free' ↔ if h = mp then dst = .free else h ∈ free)
    (hmemQueue : ∀ i h, h ∈ cells' i ↔ if h = mp then dst = .queue i else h ∈ cells i)
    (hseg : ∀ h, h ≠ mp → seg' h = seg h) (hmap : Resmap.Apportioned cap s'.msgmap seg')
    (hsegFree : dst = .free → seg' mp = ∅) (hsegQueue : ∀ i, dst = .queue i →
      seg' mp = space info (s'.msgh mp).msgTs (s'.msgh mp).msgSpot ∧ ((s'.msgh mp).msgTs ≠ 0 →
        (s'.msgh mp).msgSpot + 1 + btoq info (s'.msgh mp).msgTs ≤ Resmap.ulong)) :
    Rep info cap run s' (Function.update own mp dst) seg' cells' free' where
  freeList := hfree
  queue := hqueue
  memFree h := by
    rw [hmemFree]
    split_ifs with hh
    · rw [hh, update_self]
      exact ⟨fun heq => ⟨hmp, heq⟩, fun heq => heq.2⟩
    · rw [update_of_ne hh]
      exact hr.memFree h
  memQueue i h := by
    rw [hmemQueue]
    split_ifs with hh
    · rw [hh, update_self]
      exact ⟨fun heq => ⟨hmp, heq⟩, fun heq => heq.2⟩
    · rw [update_of_ne hh]
      exact hr.memQueue i h
  sending p c h spot hp hproc := by
    obtain ⟨hlt, hown, hrest⟩ := hr.sending p c h spot hp ((hsame.copying p c h spot).mp hproc)
    have hh : h ≠ mp := fun heq => hfrom p (heq ▸ hown)
    rw [update_of_ne hh, hseg h hh, hsame.lock, msgconv_congr s s' _ hsame.conv]
    exact ⟨hlt, hown, hrest⟩
  sender h p hown := by
    have hh : h ≠ mp := by
      intro heq
      rw [heq, update_self] at hown
      exact hto p hown
    rw [update_of_ne hh] at hown
    obtain ⟨hp, c, spot, hproc⟩ := hr.sender h p hown
    exact ⟨hp, c, spot, (hsame.copying p c h spot).mpr hproc⟩
  sole p q c c' h h' spot spot' hp hq hproc hproc' :=
    hr.sole p q c c' h h' spot spot' hp hq ((hsame.copying p c h spot).mp hproc)
      ((hsame.copying q c' h' spot').mp hproc')
  map := hmap
  segFree h hown := by
    by_cases hh : h = mp
    · rw [hh, update_self] at hown
      rw [hh]
      exact hsegFree hown
    · rw [update_of_ne hh] at hown
      rw [hseg h hh]
      exact hr.segFree h hown
  segQueue h i hown := by
    by_cases hh : h = mp
    · rw [hh, update_self] at hown
      rw [hh]
      exact hsegQueue i hown
    · rw [update_of_ne hh] at hown
      rw [hseg h hh, (hsame.msgh h hh).2.1, (hsame.msgh h hh).2.2]
      exact hr.segQueue h i hown

end Svr42.Msg

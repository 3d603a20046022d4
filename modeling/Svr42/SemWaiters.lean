import Svr42.SemAtomic

/-! Who waits in `semop`: the counts of each semaphore against the processes asleep on it, and whom the
operations wake. -/

namespace Svr42.Sem
open Function List

variable {info : Seminfo} {s s' s₁ s₂ : State} {p q i k num base : Nat} {id val : Int}
  {op : Sembuf} {ops done rest : List Sembuf} {c c' : Chan} {call call' : Call}

/-! ### Counting the waiters -/

/-- The process is waiting on `c` and no wakeup has come. -/
def Proc.waits (c : Chan) : Proc → Bool
  | .user => false
  | .asleep _ c' => c' = c
  | .ready _ c' counted => c' = c && counted

def waiting (info : Seminfo) (s : State) (c : Chan) : Nat :=
  (List.range info.nproc).countP fun p => (s.proc p).waits c

/-- The counts are the numbers of processes waiting. -/
structure Tally (info : Seminfo) (s : State) : Prop where
  slots : ∀ p, s.proc p ≠ .user → p < info.nproc
  exact : ∀ c, s.cnt c = waiting info s c

theorem countP_range_change {f g : Nat → Bool} {k n : Nat} (hk : k < n)
    (hsame : ∀ i, i ≠ k → g i = f i) :
    (range n).countP g + (f k).toNat = (range n).countP f + (g k).toNat := by
  induction n with
  | zero => exact absurd hk (Nat.not_lt_zero k)
  | succ n ih =>
    rw [range_succ, countP_append, countP_append, countP_singleton, countP_singleton]
    by_cases hkn : k = n
    · have hrest : (range n).countP g = (range n).countP f := by
        apply countP_congr
        intro i hi
        rw [hsame i (by rw [mem_range] at hi; omega)]
      rw [hrest, hkn]
      cases f n <;> cases g n <;> simp
    · rw [hsame n (Ne.symm hkn)]
      omega

theorem setProc_self (v : Proc) : (s.setProc p v).proc p = v := update_self _ _ _

theorem setProc_of_ne (v : Proc) (hq : q ≠ p) : (s.setProc p v).proc q = s.proc q :=
  update_of_ne hq _ _

theorem waiting_setProc (hp : p < info.nproc) (v : Proc) (c : Chan) :
    waiting info (s.setProc p v) c + ((s.proc p).waits c).toNat =
      waiting info s c + (v.waits c).toNat := by
  have hsame : ∀ q, q ≠ p → ((s.setProc p v).proc q).waits c = (s.proc q).waits c := by
    intro q hq
    rw [setProc_of_ne v hq]
  have hchange := countP_range_change hp hsame
  rw [setProc_self] at hchange
  exact hchange

theorem Tally.move (h : Tally info s) (hslot : p < info.nproc) {v : Proc}
    (hproc : s'.proc = (s.setProc p v).proc)
    (hcnt : ∀ c, s'.cnt c + ((s.proc p).waits c).toNat = s.cnt c + (v.waits c).toNat) :
    Tally info s' where
  slots q hq := by
    by_cases hqp : q = p
    · rw [hqp]
      exact hslot
    · rw [hproc, setProc_of_ne v hqp] at hq
      exact h.slots q hq
  exact c := by
    have hcount := waiting_setProc (s := s) hslot v c
    have hsame : waiting info s' c = waiting info (s.setProc p v) c := by
      rw [waiting, waiting, hproc]
    have hexact := h.exact c
    have hmoved := hcnt c
    omega

theorem waiting_pos (h : Tally info s) (hp : (s.proc p).waits c = true) : 0 < waiting info s c := by
  have hslot : p < info.nproc := h.slots p fun huser => by
    rw [huser] at hp
    cases hp
  exact countP_pos_iff.mpr ⟨p, mem_range.mpr hslot, hp⟩

theorem waiting_le (info : Seminfo) (s : State) (c : Chan) : waiting info s c ≤ info.nproc := by
  have hle := countP_le_length (p := fun p => (s.proc p).waits c) (l := range info.nproc)
  rw [length_range] at hle
  exact hle

theorem wakeup_waits (v : Proc) (c c' : Chan) :
    (v.wakeup c).waits c' = (v.waits c' && decide (c' ≠ c)) := by
  cases v with
  | user => rfl
  | asleep call d =>
    by_cases hd : d = c
    · by_cases hc : c' = c
      · simp [Proc.wakeup, Proc.waits, hd, hc]
      · simp [Proc.wakeup, Proc.waits, hd, Ne.symm hc]
    · by_cases hc : c' = c
      · simp [Proc.wakeup, Proc.waits, hd, hc]
      · simp [Proc.wakeup, Proc.waits, hd, hc]
  | ready call d counted =>
    by_cases hd : d = c
    · by_cases hc : c' = c
      · simp [Proc.wakeup, Proc.waits, hd, hc]
      · simp [Proc.wakeup, Proc.waits, hd, Ne.symm hc]
    · by_cases hc : c' = c
      · simp [Proc.wakeup, Proc.waits, hd, hc]
      · simp [Proc.wakeup, Proc.waits, hd, hc]

theorem wakeup_user (v : Proc) (c : Chan) : v.wakeup c = .user ↔ v = .user := by
  cases v with
  | user => simp [Proc.wakeup]
  | asleep call d => by_cases hd : d = c <;> simp [Proc.wakeup, hd]
  | ready call d counted => by_cases hd : d = c <;> simp [Proc.wakeup, hd]

theorem wakeup_asleep {v : Proc} (h : v.wakeup c = .asleep call c') : v = .asleep call c' := by
  cases v with
  | user => cases h
  | asleep call d =>
    by_cases hd : d = c
    · simp [Proc.wakeup, hd] at h
    · simpa [Proc.wakeup, hd] using h
  | ready call d counted =>
    by_cases hd : d = c <;> simp [Proc.wakeup, hd] at h

theorem setCnt_cnt (v : Nat) (c' : Chan) : (s.setCnt c v).cnt c' = if c' = c then v else s.cnt c' := by
  cases c with
  | ncnt j =>
    cases c' with
    | ncnt k =>
      by_cases hk : k = j
      · simp [State.setCnt, State.cnt, hk]
      · simp [State.setCnt, State.cnt, hk]
    | zcnt k =>
      by_cases hk : k = j
      · simp [State.setCnt, State.cnt, hk]
      · simp [State.setCnt, State.cnt, update_of_ne hk]
  | zcnt j =>
    cases c' with
    | ncnt k =>
      by_cases hk : k = j
      · simp [State.setCnt, State.cnt, hk]
      · simp [State.setCnt, State.cnt, update_of_ne hk]
    | zcnt k =>
      by_cases hk : k = j
      · simp [State.setCnt, State.cnt, hk]
      · simp [State.setCnt, State.cnt, hk]

@[simp]
theorem setCnt_proc (v : Nat) : (s.setCnt c v).proc = s.proc := by
  cases c <;> rfl

@[simp]
theorem setCnt_sema (v : Nat) : (s.setCnt c v).sema = s.sema := by
  cases c <;> rfl

@[simp]
theorem setCnt_semmap (v : Nat) : (s.setCnt c v).semmap = s.semmap := by
  cases c <;> rfl

theorem Tally.woken (h : Tally info s) (c : Chan) : Tally info (wakeprocs c (s.setCnt c 0)) where
  slots p hp := by
    refine h.slots p fun huser => hp ?_
    change ((s.setCnt c 0).proc p).wakeup c = .user
    rw [wakeup_user, setCnt_proc, huser]
  exact c' := by
    change (s.setCnt c 0).cnt c' =
      (range info.nproc).countP fun p => (((s.setCnt c 0).proc p).wakeup c).waits c'
    rw [setCnt_cnt]
    split_ifs with hc
    · rw [eq_comm, countP_eq_zero]
      intro p _
      simp [wakeup_waits, hc]
    · rw [h.exact c']
      apply countP_congr
      intro p _
      simp [wakeup_waits, hc]

def Nobody (s : State) (c : Chan) : Prop := ∀ p call, s.proc p ≠ .asleep call c

theorem wakeWaiters_nobody (h : Tally info s) (c : Chan) : Nobody (wakeWaiters c s) c := by
  intro p call hp
  unfold wakeWaiters at hp
  split_ifs at hp with hcnt
  · change ((s.setCnt c 0).proc p).wakeup c = _ at hp
    have hwaits := wakeup_waits ((s.setCnt c 0).proc p) c c
    rw [hp] at hwaits
    simp [Proc.waits] at hwaits
  · have hpos := waiting_pos h (p := p) (c := c) (by simp [hp, Proc.waits])
    rw [← h.exact c] at hpos
    exact hcnt (Nat.pos_iff_ne_zero.mp hpos)

/-! ### What the operations do to those who wait -/

/-- Processes are woken, nothing else happens to them, and the counts stay right. -/
structure Wakes (info : Seminfo) (s s' : State) : Prop where
  sema : s'.sema = s.sema
  semmap : s'.semmap = s.semmap
  slots : ∀ p, s.proc p = .user → s'.proc p = .user
  asleep : ∀ p call c, s'.proc p = .asleep call c → s.proc p = .asleep call c
  waits : ∀ p c, (s'.proc p).waits c = true → (s.proc p).waits c = true
  tally : Tally info s → Tally info s'

theorem Wakes.refl : Wakes info s s :=
  ⟨rfl, rfl, fun _ h => h, fun _ _ _ h => h, fun _ _ h => h, fun h => h⟩

theorem Wakes.trans (h : Wakes info s s₁) (h' : Wakes info s₁ s₂) : Wakes info s s₂ where
  sema := h'.sema.trans h.sema
  semmap := h'.semmap.trans h.semmap
  slots p hp := h'.slots p (h.slots p hp)
  asleep p call c hp := h.asleep p call c (h'.asleep p call c hp)
  waits p c hp := h.waits p c (h'.waits p c hp)
  tally ht := h'.tally (h.tally ht)

theorem Wakes.nobody (h : Wakes info s s') (hnone : Nobody s c) : Nobody s' c :=
  fun p call hp => hnone p call (h.asleep p call c hp)

theorem Wakes.of_same (hsema : s'.sema = s.sema) (hsemmap : s'.semmap = s.semmap)
    (hproc : s'.proc = s.proc) (hcnt : ∀ c, s'.cnt c = s.cnt c) : Wakes info s s' where
  sema := hsema
  semmap := hsemmap
  slots p hp := by
    rw [hproc]
    exact hp
  asleep p call c hp := by
    rw [hproc] at hp
    exact hp
  waits p c hp := by
    rw [hproc] at hp
    exact hp
  tally ht := ⟨fun p hp => ht.slots p (by rw [hproc] at hp; exact hp), fun c => by
      rw [hcnt, ht.exact, waiting, waiting, hproc]⟩

theorem setVal_cnt (v : Nat) (c : Chan) : (s.setVal k v).cnt c = s.cnt c := by
  cases c with
  | ncnt j =>
    by_cases hj : j = k
    · simp [State.setVal, State.cnt, hj]
    · simp [State.setVal, State.cnt, update_of_ne hj]
  | zcnt j =>
    by_cases hj : j = k
    · simp [State.setVal, State.cnt, hj]
    · simp [State.setVal, State.cnt, update_of_ne hj]

theorem Wakes.setVal (k v : Nat) : Wakes info s (s.setVal k v) :=
  Wakes.of_same rfl rfl rfl (setVal_cnt v)

theorem Wakes.undo (t : UndoTab) : Wakes info s { s with undo := t } :=
  Wakes.of_same rfl rfl rfl fun c => by cases c <;> rfl

theorem Wakes.woken (c : Chan) : Wakes info s (wakeprocs c (s.setCnt c 0)) where
  sema := setCnt_sema 0
  semmap := setCnt_semmap 0
  slots p hp := by
    change ((s.setCnt c 0).proc p).wakeup c = .user
    rw [wakeup_user, setCnt_proc]
    exact hp
  asleep p call d hp := by
    change ((s.setCnt c 0).proc p).wakeup c = _ at hp
    rw [setCnt_proc] at hp
    exact wakeup_asleep hp
  waits p d hp := by
    change (((s.setCnt c 0).proc p).wakeup c).waits d = true at hp
    rw [setCnt_proc, wakeup_waits, Bool.and_eq_true] at hp
    exact hp.1
  tally ht := ht.woken c

theorem Wakes.wakeWaiters (c : Chan) : Wakes info s (wakeWaiters c s) := by
  unfold Sem.wakeWaiters
  split_ifs with hcnt
  · exact Wakes.woken c
  · exact Wakes.refl

def Quiet (s s' : State) : Chan → Prop
  | .ncnt k => (s'.sem k).semval ≤ (s.sem k).semval
  | .zcnt k => (s.sem k).semval ≠ 0 → (s'.sem k).semval ≠ 0

/-- Whoever had something to wait for and got it is awake. -/
structure Calm (info : Seminfo) (s s' : State) : Prop extends Wakes info s s' where
  quiet : Tally info s → ∀ p call c, s'.proc p = .asleep call c → Quiet s s' c

theorem Quiet.of_same (h : ∀ k, (s'.sem k).semval = (s.sem k).semval) (c : Chan) : Quiet s s' c := by
  cases c with
  | ncnt k => exact le_of_eq (h k)
  | zcnt k =>
    intro hk
    rw [h]
    exact hk

theorem Quiet.trans (h : Quiet s s₁ c) (h' : Quiet s₁ s₂ c) : Quiet s s₂ c := by
  cases c with
  | ncnt k => exact le_trans h' h
  | zcnt k => exact fun hk => h' (h hk)

theorem Calm.of_same (h : Wakes info s s') (hsame : ∀ k, (s'.sem k).semval = (s.sem k).semval) :
    Calm info s s' :=
  ⟨h, fun _ _ _ c _ => Quiet.of_same hsame c⟩

theorem Calm.refl : Calm info s s := Calm.of_same Wakes.refl fun _ => rfl

theorem Calm.trans (h : Calm info s s₁) (h' : Calm info s₁ s₂) : Calm info s s₂ where
  toWakes := h.toWakes.trans h'.toWakes
  quiet ht p call c hp :=
    (h.quiet ht p call c (h'.asleep p call c hp)).trans (h'.quiet (h.tally ht) p call c hp)

/-- A semaphore that gets the value `v` from whoever looks for those who wait. -/
theorem calm_set {v : Nat} (h : Wakes info (s.setVal k v) s')
    (hvalue : ∀ q, (s'.sem q).semval = ((s.setVal k v).sem q).semval)
    (hup : Tally info s → (s.sem k).semval < v → Nobody s' (.ncnt k))
    (hzero : Tally info s → v = 0 → Nobody s' (.zcnt k)) : Calm info s s' where
  toWakes := (Wakes.setVal k v).trans h
  quiet ht p call c hp := by
    cases c with
    | ncnt j =>
      change (s'.sem j).semval ≤ (s.sem j).semval
      rw [hvalue, setVal_semval]
      by_cases hj : j = k
      · rw [if_pos hj]
        by_contra hlt
        rw [hj] at hlt hp
        exact hup ht (not_le.mp hlt) p call hp
      · rw [if_neg hj]
    | zcnt j =>
      intro hold
      rw [hvalue, setVal_semval]
      split_ifs with hj
      · intro hv
        rw [hj] at hp
        exact hzero ht hv p call hp
      · exact hold

theorem wakes_if (info : Seminfo) (s : State) (c : Chan) (b : Prop) [Decidable b] :
    Wakes info s (if b then wakeWaiters c s else s) ∧
      (Tally info s → b → Nobody (if b then wakeWaiters c s else s) c) ∧
      ∀ q, ((if b then wakeWaiters c s else s).sem q).semval = (s.sem q).semval := by
  split_ifs with hb
  · exact ⟨Wakes.wakeWaiters c, fun ht _ => wakeWaiters_nobody ht c, fun _ => wakeWaiters_semval⟩
  · exact ⟨Wakes.refl, fun _ hb' => absurd hb' hb, fun _ => rfl⟩

theorem Calm.change (k : Nat) (v : Int)
    (hexact : (ushort ((s.sem k).semval + v) : Int) = (s.sem k).semval + v) :
    Calm info s (change k v s) := by
  unfold Sem.change
  dsimp only
  generalize hw : ushort ((s.sem k).semval + v) = w at hexact ⊢
  obtain ⟨hwakes, hnobody, hsame⟩ := wakes_if info (s.setVal k w) (.ncnt k) (0 < v)
  generalize (if 0 < v then wakeWaiters (.ncnt k) (s.setVal k w) else s.setVal k w) = s₁
    at hwakes hnobody hsame ⊢
  obtain ⟨hwakes', hnobody', hsame'⟩ := wakes_if info s₁ (.zcnt k) ((s₁.sem k).semval = 0)
  have hset : (s₁.sem k).semval = w := by
    rw [hsame, setVal_semval, if_pos rfl]
  refine calm_set (hwakes.trans hwakes') (fun q => (hsame' q).trans (hsame q)) (fun ht hup => ?_)
    fun ht hzero => ?_
  · exact hwakes'.nobody (hnobody ((Wakes.setVal k w).tally ht) (by omega))
  · exact hnobody' (hwakes.tally ((Wakes.setVal k w).tally ht)) (hset.trans hzero)

theorem Calm.assign (k v : Nat) : Calm info s (assign k v s) := by
  unfold Sem.assign
  split_ifs with hv
  · refine calm_set (Wakes.wakeWaiters _) (fun _ => wakeWaiters_semval) (fun ht _ => ?_)
      fun _ hzero => absurd hzero hv
    exact wakeWaiters_nobody ((Wakes.setVal k v).tally ht) _
  · refine calm_set (Wakes.wakeWaiters _) (fun _ => wakeWaiters_semval) (fun _ hup => ?_)
      fun ht _ => wakeWaiters_nobody ((Wakes.setVal k v).tally ht) _
    rw [not_not.mp hv] at hup
    exact absurd hup (Nat.not_lt_zero _)

theorem Calm.assignAll (vals : List Nat) : ∀ {s : State} (k : Nat), Calm info s (assignAll vals k s) := by
  induction vals with
  | nil => exact fun _ => Calm.refl
  | cons v vals ih => exact fun k => (Calm.assign k v).trans (ih (k + 1))

theorem calm_clear (info : Seminfo) (s : State) (k : Nat) : Calm info s (clear k s) ∧ (Tally info s →
    Nobody (clear k s) (.ncnt k) ∧ Nobody (clear k s) (.zcnt k)) := by
  have hncnt : Wakes info (s.setVal k 0) (wakeWaiters (.ncnt k) (s.setVal k 0)) := Wakes.wakeWaiters _
  have hzcnt : Wakes info (wakeWaiters (.ncnt k) (s.setVal k 0)) (clear k s) := Wakes.wakeWaiters _
  have hnobody : Tally info s → Nobody (clear k s) (.ncnt k) ∧ Nobody (clear k s) (.zcnt k) := by
    intro ht
    have ht' := (Wakes.setVal k 0).tally ht
    exact ⟨hzcnt.nobody (wakeWaiters_nobody ht' _), wakeWaiters_nobody (hncnt.tally ht') _⟩
  refine ⟨calm_set (hncnt.trans hzcnt) (fun _ => ?_) (fun ht _ => (hnobody ht).1)
    fun ht _ => (hnobody ht).2, hnobody⟩
  exact wakeWaiters_semval.trans wakeWaiters_semval

theorem calm_clearAll (info : Seminfo) (n : Nat) : ∀ (s : State) (k : Nat), Calm info s (clearAll n k s) ∧
    (Tally info s → ∀ j, k ≤ j → j < k + n →
      Nobody (clearAll n k s) (.ncnt j) ∧ Nobody (clearAll n k s) (.zcnt j)) := by
  induction n with
  | zero => exact fun _ k => ⟨Calm.refl, fun _ j hlow hhigh => by omega⟩
  | succ n ih =>
    intro s k
    obtain ⟨hcalm, hnobody⟩ := calm_clear info s k
    obtain ⟨hcalm', hnobody'⟩ := ih (clear k s) (k + 1)
    refine ⟨hcalm.trans hcalm', fun ht j hlow hhigh => ?_⟩
    by_cases hj : j = k
    · rw [hj]
      exact ⟨hcalm'.nobody (hnobody ht).1, hcalm'.nobody (hnobody ht).2⟩
    · exact hnobody' (hcalm.tally ht) j (by omega) (by omega)

theorem Calm.exitEntry (u : Undo) : Calm info s (exitEntry info u s) := by
  unfold Sem.exitEntry
  cases semconv info s u.unId with
  | none => exact Calm.refl
  | some i =>
    dsimp only
    split
    · exact Calm.refl
    · rename_i hin
      generalize hk : (s.sema i).semBase + u.unNum = k at hin ⊢
      generalize hv : ((s.sem k).semval : Int) + u.unAoe = v at hin ⊢
      have hvmx := info.semvmxLe
      have hexact := ushort_eq (v := v) (by omega) (by omega)
      generalize ushort v = w at hexact ⊢
      obtain ⟨hwakes, hnobody, hsame⟩ := wakes_if info (s.setVal k w) (.zcnt k) (v = 0)
      generalize (if v = 0 then wakeWaiters (.zcnt k) (s.setVal k w) else s.setVal k w) = s₁
        at hwakes hnobody hsame ⊢
      obtain ⟨hwakes', hnobody', hsame'⟩ := wakes_if info s₁ (.ncnt k) (0 < u.unAoe)
      refine calm_set (hwakes.trans hwakes') (fun q => (hsame' q).trans (hsame q))
        (fun ht hup => ?_) fun ht hzero => ?_
      · exact hnobody' (hwakes.tally ((Wakes.setVal k w).tally ht)) (by omega)
      · exact hwakes'.nobody (hnobody ((Wakes.setVal k w).tally ht) (by omega))

theorem Calm.exitEntries (ents : List Undo) : Calm info s (ents.foldr (Sem.exitEntry info) s) := by
  induction ents with
  | nil => exact Calm.refl
  | cons u ents ih => exact ih.trans (Calm.exitEntry u)

theorem Calm.semexit (p : Nat) : Calm info s (semexit info p s) := by
  unfold Sem.semexit
  cases s.undo.semUndo p with
  | none => exact Calm.refl
  | some up =>
    dsimp only
    split
    · exact Calm.of_same (Wakes.undo _) fun _ => rfl
    · exact (Calm.exitEntries _).trans (Calm.of_same (Wakes.undo _) fun _ => rfl)

/-! ### Going to sleep -/

theorem undoOp_wakes {error : Option Errno} (heq : undoOp info p op val id s = (s', error)) :
    Wakes info s s' := by
  have hs' : (undoOp info p op val id s).1 = s' := by rw [heq]
  rw [← hs']
  unfold undoOp
  split
  · exact Wakes.undo _
  · exact Wakes.refl

theorem semundo_wakes (info : Seminfo) (p : Nat) (id : Int) (base : Nat) (done : List Sembuf) :
    ∀ {s : State}, Wakes info s (semundo info p id base done s) := by
  induction done with
  | nil => exact Wakes.refl
  | cons op done ih =>
    intro s
    rw [semundo]
    split
    · exact ih
    · exact ((Wakes.setVal _ _).trans (undoOp_wakes rfl)).trans ih

/-- The array gets as far as `op`, where it has to wait; `l'` is the ledger there. -/
structure Halts (info : Seminfo) (p : Nat) (id : Int) (base : Nat) (sops : List Sembuf) (l : Ledger)
    (front : List Sembuf) (op : Sembuf) (l' : Ledger) : Prop where
  split : ∃ tail, sops = front ++ op :: tail
  before : front.foldlM (applyOp info p id base) l = some l'
  cannot : ¬ CanDo info op (l'.value (base + op.semNum))
  waits : op.ipcNowait = false

def chanOf (base : Nat) (op : Sembuf) : Chan :=
  if op.semOp < 0 then .ncnt (base + op.semNum) else .zcnt (base + op.semNum)

/-- What the loop does to those who wait, and where it goes to sleep. -/
structure Stretch (info : Seminfo) (p : Nat) (id : Int) (base : Nat) (rest : List Sembuf) (s : State)
    (r : State × Outcome) : Prop where
  wakes : Wakes info s r.1
  calm : r.2 = .ret none → Calm info s r.1
  halts : ∀ c, r.2 = .sleep c → ∃ front op l', Halts info p id base rest s.ledger front op l' ∧
    op.semOp ≤ 0 ∧ c = chanOf base op

theorem Halts.cons {front : List Sembuf} {op' : Sembuf} {l l₁ l' : Ledger}
    (h : Halts info p id base rest l₁ front op' l') (happly : applyOp info p id base l op = some l₁) :
    Halts info p id base (op :: rest) l (op :: front) op' l' where
  split := by
    obtain ⟨tail, heq⟩ := h.split
    exact ⟨tail, by rw [heq, cons_append]⟩
  before := by
    rw [foldlM_cons, happly]
    exact h.before
  cannot := h.cannot
  waits := h.waits

theorem perform_stretch (rest : List Sembuf) : ∀ (done : List Sembuf) {s : State}, Sound info s →
    Stretch info p id base rest s (perform info p id base done rest s) := by
  induction rest with
  | nil => exact fun _ _ _ => ⟨Wakes.refl, fun _ => Calm.refl, fun c heq => (by cases heq)⟩
  | cons op rest ih =>
    intro done s h
    have hturn := perform_turn info p id base done op rest s
    generalize perform info p id base done (op :: rest) s = r at hturn ⊢
    cases hturn with
    | stop hne hblocks =>
      refine ⟨semundo_wakes info p id base done, fun heq => absurd heq hne, fun c heq => ?_⟩
      have hb := hblocks c heq
      refine ⟨[], op, s.ledger, ⟨⟨rest, rfl⟩, rfl, hb.cannot, hb.waits⟩, ?_⟩
      unfold chanOf
      rcases hb.chan with ⟨hneg, hc⟩ | ⟨hzero, hc⟩
      · rw [if_pos hneg]
        exact ⟨by omega, hc⟩
      · rw [if_neg (by omega)]
        exact ⟨by omega, hc⟩
    | fail heq =>
      exact ⟨(undoOp_wakes heq).trans (semundo_wakes info p id base done),
        fun hret => (by cases hret), fun c hsleep => (by cases hsleep)⟩
    | zero hzero hcan =>
      obtain ⟨hwakes, hcalm, hhalts⟩ := ih (op :: done) h
      refine ⟨hwakes, hcalm, fun c hsleep => ?_⟩
      obtain ⟨front, op', l', hhalt, hop, hc⟩ := hhalts c hsleep
      exact ⟨op :: front, op', l', hhalt.cons (apply_zero hzero hcan), hop, hc⟩
    | @go s' heq hne hcan =>
      have hundone := undoOp_done h heq
      obtain ⟨hdid, hsound⟩ := did_change h hne hcan hundone
      have hexact : (ushort ((s'.sem (base + op.semNum)).semval + op.semOp) : Int) =
          (s'.sem (base + op.semNum)).semval + op.semOp := by
        have hvalue := hdid.value (base + op.semNum)
        rw [change_semval, if_pos rfl, if_pos rfl] at hvalue
        rw [hvalue, hundone.sem]
      have hturn : Calm info s (change (base + op.semNum) op.semOp s') :=
        (Calm.of_same (undoOp_wakes heq) fun k => by rw [hundone.sem]).trans
          (Calm.change _ _ hexact)
      obtain ⟨hwakes', hcalm, hhalts⟩ := ih (op :: done) hsound
      refine ⟨hturn.toWakes.trans hwakes', fun hret => hturn.trans (hcalm hret), fun c hsleep => ?_⟩
      obtain ⟨front, op', l', hhalt, hop, hc⟩ := hhalts c hsleep
      exact ⟨op :: front, op', l', hhalt.cons (apply_did h hdid hcan), hop, hc⟩

theorem perform_calm (h : Sound info s) (sops : List Sembuf) :
    Calm info s (perform info p id base [] sops s).1 := by
  have hstretch : Stretch info p id base sops s (perform info p id base [] sops s) :=
    perform_stretch sops [] h
  have hperformed : Performed info p id base sops s s (perform info p id base [] sops s) :=
    perform_ok sops h RollsBack.start
  by_cases hret : (perform info p id base [] sops s).2 = .ret none
  · exact hstretch.calm hret
  · exact Calm.of_same hstretch.wakes (hperformed.nothing hret).value

end Svr42.Sem

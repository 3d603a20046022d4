import Svr42.SemWaiters

/-! No wakeup of `semop` is lost: whoever is asleep has something to wait for, in every run but those
in which an array waits for zero where it has lowered the semaphore itself. -/

namespace Svr42.Sem
open Bool Function List Option

variable {info : Seminfo} {s s' : State} {p i k num base : Nat} {id : Int} {op : Sembuf}
  {ops : List Sembuf} {c : Chan} {call : Call}

/-! ### What a process asleep waits for -/

def net (num : Nat) : List Sembuf → Int
  | [] => 0
  | op :: rest => (if op.semNum = num then op.semOp else 0) + net num rest

theorem foldlM_value {l l' : Ledger} (h : ops.foldlM (applyOp info p id base) l = some l') (num : Nat) :
    l'.value (base + num) = l.value (base + num) + net num ops := by
  induction ops generalizing l with
  | nil =>
    cases h
    exact (Int.add_zero _).symm
  | cons op ops ih =>
    rw [foldlM_cons] at h
    obtain ⟨l₁, hop, hrest⟩ := bind_eq_some_iff.mp h
    unfold applyOp at hop
    dsimp only at hop
    split at hop
    · cases hop
      rw [ih hrest, net]
      by_cases hnum : op.semNum = num
      · simp [hnum, Int.add_assoc]
      · simp [hnum, Ne.symm hnum]
    · cases hop

/-- The operation `op`, after `front`, is what keeps the process asleep on `c`. -/
structure StuckAt (info : Seminfo) (s : State) (call : Call) (c : Chan) (i : Nat)
    (front : List Sembuf) (op : Sembuf) : Prop where
  conv : semconv info s call.semid = some i
  split : ∃ tail, call.sops = front ++ op :: tail
  inside : op.semNum < (s.sema i).semNsems
  chan : c = chanOf (s.sema i).semBase op
  short : op.semOp < 0 →
    ((s.sem ((s.sema i).semBase + op.semNum)).semval : Int) + net op.semNum front < -op.semOp
  nonzero : ¬ op.semOp < 0 → op.semOp = 0 ∧ 0 ≤ net op.semNum front ∧
    0 < ((s.sem ((s.sema i).semBase + op.semNum)).semval : Int) + net op.semNum front

def Stuck (info : Seminfo) (s : State) (call : Call) (c : Chan) : Prop :=
  ∃ i front op, StuckAt info s call c i front op

def Completes (info : Seminfo) (p : Nat) (call : Call) (i : Nat) (s : State) : Prop :=
  (call.sops.foldlM (applyOp info p call.semid (s.sema i).semBase) s.ledger).isSome = true

theorem StuckAt.not_completes {front : List Sembuf} (h : StuckAt info s call c i front op) (p : Nat) :
    ¬ Completes info p call i s := by
  intro hall
  obtain ⟨l', hfold⟩ := isSome_iff_exists.mp hall
  obtain ⟨tail, hsops⟩ := h.split
  rw [hsops, foldlM_append] at hfold
  obtain ⟨l, hfront, hrest⟩ := bind_eq_some_iff.mp hfold
  rw [foldlM_cons] at hrest
  obtain ⟨l₁, hop, -⟩ := bind_eq_some_iff.mp hrest
  have hvalue : l.value ((s.sema i).semBase + op.semNum) =
      (s.sem ((s.sema i).semBase + op.semNum)).semval + net op.semNum front :=
    foldlM_value hfront op.semNum
  have hcannot : ¬ CanDo info op (l.value ((s.sema i).semBase + op.semNum)) := by
    rw [hvalue]
    unfold CanDo
    by_cases hneg : op.semOp < 0
    · rw [if_neg (by omega), if_pos hneg]
      exact not_le.mpr (h.short hneg)
    · obtain ⟨hzero, -, hpos⟩ := h.nonzero hneg
      rw [if_neg (by omega), if_neg hneg]
      omega
  unfold applyOp at hop
  rw [if_neg hcannot] at hop
  cases hop

theorem Stuck.quiet (h : Stuck info s call c) (hquiet : Quiet s s' c)
    (hsema : ∀ i, semconv info s call.semid = some i → s'.sema i = s.sema i) : Stuck info s' call c := by
  obtain ⟨i, front, op, hstuck⟩ := h
  have hi := hsema i hstuck.conv
  refine ⟨i, front, op, semconv_congr hstuck.conv hi, hstuck.split, ?_, ?_, fun hneg => ?_,
    fun hneg => ?_⟩
  · rw [hi]
    exact hstuck.inside
  · rw [hi]
    exact hstuck.chan
  · rw [hi]
    have hshort := hstuck.short hneg
    rw [hstuck.chan, chanOf, if_pos hneg] at hquiet
    unfold Quiet at hquiet
    omega
  · rw [hi]
    obtain ⟨hzero, hnet, hpos⟩ := hstuck.nonzero hneg
    rw [hstuck.chan, chanOf, if_neg hneg] at hquiet
    refine ⟨hzero, hnet, ?_⟩
    by_cases hval : (s.sem ((s.sema i).semBase + op.semNum)).semval = 0
    · omega
    · have hval' := hquiet hval
      omega

/-! ### Steps -/

/-- The counts are right, and whoever is asleep is stuck. -/
structure Waiters (info : Seminfo) (s : State) : Prop where
  tally : Tally info s
  stuck : ∀ p call c, s.proc p = .asleep call c → Stuck info s call c

theorem Waiters.calm (h : Waiters info s) (hcalm : Calm info s s') : Waiters info s' where
  tally := hcalm.tally h.tally
  stuck p call c hp := (h.stuck p call c (hcalm.asleep p call c hp)).quiet
    (hcalm.quiet h.tally p call c hp) fun i _ => by rw [hcalm.sema]

theorem Waiters.setProc (h : Waiters info s) {v : Proc} (hslot : p < info.nproc)
    (hidle : ∀ c, (s.proc p).waits c = v.waits c) (hawake : ∀ call c, v ≠ .asleep call c) :
    Waiters info (s.setProc p v) where
  tally := h.tally.move hslot rfl fun c => congrArg (s.cnt c + ·.toNat) (hidle c)
  stuck q call c hq := by
    by_cases hqp : q = p
    · rw [hqp, setProc_self] at hq
      exact absurd hq (hawake call c)
    · rw [setProc_of_ne v hqp] at hq
      exact (h.stuck q call c hq).quiet (Quiet.of_same (fun _ => rfl) c) fun _ _ => rfl

/-- The array comes to wait for zero, on a semaphore that its operations before have lowered. -/
def LowersFirst (info : Seminfo) (s : State) (p : Nat) (call : Call) : Prop :=
  ∃ i front op l', semconv info s call.semid = some i ∧
    Halts info p call.semid (s.sema i).semBase call.sops s.ledger front op l' ∧
    op.semOp = 0 ∧ net op.semNum front < 0

theorem Tally.sleep (h : Tally info s) (hslot : p < info.nproc) (hidle : ∀ c, (s.proc p).waits c = false)
    (call : Call) (c : Chan) :
    Tally info ((s.setCnt c (ushort (s.cnt c + 1))).setProc p (.asleep call c)) := by
  refine h.move (v := .asleep call c) hslot ?_ fun d => ?_
  · change update (s.setCnt c _).proc p _ = _
    rw [setCnt_proc]
    rfl
  · change (s.setCnt c (ushort (s.cnt c + 1))).cnt d + _ = _
    rw [setCnt_cnt, hidle d]
    by_cases hd : d = c
    · -- the process that does not wait yet leaves room in the count
      have hcount := waiting_setProc (s := s) hslot (.asleep call c) c
      have hle := waiting_le info (s.setProc p (.asleep call c)) c
      have hlt := info.nprocLt
      have hone : (Proc.asleep call c).waits c = true := by simp [Proc.waits]
      rw [hone, hidle c] at hcount
      simp only [toNat_false, toNat_true] at hcount
      have hexact := ushort_eq (v := s.cnt c + 1) (by omega) (by rw [h.exact c]; omega)
      rw [hd, if_pos rfl, hone]
      simp only [toNat_false, toNat_true]
      omega
    · have hzero : (Proc.asleep call c).waits d = false := by simp [Proc.waits, Ne.symm hd]
      rw [if_neg hd, hzero]

section

variable (h : Waiters info s)
include h

theorem Waiters.attempt (hs : Sound info s) (hslot : p < info.nproc)
    (hidle : ∀ c, (s.proc p).waits c = false) (hconv : semconv info s call.semid = some i)
    (hin : ∀ op ∈ call.sops, op.semNum < (s.sema i).semNsems) (hlow : ¬ LowersFirst info s p call) :
    Waiters info (attempt info p i call s).1 := by
  have hcalm : Calm info s (perform info p call.semid (s.sema i).semBase [] call.sops s).1 :=
    perform_calm hs call.sops
  have hstretch : Stretch info p call.semid (s.sema i).semBase call.sops s
      (perform info p call.semid (s.sema i).semBase [] call.sops s) :=
    perform_stretch call.sops [] hs
  have hperformed : Performed info p call.semid (s.sema i).semBase call.sops s s
      (perform info p call.semid (s.sema i).semBase [] call.sops s) :=
    perform_ok call.sops hs RollsBack.start
  unfold Sem.attempt
  generalize perform info p call.semid (s.sema i).semBase [] call.sops s = r at hcalm hstretch hperformed
  obtain ⟨s₁, outcome⟩ := r
  have h₁ := h.calm hcalm
  have hidle₁ : ∀ c, (s₁.proc p).waits c = false := fun c => by
    rw [eq_false_iff]
    intro hwaits
    have hwaits' := hcalm.waits p c hwaits
    rw [hidle c] at hwaits'
    cases hwaits'
  cases outcome with
  | ret error =>
    exact h₁.setProc hslot hidle₁ fun call c heq => by cases heq
  | sleep c =>
    refine ⟨h₁.tally.sleep hslot hidle₁ call c, fun q call' d hq => ?_⟩
    by_cases hqp : q = p
    · rw [hqp, setProc_self] at hq
      cases hq
      obtain ⟨front, op, l', hhalt, hop, hc⟩ := hstretch.halts c rfl
      obtain ⟨tail, hsops⟩ := hhalt.split
      have hmem : op ∈ call.sops := by simp [hsops]
      have hvalue : l'.value ((s.sema i).semBase + op.semNum) =
          (s.sem ((s.sema i).semBase + op.semNum)).semval + net op.semNum front :=
        foldlM_value hhalt.before op.semNum
      have hsame : ∀ k, (((s₁.setCnt c (ushort (s₁.cnt c + 1))).setProc p (.asleep call c)).sem
          k).semval = (s.sem k).semval := fun k =>
        (setCnt_semval _).trans ((hperformed.nothing (by simp)).value k)
      have hsema : ((s₁.setCnt c (ushort (s₁.cnt c + 1))).setProc p (.asleep call c)).sema =
          s.sema := (setCnt_sema _).trans hcalm.sema
      have hcannot := hhalt.cannot
      rw [hvalue] at hcannot
      unfold CanDo at hcannot
      rw [if_neg (by omega)] at hcannot
      refine ⟨i, front, op, semconv_congr hconv (congrFun hsema i), hhalt.split, ?_, ?_,
        fun hneg => ?_, fun hneg => ?_⟩
      · rw [hsema]
        exact hin op hmem
      · rw [hsema]
        exact hc
      · rw [hsema, hsame]
        rw [if_pos hneg] at hcannot
        exact not_le.mp hcannot
      · rw [hsema, hsame]
        rw [if_neg hneg] at hcannot
        have hzero : op.semOp = 0 := by omega
        have hnet : 0 ≤ net op.semNum front :=
          not_lt.mp fun hlt => hlow ⟨i, front, op, l', hconv, hhalt, hzero, hlt⟩
        exact ⟨hzero, hnet, by omega⟩
    · rw [setProc_of_ne _ hqp, setCnt_proc] at hq
      exact (h₁.stuck q call' d hq).quiet (Quiet.of_same (fun _ => setCnt_semval _) d)
        fun _ _ => congrFun (setCnt_sema _) _

theorem Waiters.interrupt {counted : Bool} (hp : s.proc p = .ready call c counted)
    (hguard : counted = false → s.cnt c ≤ 1) : Waiters info (interrupt p c s) := by
  have hslot : p < info.nproc := h.tally.slots p (by rw [hp]; simp)
  unfold Sem.interrupt
  split_ifs with hcnt
  · have hwoken : Waiters info (wakeprocs c (s.setCnt c 0)) :=
      h.calm (Calm.of_same (Wakes.woken c) fun _ => setCnt_semval 0)
    refine hwoken.setProc hslot (fun d => ?_) fun call d heq => (by cases heq)
    change (((s.setCnt c 0).proc p).wakeup c).waits d = false
    rw [setCnt_proc, hp]
    simp [Proc.wakeup, Proc.waits]
  · have hcounted : counted = true := by
      rw [← Bool.not_eq_false]
      exact fun hfalse => hcnt (hguard hfalse)
    rw [hcounted] at hp
    refine ⟨h.tally.move (v := .user) hslot ?_ fun d => ?_, fun q call' d hq => ?_⟩
    · change update (s.setCnt c _).proc p _ = _
      rw [setCnt_proc]
      rfl
    · change (s.setCnt c (s.cnt c - 1)).cnt d + _ = _
      rw [setCnt_cnt, hp]
      split_ifs with hd
      · rw [hd]
        simp only [Proc.waits, decide_true, Bool.and_true, Bool.toNat_true, Bool.toNat_false]
        omega
      · simp [Proc.waits, Ne.symm hd]
    · by_cases hqp : q = p
      · rw [hqp, setProc_self] at hq
        cases hq
      · rw [setProc_of_ne _ hqp, setCnt_proc] at hq
        exact (h.stuck q call' d hq).quiet (Quiet.of_same (fun _ => setCnt_semval _) d)
          fun _ _ => congrFun (setCnt_sema _) _

theorem Waiters.semop (hs : Sound info s) (hslot : p < info.nproc) (hp : s.proc p = .user)
    (hlow : ¬ LowersFirst info s p call) : Waiters info (semop info p call s).1 := by
  unfold Sem.semop
  cases hconv : semconv info s call.semid with
  | none => exact h
  | some i =>
    dsimp only
    split
    · exact h
    · split
      · exact h
      · split
        · exact h
        · rename_i hin
          refine h.attempt hs hslot (fun c => by rw [hp]; rfl) hconv (fun op hop => ?_) hlow
          exact not_le.mp fun hle => hin ⟨op, hop, hle⟩

theorem Waiters.resume (hs : Sound info s) (hp : s.proc p = .ready call c false)
    (sops : Option (List Sembuf)) (hin : InRange info s { call with sops := sops.getD call.sops })
    (hlow : ¬ LowersFirst info s p { call with sops := sops.getD call.sops }) :
    Waiters info (resume info p call sops s).1 := by
  have hslot : p < info.nproc := h.tally.slots p (by rw [hp]; simp)
  have hidle : ∀ c, (s.proc p).waits c = false := fun d => by simp [hp, Proc.waits]
  have hleave : Waiters info (s.setProc p .user) :=
    h.setProc hslot hidle fun call d heq => (by cases heq)
  unfold Sem.resume
  cases hconv : semconv info s call.semid with
  | none => exact hleave
  | some i =>
    cases sops with
    | none => exact hleave
    | some sops => exact h.attempt hs hslot hidle hconv (hin i hconv) hlow

theorem Waiters.setSema (hproc : s'.proc = s.proc) (hsem : s'.sem = s.sem)
    (hsema : ∀ j, j ≠ i → s'.sema j = s.sema j)
    (hnone : ∀ p call c, s.proc p = .asleep call c → semconv info s call.semid ≠ some i) :
    Waiters info s' where
  tally := by
    refine ⟨fun p hp => h.tally.slots p (by rw [hproc] at hp; exact hp), fun c => ?_⟩
    have hcnt : s'.cnt c = s.cnt c := by
      cases c <;> simp [State.cnt, hsem]
    rw [hcnt, h.tally.exact c, waiting, waiting, hproc]
  stuck p call c hp := by
    rw [hproc] at hp
    refine (h.stuck p call c hp).quiet (Quiet.of_same (fun k => by rw [hsem]) c) fun j hj => ?_
    exact hsema j fun heq => hnone p call c hp (heq ▸ hj)

theorem Waiters.rmid {old : Bool} (hrmid : rmid info old id i s = some s') : Waiters info s' := by
  obtain ⟨semmap, -, heq⟩ := map_eq_some_iff.mp hrmid
  have hundo : Calm info s { s with undo := semunrm info id 0 (s.sema i).semNsems s.undo } :=
    Calm.of_same (Wakes.undo _) fun _ => rfl
  obtain ⟨hclear, hnobody⟩ := calm_clearAll info (s.sema i).semNsems
    { s with undo := semunrm info id 0 (s.sema i).semNsems s.undo } (s.sema i).semBase
  have h₁ := h.calm (hundo.trans hclear)
  have hawake := hnobody (hundo.tally h.tally)
  have hsema := hclear.sema
  rw [← heq]
  refine h₁.setSema (i := i) rfl rfl (fun j hj => update_of_ne hj _ _) ?_
  intro p call c hp hconv
  obtain ⟨j, front, op, hstuck⟩ := h₁.stuck p call c hp
  have hj : i = j := some.inj (hconv.symm.trans hstuck.conv)
  rw [← hj] at hstuck
  have hinside := hstuck.inside
  have hchan := hstuck.chan
  rw [hsema] at hinside hchan
  change op.semNum < (s.sema i).semNsems at hinside
  have hboth := hawake ((s.sema i).semBase + op.semNum) (by omega) (by omega)
  unfold chanOf at hchan
  split at hchan
  · rw [hchan] at hp
    exact hboth.1 p call hp
  · rw [hchan] at hp
    exact hboth.2 p call hp

end

/-- Steps that nobody is lost by: no array that starts or goes on comes to wait for zero where it has
lowered the semaphore itself, a sleep that ends without a wakeup ends by a signal, with nobody else
counted if a wakeup has come before, and an array read again keeps to its set. -/
def Followed (info : Seminfo) (s : State) : Event → Prop
  | .semop p call _ => ¬ LowersFirst info s p call
  | .resume p call _ => (∃ call' c, s.proc p = .ready call' c false) ∧ InRange info s call ∧
      ¬ LowersFirst info s p call
  | .interrupt p => ∀ call c, s.proc p = .ready call c false → s.cnt c ≤ 1
  | _ => True

variable {semmap : Resmap.RMap} {event : Event} {events : List Event}

theorem step_waiters (h : Waiters info s) (hs : Sound info s) (hfollowed : Followed info s event)
    (hstep : Step info s event s') : Waiters info s' := by
  cases hstep with
  | @semget i n a semmap _ hfree _ _ _ _ =>
    refine h.setSema (i := i) rfl rfl (fun j hj => update_of_ne hj _ _) ?_
    intro p call c _ hconv
    have halloc := semconv_alloc hconv
    rw [hfree] at halloc
    cases halloc
  | rmid _ hrmid => exact h.rmid hrmid
  | setval _ =>
    unfold setval
    dsimp only
    split
    · exact h
    · split
      · exact h
      · exact h.calm ((Calm.assign _ _).trans (Calm.of_same (Wakes.undo _) fun _ => rfl))
  | setall _ _ =>
    unfold setall
    split
    · exact h
    · exact h.calm ((Calm.of_same (Wakes.undo _) fun _ => rfl).trans (Calm.assignAll _ _))
  | semop hslot hp => exact h.semop hs hslot hp hfollowed
  | @signal p call c hp =>
    refine h.setProc (h.tally.slots p (by rw [hp]; simp)) (fun d => ?_) fun call d heq =>
      (by cases heq)
    rw [hp]
    simp [Proc.waits]
  | resume hp _ =>
    obtain ⟨⟨call', c', hp'⟩, hin, hlow⟩ := hfollowed
    have heq := hp.symm.trans hp'
    rw [Proc.ready.injEq] at heq
    rw [heq.2.2] at hp
    exact h.resume hs hp _ hin hlow
  | interrupt hp =>
    refine h.interrupt hp fun hfalse => ?_
    rw [hfalse] at hp
    exact hfollowed _ _ hp
  | semexit _ _ => exact h.calm (Calm.semexit _)

theorem boot_waiters : Waiters info (boot info semmap) where
  tally := by
    refine ⟨fun p hp => absurd rfl hp, fun c => ?_⟩
    have hnone : waiting info (boot info semmap) c = 0 := countP_eq_zero.mpr fun p _ => by
      simp [boot, Proc.waits]
    rw [hnone]
    cases c <;> rfl
  stuck p call c hp := by cases hp

/-- In every run of such steps, the array of whoever is asleep cannot be done from the values as they
are, and the counts are the numbers of processes waiting. -/
theorem sem_no_lost_wakeup
    (hrun : Exec (Guarded (Step info) (Followed info)) (boot info semmap) events s) :
    (∀ p call c, s.proc p = .asleep call c → ∀ i, semconv info s call.semid = some i →
      ¬ Completes info p call i s) ∧ ∀ c, s.cnt c = waiting info s c := by
  have hboth : Sound info s ∧ Waiters info s := hrun.keeps (fun s => Sound info s ∧ Waiters info s)
      (fun _ _ _ h hstep => ⟨step_sound h.1 hstep.2, step_waiters h.2 h.1 hstep.1 hstep.2⟩)
      ⟨boot_sound, boot_waiters⟩
  refine ⟨fun p call c hp i hconv => ?_, hboth.2.tally.exact⟩
  obtain ⟨j, front, op, hstuck⟩ := hboth.2.stuck p call c hp
  have hj : i = j := some.inj (hconv.symm.trans hstuck.conv)
  rw [hj]
  exact hstuck.not_completes p

def downCall : Call := ⟨0, [⟨0, -1, false, false⟩]⟩

theorem downCall_followed (s : State) (p : Nat) : ¬ LowersFirst smallInfo s p downCall := by
  rintro ⟨i, front, op, l', -, hhalt, hzero, -⟩
  obtain ⟨tail, hsops⟩ := hhalt.split
  have hmem : op ∈ downCall.sops := by simp [hsops]
  rw [mem_singleton.mp hmem] at hzero
  cases hzero

theorem sem_no_lost_wakeup_asleep : ∃ s, ¬ Completes smallInfo 1 downCall 0 s ∧
    s.cnt (.ncnt 0) = waiting smallInfo s (.ncnt 0) := by
  have hget : Step smallInfo (boot smallInfo smallMap) (.semget 0) _ :=
    @Step.semget smallInfo (boot smallInfo smallMap) 0 2 1 _ (by decide) rfl (by decide)
      (by decide) rfl (by decide)
  have hrun : ∃ s, Exec (Guarded (Step smallInfo) (Followed smallInfo)) (boot smallInfo smallMap)
      [.semget 0, .semop 1 downCall (.sleep (.ncnt 0))] s ∧
      s.proc 1 = .asleep downCall (.ncnt 0) ∧ semconv smallInfo s downCall.semid = some 0 :=
    ⟨_, Exec.snoc (Exec.single ⟨trivial, hget⟩)
      ⟨downCall_followed _ 1, @Step.semop smallInfo _ 1 downCall (by decide) rfl⟩, rfl, rfl⟩
  obtain ⟨s, hrun, hasleep, hconv⟩ := hrun
  obtain ⟨hstuck, hcount⟩ := sem_no_lost_wakeup hrun
  exact ⟨s, hstuck 1 downCall (.ncnt 0) hasleep 0 hconv, hcount (.ncnt 0)⟩

def downZero : Call := ⟨0, [⟨0, -1, false, false⟩, ⟨0, 0, false, false⟩]⟩

/-- A semaphore at 3 goes down to 1, from where the array can be done, and its process sleeps on; a
process that is stopped in its sleep and goes on is counted twice. -/
theorem sem_wakeup_lost : (∃ events s, Exec (Step smallInfo) (boot smallInfo smallMap) events s ∧
      s.proc 1 = .asleep downZero (.zcnt 0) ∧ semconv smallInfo s downZero.semid = some 0 ∧
      Completes smallInfo 1 downZero 0 s) ∧
    ∃ events s, Exec (Step smallInfo) (boot smallInfo smallMap) events s ∧
      s.cnt (.ncnt 0) = 2 ∧ waiting smallInfo s (.ncnt 0) = 1 := by
  have hget : Step smallInfo (boot smallInfo smallMap) (.semget 0) _ :=
    @Step.semget smallInfo (boot smallInfo smallMap) 0 2 1 _ (by decide) rfl (by decide)
      (by decide) rfl (by decide)
  constructor
  · refine ⟨_, _, Exec.snoc (Exec.snoc (Exec.snoc (Exec.single hget)
      (@Step.setval smallInfo _ 0 0 0 3 rfl))
      (@Step.semop smallInfo _ 1 downZero (by decide) rfl))
      (@Step.semop smallInfo _ 0 ⟨0, [⟨0, -2, false, false⟩]⟩ (by decide) rfl), rfl, rfl, ?_⟩
    rfl
  · refine ⟨_, _, Exec.snoc (Exec.snoc (Exec.snoc (Exec.single hget)
      (@Step.semop smallInfo _ 1 downCall (by decide) rfl))
      (@Step.signal smallInfo _ 1 downCall (.ncnt 0) rfl))
      (@Step.resume smallInfo _ 1 downCall (.ncnt 0) true (some downCall.sops) rfl ?_), rfl, rfl⟩
    intro ops hops
    rw [← some.inj hops]

end Svr42.Sem

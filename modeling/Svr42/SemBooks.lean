import Svr42.SemLedger

/-! The books of the semaphores: the undo entries refer to sets that exist, and the value of a
semaphore and the adjustments for it make up a sum that SEM_UNDO operations keep, and exits too
unless they drop an adjustment. -/

namespace Svr42.Sem
open Function List Option

variable {info : Seminfo} {s s' : State} {p q i j n num low high cap : Nat} {id id' : Int}

/-! ### The books in order -/

def Refers (info : Seminfo) (s : State) : Prop :=
  ∀ q id num, s.ledger.adj q id num ≠ 0 →
    ∃ i, semconv info s id = some i ∧ num < (s.sema i).semNsems

structure Books (info : Seminfo) (cap : Nat) (s : State) : Prop where
  sound : Sound info s
  placed : Placed cap s
  refers : Refers info s
  slots : ∀ p, s.proc p ≠ .user → p < info.nproc

theorem Refers.entry (h : Refers info s) (hs : Sound info s) {u : Undo} (hu : u ∈ s.undo.entries q) :
    ∃ i, semconv info s u.unId = some i ∧ u.unNum < (s.sema i).semNsems := by
  apply h q
  have hents := hs.entsOk q
  obtain ⟨front, back, hsplit⟩ := append_of_mem hu
  change aoeOf u.unId u.unNum (s.undo.entries q) ≠ 0
  have hsorted := hents.sorted
  rw [hsplit] at hsorted ⊢
  rw [aoeOf_here ⟨rfl, rfl⟩ fun v hv hsame => ?_]
  · exact (hents.aoe u hu).1
  · have hlt := (pairwise_append.mp hsorted).2.2 v hv u (.head _)
    unfold Undo.lt at hlt
    omega

/-- What an exit does to the books. -/
theorem semexit_ledger (h : Books info cap s) (p : Nat) : (semexit info p s).sema = s.sema ∧
      (∀ q i n, (semexit info p s).ledger.adj q i n = if q = p then 0 else s.ledger.adj q i n) ∧
      ∀ id num i, semconv info s id = some i → num < (s.sema i).semNsems →
        (semexit info p s).ledger.value ((s.sema i).semBase + num) =
          settle info (s.ledger.value ((s.sema i).semBase + num)) (s.ledger.adj p id num) := by
  obtain ⟨act, free, hok⟩ := h.sound.undo
  have hents := h.sound.entsOk p
  have hrefers : ∀ u ∈ s.undo.entries p, ∃ j, semconv info s u.unId = some j ∧
      u.unNum < (s.sema j).semNsems := fun u hu => h.refers.entry h.sound hu
  have hvalue : ∀ id num i, semconv info s id = some i → num < (s.sema i).semNsems →
      ((s.undo.entries p).foldr (exitEntry info) s).sema = s.sema ∧
      ((((s.undo.entries p).foldr (exitEntry info) s).sem ((s.sema i).semBase + num)).semval : Int) =
        settle info (s.ledger.value ((s.sema i).semBase + num)) (s.ledger.adj p id num) :=
    fun id num i hconv hnum => exitEntries_value h.sound h.placed hconv hnum hents.sorted hrefers
  have hadj : ∀ {t : UndoTab}, (∀ q, t.entries q = if q = p then [] else s.undo.entries q) →
      ∀ q i n, aoeOf i n (t.entries q) = if q = p then 0 else s.ledger.adj q i n := by
    intro t ht q i n
    rw [ht]
    by_cases hq : q = p
    · rw [if_pos hq, if_pos hq]
      rfl
    · rw [if_neg hq, if_neg hq]
      rfl
  unfold semexit
  cases hp : s.undo.semUndo p with
  | none =>
    have hnil : s.undo.entries p = [] := by rw [UndoTab.entries, hp]
    rw [hnil] at hvalue
    refine ⟨rfl, fun q i n => ?_, fun id num i hconv hnum => (hvalue id num i hconv hnum).2⟩
    refine hadj (t := s.undo) (fun q => ?_) q i n
    by_cases hq : q = p
    · rw [if_pos hq, hq, hnil]
    · rw [if_neg hq]
  | some up =>
    have hentries : s.undo.entries p = (s.undo.semu up).unEnt := entries_eq hp
    rw [hentries] at hvalue
    dsimp only
    by_cases hzero : (s.undo.semu up).unEnt.length = 0
    · have hnil := length_eq_zero_iff.mp hzero
      rw [hnil] at hvalue
      rw [if_pos hzero]
      exact ⟨rfl, hadj (cleanup_ok hok hp hnil).2.2,
        fun id num i hconv hnum => (hvalue id num i hconv hnum).2⟩
    rw [if_neg hzero]
    have hsema : ∀ ents : List Undo, (ents.foldr (exitEntry info) s).sema = s.sema := by
      intro ents
      induction ents with
      | nil => rfl
      | cons u ents ih => exact (exitEntry_sema u).trans ih
    refine ⟨hsema _, ?_, fun id num i hconv hnum => (hvalue id num i hconv hnum).2⟩
    have hundo := (exitEntries_ok h.sound (s.undo.semu up).unEnt).2
    rw [hundo]
    exact hadj (release_ok hok hp fun hnil => hzero (by rw [hnil]; rfl)).2.2

/-! ### Steps -/

variable {call : Call} {outcome : Outcome} {event : Event}

/-- A call of process `p` leaves the sets where they are and lets nobody else into `semop`. -/
structure Frame (p : Nat) (s s' : State) : Prop where
  sema : s'.sema = s.sema
  semmap : s'.semmap = s.semmap
  others : ∀ q, q ≠ p → s.proc q = .user → s'.proc q = .user

theorem Frame.setProc (p : Nat) (v : Proc) : Frame p s (s.setProc p v) :=
  ⟨rfl, rfl, fun _ hq huser => (setProc_of_ne v hq).trans huser⟩

theorem attempt_frame (h : Sound info s) (p i : Nat) (call : Call) :
    Frame p s (attempt info p i call s).1 := by
  have hwakes : Wakes info s (perform info p call.semid (s.sema i).semBase [] call.sops s).1 :=
    (perform_calm h call.sops).toWakes
  unfold attempt
  generalize perform info p call.semid (s.sema i).semBase [] call.sops s = r at hwakes
  obtain ⟨s₁, outcome⟩ := r
  cases outcome with
  | ret error =>
    refine ⟨hwakes.sema, hwakes.semmap, fun q hq huser => ?_⟩
    exact (setProc_of_ne _ hq).trans (hwakes.slots q huser)
  | sleep c =>
    refine ⟨(setCnt_sema _).trans hwakes.sema, (setCnt_semmap _).trans hwakes.semmap,
      fun q hq huser => ?_⟩
    refine (setProc_of_ne _ hq).trans ?_
    rw [setCnt_proc]
    exact hwakes.slots q huser

theorem semop_frame (h : Sound info s) (p : Nat) (call : Call) :
    Frame p s (semop info p call s).1 ∧ ((semop info p call s).2 = .ret none →
      ∃ i, semconv info s call.semid = some i ∧ ∀ op ∈ call.sops, op.semNum < (s.sema i).semNsems)      := by
  have hidle : Frame p s s := ⟨rfl, rfl, fun _ _ huser => huser⟩
  unfold semop
  cases hconv : semconv info s call.semid with
  | none => exact ⟨hidle, nofun⟩
  | some i =>
    dsimp only
    split
    · exact ⟨hidle, nofun⟩
    · split
      · exact ⟨hidle, nofun⟩
      · split
        · exact ⟨hidle, nofun⟩
        · rename_i hin
          refine ⟨attempt_frame h p i call, fun _ => ⟨i, rfl, fun op hop => ?_⟩⟩
          exact not_le.mp fun hle => hin ⟨op, hop, hle⟩

theorem resume_frame (h : Sound info s) (p : Nat) (call : Call) (sops : Option (List Sembuf)) :
    Frame p s (resume info p call sops s).1 ∧ ((resume info p call sops s).2 = .ret none →
      ∃ i, semconv info s call.semid = some i) := by
  unfold resume
  cases hconv : semconv info s call.semid with
  | none => exact ⟨Frame.setProc p _, nofun⟩
  | some i =>
    cases sops with
    | none => exact ⟨Frame.setProc p _, nofun⟩
    | some sops => exact ⟨attempt_frame h p i _, fun _ => ⟨i, rfl⟩⟩

theorem interrupt_frame (p : Nat) (c : Chan) : Frame p s (interrupt p c s) := by
  unfold interrupt
  split
  · refine ⟨setCnt_sema 0, setCnt_semmap 0, fun q hq huser => ?_⟩
    refine (setProc_of_ne _ hq).trans ?_
    change ((s.setCnt c 0).proc q).wakeup c = .user
    rw [wakeup_user, setCnt_proc]
    exact huser
  · refine ⟨setCnt_sema _, setCnt_semmap _, fun q hq huser => ?_⟩
    refine (setProc_of_ne _ hq).trans ?_
    rw [setCnt_proc]
    exact huser

theorem Frame.slots (h : Frame p s s') (hslots : ∀ q, s.proc q ≠ .user → q < info.nproc)
    (hp : p < info.nproc) : ∀ q, s'.proc q ≠ .user → q < info.nproc := by
  intro q hq
  by_cases hqp : q = p
  · rw [hqp]
    exact hp
  · exact hslots q fun huser => hq (h.others q hqp huser)

theorem Refers.keep (h : Refers info s) (hkeep : ∀ q id num, s'.ledger.adj q id num ≠ 0 →
    s.ledger.adj q id num ≠ 0 ∧ ∀ i, semconv info s id = some i → num < (s.sema i).semNsems →
      s'.sema i = s.sema i) : Refers info s' := by
  intro q id num hne
  obtain ⟨hold, hsema⟩ := hkeep q id num hne
  obtain ⟨i, hconv, hnum⟩ := h q id num hold
  have hi := hsema i hconv hnum
  refine ⟨i, semconv_congr hconv hi, ?_⟩
  rw [hi]
  exact hnum

/-- A call of `semop`, or the rest of one after a sleep. -/
theorem Books.called (h : Books info cap s) (call : Call) (hp : p < info.nproc) {base : Nat}
    (hframe : Frame p s s') (hdone : Attempted info p call.semid base call.sops s (s', outcome))
    (hin : outcome = .ret none → ∃ i, semconv info s call.semid = some i ∧
      ∀ op ∈ call.sops, op.semNum < (s.sema i).semNsems) : Books info cap s' where
  sound := hdone.sound
  placed := h.placed.same hframe.sema hframe.semmap
  refers := by
    by_cases hret : outcome = .ret none
    · intro q id num hne
      have hkeep : ∀ i, semconv info s id = some i → num < (s.sema i).semNsems →
          ∃ i, semconv info s' id = some i ∧ num < (s'.sema i).semNsems := by
        intro i hconv hnum
        refine ⟨i, semconv_congr hconv (congrFun hframe.sema i), ?_⟩
        rw [hframe.sema]
        exact hnum
      rcases foldlM_adj (hdone.all hret) hne with hold | ⟨hid, op, hop, hnum⟩
      · obtain ⟨i, hconv, hnum⟩ := h.refers q id num hold
        exact hkeep i hconv hnum
      · obtain ⟨i, hconv, hrange⟩ := hin hret
        rw [← hid] at hconv
        exact hkeep i hconv (hnum ▸ hrange op hop)
    · refine h.refers.keep fun q id num hne => ⟨?_, fun i _ _ => congrFun hframe.sema i⟩
      rw [← (hdone.nothing hret).ledger]
      exact hne
  slots := hframe.slots h.slots hp

/-- The semaphore is still there, and its total is the same. -/
structure Kept (info : Seminfo) (id : Int) (num i : Nat) (s s' : State) : Prop where
  conv : semconv info s' id = some i
  sema : s'.sema i = s.sema i
  total : s'.ledger.total info.nproc ((s.sema i).semBase + num) id num =
    s.ledger.total info.nproc ((s.sema i).semBase + num) id num

theorem Kept.of_ledger (hconv : semconv info s id = some i) (hsema : s'.sema i = s.sema i)
    (hledger : s'.ledger = s.ledger) : Kept info id num i s s' :=
  ⟨semconv_congr hconv hsema, hsema, by rw [hledger]⟩

theorem Books.called_kept (h : Books info cap s) (call : Call) (hp : p < info.nproc)
    (hframe : Frame p s s')
    (hdone : Attempted info p call.semid (baseOf info s call.semid) call.sops s (s', outcome))
    (hin : outcome = .ret none → ∃ i, semconv info s call.semid = some i ∧
      ∀ op ∈ call.sops, op.semNum < (s.sema i).semNsems) (hconv : semconv info s id = some i)
    (hnum : num < (s.sema i).semNsems)
    (hmarked : outcome = .ret none → call.semid = id → ∀ op ∈ call.sops, op.semNum = num →
      op.semOp ≠ 0 → op.semUndo = true) : Kept info id num i s s' := by
  by_cases hret : outcome = .ret none
  · obtain ⟨j, hj, hrange⟩ := hin hret
    have hbase : baseOf info s call.semid = (s.sema j).semBase := by
      rw [baseOf, hj]
      rfl
    refine ⟨semconv_congr hconv (congrFun hframe.sema i), congrFun hframe.sema i,
      foldlM_total (hdone.all hret) hp (fun op hop => ?_) fun op hop hid hnum' hne => ?_⟩
    · rw [hbase]
      constructor
      · intro heq
        obtain ⟨hij, hnums⟩ := h.placed.eq_of_addr (semconv_alloc hconv) (semconv_alloc hj) hnum
          (hrange op hop) heq.symm
        rw [← hij] at hj
        exact ⟨semconv_inj hj hconv, hnums⟩
      · intro ⟨hid, hnums⟩
        rw [hid, hj] at hconv
        rw [some.inj hconv, hnums]
    · exact hmarked hret hid.symm op hop hnum'.symm hne
  · exact Kept.of_ledger hconv (congrFun hframe.sema i) (hdone.nothing hret).ledger

variable {first count : Nat}

theorem Reset.adj_ne (h : Reset info s id low high first count s') (hne : s'.ledger.adj q id' num ≠ 0) :
    s.ledger.adj q id' num ≠ 0 ∧ ¬ (id' = id ∧ low ≤ num ∧ num ≤ high) := by
  rw [h.adj] at hne
  split_ifs at hne with hcov
  · exact absurd rfl hne
  · exact ⟨hne, hcov⟩

theorem Reset.kept (h : Reset info s id' low high first count s') (hconv : semconv info s id = some i)
    (hsema : s'.sema i = s.sema i)
    (hout : (s.sema i).semBase + num < first ∨ first + count ≤ (s.sema i).semBase + num)
    (hcov : ¬ (id = id' ∧ low ≤ num ∧ num ≤ high)) : Kept info id num i s s' := by
  refine ⟨semconv_congr hconv hsema, hsema, ?_⟩
  unfold Ledger.total
  rw [h.value _ hout]
  congr 1
  exact sumOver_congr fun q _ => by rw [h.adj, if_neg hcov]

theorem Placed.outside (h : Placed cap s) (hconv : semconv info s id = some i)
    (hnum : num < (s.sema i).semNsems) (hconv' : semconv info s id' = some j) (hne : id' ≠ id) :
    i ≠ j ∧ ((s.sema i).semBase + num < (s.sema j).semBase ∨
      (s.sema j).semBase + (s.sema j).semNsems ≤ (s.sema i).semBase + num) := by
  have hij : i ≠ j := fun heq => hne (by
    rw [← heq] at hconv'
    exact semconv_inj hconv hconv')
  refine ⟨hij, ?_⟩
  by_contra hin
  have haddr : (s.sema i).semBase + num =
      (s.sema j).semBase + ((s.sema i).semBase + num - (s.sema j).semBase) := by omega
  exact hij (h.eq_of_addr (semconv_alloc hconv) (semconv_alloc hconv') hnum (by omega) haddr).1

theorem Books.wakes (h : Books info cap s) (hwakes : Wakes info s s') (hsound : Sound info s')
    (hadj : ∀ q id num, s'.ledger.adj q id num ≠ 0 → s.ledger.adj q id num ≠ 0) : Books info cap s' where
  sound := hsound
  placed := h.placed.same hwakes.sema hwakes.semmap
  refers := h.refers.keep fun q id num hne =>
    ⟨hadj q id num hne, fun _ _ _ => congrFun hwakes.sema _⟩
  slots q hq := h.slots q fun huser => hq (hwakes.slots q huser)

theorem setval_wakes (arg : Nat) : Wakes info s (setval info id i num arg s).1 := by
  unfold setval
  dsimp only
  split
  · exact Wakes.refl
  · split
    · exact Wakes.refl
    · exact (Calm.assign _ _).toWakes.trans (Wakes.undo _)

theorem setall_wakes (semvals : List Nat) : Wakes info s (setall info id i semvals s).1 := by
  unfold setall
  split
  · exact Wakes.refl
  · exact (Wakes.undo _).trans (Calm.assignAll _ _).toWakes

def Reread (info : Seminfo) (s : State) : Event → Prop
  | .resume _ call _ => InRange info s call
  | _ => True

theorem step_books (h : Books info cap s) (hcap : cap < Resmap.ulong) (hreread : Reread info s event)
    (hstep : Step info s event s') : Books info cap s' := by
  have hsound := step_sound h.sound hstep
  cases hstep with
  | @semget i n a semmap _ hfree _ _ halloc ha =>
    refine ⟨hsound, h.placed.semget hcap halloc ha, ?_, h.slots⟩
    refine h.refers.keep fun q id num hne => ⟨hne, fun j hconv _ => ?_⟩
    apply update_of_ne
    intro heq
    have hj := semconv_alloc hconv
    rw [heq, hfree] at hj
    cases hj
  | @rmid s' old id i hconv hrmid =>
    have hreset := rmid_reset h.sound hrmid
    obtain ⟨semmap, hfree, heq⟩ := map_eq_some_iff.mp hrmid
    obtain ⟨hclear, -⟩ := calm_clearAll info (s.sema i).semNsems
      { s with undo := semunrm info id 0 (s.sema i).semNsems s.undo } (s.sema i).semBase
    refine ⟨hsound, ?_, h.refers.keep fun q id' num hne => ?_, fun q hq => ?_⟩
    · rw [hclear.semmap] at hfree
      rw [← heq, hclear.sema]
      exact (h.placed.rmid hcap (semconv_alloc hconv) hfree).same rfl rfl
    · obtain ⟨hold, hcov⟩ := hreset.adj_ne hne
      refine ⟨hold, fun j hj hnum => ?_⟩
      have hji : j ≠ i := fun hji => by
        rw [hji] at hj hnum
        exact hcov ⟨semconv_inj hconv hj, Nat.zero_le _, hnum.le⟩
      rw [← heq]
      dsimp only
      rw [update_of_ne hji, hclear.sema]
    · rw [← heq] at hq
      exact h.slots q fun huser => hq (hclear.slots q huser)
  | @setval id i num arg _ =>
    refine h.wakes (setval_wakes arg) hsound fun q id' n hne => ?_
    rcases setval_reset h.sound id i num arg with ⟨e, heq⟩ | ⟨-, -, hreset⟩
    · rw [heq] at hne
      exact hne
    · exact (hreset.adj_ne hne).1
  | @setall id i semvals _ hlength =>
    refine h.wakes (setall_wakes semvals) hsound fun q id' n hne => ?_
    rcases setall_reset h.sound id hlength with ⟨e, heq⟩ | ⟨-, hreset⟩
    · rw [heq] at hne
      exact hne
    · exact (hreset.adj_ne hne).1
  | semop hslot _ =>
    obtain ⟨hframe, hin⟩ := semop_frame h.sound _ _
    exact h.called _ hslot hframe (semop_ok h.sound _ _) hin
  | @signal p call c hp =>
    have hframe : Frame p s (s.setProc p (.ready call c true)) := Frame.setProc p _
    exact ⟨hsound, h.placed.same rfl rfl, h.refers, hframe.slots h.slots (h.slots p (by rw [hp]; simp))⟩
  | @resume p call c counted sops hp _ =>
    obtain ⟨hframe, hin⟩ := resume_frame h.sound p call sops
    refine h.called { call with sops := sops.getD call.sops } (h.slots p (by rw [hp]; simp)) hframe
      (resume_ok h.sound p call sops) fun hret => ?_
    obtain ⟨i, hconv⟩ := hin hret
    exact ⟨i, hconv, hreread i hconv⟩
  | @interrupt p call c counted hp =>
    have hframe := interrupt_frame (s := s) p c
    refine ⟨hsound, h.placed.same hframe.sema hframe.semmap, ?_,
      hframe.slots h.slots (h.slots p (by rw [hp]; simp))⟩
    refine h.refers.keep fun q id num hne => ⟨?_, fun _ _ _ => congrFun hframe.sema _⟩
    rw [← (interrupt_ok h.sound p c).1.ledger]
    exact hne
  | @semexit p hslot hp =>
    obtain ⟨hsema, hadj, -⟩ := semexit_ledger h p
    refine h.wakes (Calm.semexit p).toWakes hsound fun q id num hne => ?_
    rw [hadj] at hne
    split_ifs at hne with hq
    · exact absurd rfl hne
    · exact hne

/-- No SETVAL, SETALL or removal of the semaphore, and no operation on it without SEM_UNDO. -/
def UndoOnly (id : Int) (num : Nat) : Event → Prop
  | .rmid id' => id' ≠ id
  | .setval id' num' r => r = none → ¬ (id' = id ∧ num' = num)
  | .setall id' r => r = none → id' ≠ id
  | .semop _ call r => r = .ret none → call.semid = id → ∀ op ∈ call.sops, op.semNum = num →
      op.semOp ≠ 0 → op.semUndo = true
  | .resume _ call r => r = .ret none → call.semid = id → ∀ op ∈ call.sops, op.semNum = num →
      op.semOp ≠ 0 → op.semUndo = true
  | _ => True

/-- The adjustment of a process that exits does not take the semaphore out of its range. -/
def Settles (info : Seminfo) (id : Int) (num : Nat) (s : State) : Event → Prop
  | .semexit p =>
      0 ≤ s.ledger.value (baseOf info s id + num) + s.ledger.adj p id num ∧
        s.ledger.value (baseOf info s id + num) + s.ledger.adj p id num ≤ info.semvmx
  | _ => True

theorem baseOf_eq (hconv : semconv info s id = some i) : baseOf info s id = (s.sema i).semBase := by
  rw [baseOf, hconv]
  rfl

theorem semexit_total (h : Books info cap s) (hp : p < info.nproc) (hconv : semconv info s id = some i)
    (hnum : num < (s.sema i).semNsems) :
    (semexit info p s).ledger.total info.nproc ((s.sema i).semBase + num) id num =
      s.ledger.total info.nproc ((s.sema i).semBase + num) id num +
        (settle info (s.ledger.value ((s.sema i).semBase + num)) (s.ledger.adj p id num) -
          (s.ledger.value ((s.sema i).semBase + num) + s.ledger.adj p id num)) := by
  obtain ⟨-, hadj, hvalue⟩ := semexit_ledger h p
  unfold Ledger.total
  have hother : ∀ q, q ≠ p → (semexit info p s).ledger.adj q id num = s.ledger.adj q id num :=
    fun q hq => by rw [hadj, if_neg hq]
  rw [hvalue id num i hconv hnum, sumOver_change hp hother, hadj, if_pos rfl]
  omega

theorem step_kept (h : Books info cap s) (hreread : Reread info s event) (hundo : UndoOnly id num event)
    (hsettles : Settles info id num s event) (hconv : semconv info s id = some i)
    (hnum : num < (s.sema i).semNsems) (hstep : Step info s event s') : Kept info id num i s s' := by
  cases hstep with
  | @semget j n a semmap _ hfree _ _ _ _ =>
    refine Kept.of_ledger hconv ?_ rfl
    apply update_of_ne
    intro heq
    have hi := semconv_alloc hconv
    rw [heq, hfree] at hi
    cases hi
  | @rmid s' old id' j hconv' hrmid =>
    obtain ⟨hij, hout⟩ := h.placed.outside hconv hnum hconv' hundo
    refine (rmid_reset h.sound hrmid).kept hconv ?_ hout fun hcov => hundo hcov.1.symm
    obtain ⟨semmap, -, heq⟩ := map_eq_some_iff.mp hrmid
    obtain ⟨hclear, -⟩ := calm_clearAll info (s.sema j).semNsems
      { s with undo := semunrm info id' 0 (s.sema j).semNsems s.undo } (s.sema j).semBase
    rw [← heq]
    dsimp only
    rw [update_of_ne hij, hclear.sema]
  | @setval id' j num' arg hconv' =>
    rcases setval_reset h.sound id' j num' arg with ⟨e, heq⟩ | ⟨hnone, hnum', hreset⟩
    · rw [heq]
      exact Kept.of_ledger hconv rfl rfl
    have hkey := hundo hnone
    refine hreset.kept hconv (congrFun (setval_wakes arg).sema i) ?_ fun hcov =>
      hkey ⟨hcov.1.symm, by omega⟩
    by_contra hin
    obtain ⟨hij, hnums⟩ := h.placed.eq_of_addr (semconv_alloc hconv) (semconv_alloc hconv')
      hnum hnum' (by omega)
    rw [← hij] at hconv'
    exact hkey ⟨semconv_inj hconv hconv', hnums.symm⟩
  | @setall id' j semvals hconv' hlength =>
    rcases setall_reset h.sound id' hlength with ⟨e, heq⟩ | ⟨hnone, hreset⟩
    · rw [heq]
      exact Kept.of_ledger hconv rfl rfl
    · have hne := hundo hnone
      exact hreset.kept hconv (congrFun (setall_wakes semvals).sema i)
        (h.placed.outside hconv hnum hconv' hne).2 fun hcov => hne hcov.1.symm
  | semop hslot _ =>
    obtain ⟨hframe, hin⟩ := semop_frame h.sound _ _
    exact h.called_kept _ hslot hframe (semop_ok h.sound _ _) hin hconv hnum hundo
  | signal _ => exact Kept.of_ledger hconv rfl rfl
  | @resume p call c counted sops hp _ =>
    obtain ⟨hframe, hin⟩ := resume_frame h.sound p call sops
    refine h.called_kept { call with sops := sops.getD call.sops } (h.slots p (by rw [hp]; simp))
      hframe (resume_ok h.sound p call sops) (fun hret => ?_) hconv hnum hundo
    obtain ⟨j, hconv'⟩ := hin hret
    exact ⟨j, hconv', hreread j hconv'⟩
  | @interrupt p call c counted hp =>
    exact Kept.of_ledger hconv (congrFun (interrupt_frame p c).sema i)
      (interrupt_ok h.sound p c).1.ledger
  | @semexit p hslot hp =>
    have hsema := congrFun (semexit_ledger h p).1 i
    refine ⟨semconv_congr hconv hsema, hsema, ?_⟩
    have hrange : Settles info id num s (.semexit p) := hsettles
    unfold Settles at hrange
    rw [baseOf_eq hconv] at hrange
    rw [semexit_total h hslot hconv hnum, settle, if_neg (by omega)]
    omega

/-! ### Runs -/

variable {semmap : Resmap.RMap} {semmns : Nat} {events : List Event}

theorem boot_books (hcap : cap < Resmap.ulong) (hlt : semmns < Resmap.ulong)
    (hmap : Resmap.rmfree (Resmap.mapinit cap) semmns 1 = some semmap) :
    Books info cap (boot info semmap) where
  sound := boot_sound
  placed := ⟨Resmap.Apportioned.initial hcap (by omega) (fun _ => rfl) hmap,
    nofun⟩
  refers q id num hne := absurd rfl hne
  slots p hp := absurd rfl hp

def balance (info : Seminfo) (s : State) (id : Int) (num : Nat) : Int :=
  s.ledger.total info.nproc (baseOf info s id + num) id num

theorem run_kept (hcap : cap < Resmap.ulong) {s₀ : State} (h : Books info cap s₀)
    (hconv : semconv info s₀ id = some i) (hnum : num < (s₀.sema i).semNsems)
    (hrun : Exec (Guarded (Step info) fun s event =>
      Reread info s event ∧ UndoOnly id num event ∧ Settles info id num s event) s₀ events s) :
    Books info cap s ∧ Kept info id num i s₀ s := by
  induction hrun with
  | nil => exact ⟨h, hconv, rfl, rfl⟩
  | snoc _ hlast ih =>
    obtain ⟨hbooks, hkept⟩ := ih
    obtain ⟨⟨hreread, hundo, hsettles⟩, hstep⟩ := hlast
    have hnum' := hnum
    rw [← hkept.sema] at hnum'
    have hnext := step_kept hbooks hreread hundo hsettles hkept.conv hnum' hstep
    refine ⟨step_books hbooks hcap hreread hstep, hnext.conv, hnext.sema.trans hkept.sema, ?_⟩
    have htotal := hnext.total
    rw [hkept.sema] at htotal
    exact htotal.trans hkept.total

/-- In every state the undo table is in order and refers to no set that is removed. From there on
the balance of a semaphore stays, whatever is done to it with SEM_UNDO, and an exit takes from it
what it drops. -/
theorem undo_books (hcap : cap < Resmap.ulong) (hlt : semmns < Resmap.ulong)
    (hmap : Resmap.rmfree (Resmap.mapinit cap) semmns 1 = some semmap)
    (hrun : Exec (Guarded (Step info) (Reread info)) (boot info semmap) events s) :
    (∃ act free, s.undo.Ok info act free) ∧
    (∀ q, ∀ u ∈ s.undo.entries q, ∃ i, semconv info s u.unId = some i ∧ u.unNum < (s.sema i).semNsems) ∧
    ∀ id num i, semconv info s id = some i → num < (s.sema i).semNsems →
      (∀ events' s', Exec (Guarded (Step info) fun s event =>
          Reread info s event ∧ UndoOnly id num event ∧ Settles info id num s event) s events' s' →
        balance info s' id num = balance info s id num) ∧
      ∀ p s', Step info s (.semexit p) s' → balance info s' id num = balance info s id num +
        (settle info (s.ledger.value (baseOf info s id + num)) (s.ledger.adj p id num) -
          (s.ledger.value (baseOf info s id + num) + s.ledger.adj p id num)) := by
  have h : Books info cap s := hrun.keeps (Books info cap)
    (fun _ _ _ h hstep => step_books h hcap hstep.1 hstep.2) (boot_books hcap hlt hmap)
  refine ⟨h.sound.undo, fun q u hu => h.refers.entry h.sound hu, fun id num i hconv hnum =>
    ⟨fun events' s' hrun' => ?_, fun p s' hstep => ?_⟩⟩
  · obtain ⟨-, hkept⟩ := run_kept hcap h hconv hnum hrun'
    rw [balance, balance, baseOf_eq hkept.conv, hkept.sema, baseOf_eq hconv]
    exact hkept.total
  · cases hstep with
    | semexit hslot _ =>
      have hsema := (semexit_ledger h p).1
      rw [balance, balance, baseOf_eq (semconv_congr hconv (congrFun hsema i)), hsema, baseOf_eq hconv]
      exact semexit_total h hslot hconv hnum

def upCall : Call := ⟨0, [⟨0, 5, true, false⟩]⟩

def takeCall : Call := ⟨0, [⟨0, -3, true, false⟩]⟩

theorem undo_books_up : ∃ s s', balance smallInfo s' 0 0 = balance smallInfo s 0 0 ∧
    (s'.sem 0).semval = 5 := by
  have hget : Step smallInfo (boot smallInfo smallMap) (.semget 0) _ :=
    @Step.semget smallInfo (boot smallInfo smallMap) 0 2 1 _ (by decide) rfl (by decide)
      (by decide) rfl (by decide)
  have hrun : ∃ s s', Exec (Guarded (Step smallInfo) (Reread smallInfo)) (boot smallInfo smallMap)
      [.semget 0] s ∧ semconv smallInfo s 0 = some 0 ∧ 0 < (s.sema 0).semNsems ∧
      Exec (Guarded (Step smallInfo) fun s event => Reread smallInfo s event ∧
        UndoOnly 0 0 event ∧ Settles smallInfo 0 0 s event) s [.semop 1 upCall (.ret none)] s' ∧
      (s'.sem 0).semval = 5 := by
    refine ⟨_, _, Exec.single ⟨trivial, hget⟩, rfl, by decide, Exec.single ⟨⟨trivial, ?_, trivial⟩,
      @Step.semop smallInfo _ 1 upCall (by decide) rfl⟩, rfl⟩
    intro _ _ op hop _ _
    rw [mem_singleton.mp hop]
  obtain ⟨s, s', hrun, hconv, hnum, hrun', hval⟩ := hrun
  obtain ⟨-, -, hbalance⟩ := undo_books (by decide : 3 < Resmap.ulong)
    (by decide : 2 < Resmap.ulong) (by decide) hrun
  exact ⟨s, s', (hbalance 0 0 0 hconv hnum).1 _ s' hrun', hval⟩

/-- Process 1 adds 5, process 2 takes 3, and process 1 exits: it cannot take its 5 back, and the 3
that process 2 owes makes up a total of 5, not 0. -/
theorem exit_drops : ∃ s s', Exec (Step smallInfo) (boot smallInfo smallMap) [.semget 0] s ∧
    semconv smallInfo s 0 = some 0 ∧ Exec (Guarded (Step smallInfo) fun _ event => UndoOnly 0 0 event) s
      [.semop 1 upCall (.ret none), .semop 2 takeCall (.ret none), .semexit 1] s' ∧
    balance smallInfo s 0 0 = 0 ∧ balance smallInfo s' 0 0 = 5 := by
  have hget : Step smallInfo (boot smallInfo smallMap) (.semget 0) _ :=
    @Step.semget smallInfo (boot smallInfo smallMap) 0 2 1 _ (by decide) rfl (by decide)
      (by decide) rfl (by decide)
  refine ⟨_, _, Exec.single hget, rfl, Exec.snoc (Exec.snoc (Exec.single ⟨?_,
    @Step.semop smallInfo _ 1 upCall (by decide) rfl⟩) ⟨?_,
    @Step.semop smallInfo _ 2 takeCall (by decide) rfl⟩) ⟨trivial,
    @Step.semexit smallInfo _ 1 (by decide) rfl⟩, rfl, rfl⟩
  · intro _ _ op hop _ _
    rw [mem_singleton.mp hop]
  · intro _ _ op hop _ _
    rw [mem_singleton.mp hop]

end Svr42.Sem

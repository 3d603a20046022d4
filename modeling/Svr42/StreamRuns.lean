import Svr42.RunExec
import Svr42.StreamFlush

/-! Runs of a queue: its order and its counts after any calls. -/

namespace Svr42.Strm
open Function List Nat

/-- A queue without messages. -/
structure Initial (st : State) : Prop where
  first : st.links.first = none
  last : st.links.last = none
  ends : ∀ qbp ∈ st.q.bandp, qbp.qbFirst = none ∧ qbp.qbLast = none
  flow : ∀ pri f, st.q.flowOf pri = some f → f.count = 0 ∧ f.full = false ∧ 0 < f.hiwat
  blocked : st.q.blocked = 0
  nband : st.q.bandp.length ≤ 255
  freed : st.freed = []

def State.Room (st : State) : Event → Prop
  | .putq _ m _ => ∀ xs, st.links.Spells xs → st.Fits xs m
  | .putbq _ m _ => ∀ xs, st.links.Spells xs → st.Fits xs m
  | _ => True

section

variable {e : Prop} {avail : Nat → Bool} {st st' : State} {xs ys : List Nat} {bp fuel : Nat}
  {m : Msg} {event : Event} {events : List Event}

theorem Initial.inv (h : Initial st) : Inv e st [] := by
  have hflow := h.flow
  refine ⟨⟨⟨nodup_nil, h.first, h.last, by simp⟩, List.Pairwise.nil, by simp, ?_, h.nband⟩,
    ⟨?_, fun pri f hf => (hflow pri f hf).2.2, ?_⟩, fun _ => ⟨?_, fun _ => (by decide : 0 < ulong)⟩⟩
  · intro pri qbp _ hqbp
    exact h.ends qbp (mem_of_getElem? hqbp)
  · intro pri f hf
    rw [(hflow pri f hf).1]
    rfl
  · rw [h.blocked, Queue.fulls, eq_comm, countP_eq_zero]
    intro qbp hqbp
    obtain ⟨i, hi, heq⟩ := getElem_of_mem hqbp
    have hband : st.q.flowOf (i + 1) = some qbp.flow := by
      rw [Queue.flowOf_band (by omega), Queue.band, Nat.add_sub_cancel, List.getElem?_eq_getElem hi,
        heq, Option.map_some]
    simp [(hflow _ _ hband).2.1]
  · intro pri f hf
    obtain ⟨hcount, hfull, hhiwat⟩ := hflow pri f hf
    rw [hcount, hfull]
    simp only [Bool.false_eq_true, false_iff]
    omega

/-! ### One step -/

theorem fits_setMsg (hbp : bp ∉ xs) (h : st.Fits xs m) : (st.setMsg bp m).Fits xs m := by
  unfold State.Fits at h ⊢
  have hsame : ∀ a ∈ xs, update st.msg bp m a = st.msg a := fun a ha =>
    update_of_ne (ne_of_mem_of_not_mem ha hbp) _ _
  rw [State.setMsg, load_congr hsame]
  exact h

theorem setMsg_self : (st.setMsg bp m).msg bp = m := update_self ..

section

variable (h : Inv e st xs) (hbp : bp ∉ xs) (hband : m.bBand < 256) (hfits : e → st.Fits xs m)
include h hbp hband hfits

theorem putq_result {ok : Bool} (hput : putq avail fuel (st.setMsg bp m) bp = some (st', ok)) :
    ∃ ys, Put e (st.setMsg bp m) st' bp ok ys ∧ (ok = false → ys = xs) ∧
      (ok = true → ∃ pre post, xs = pre ++ post ∧ ys = pre ++ bp :: post ∧
        (∀ a ∈ pre, m.norm.cls ≤ ((st.setMsg bp m).msg a).cls) ∧
        ∀ a ∈ post, ((st.setMsg bp m).msg a).cls < m.norm.cls) := by
  have hmsg : (st.setMsg bp m).msg bp = m := setMsg_self
  obtain ⟨st₁, ok₁, ys, heq, hres, hno, hyes⟩ := putq_ok avail
    (max fuel (xs.length + 1)) (h.setMsg hbp) hbp (by rw [hmsg]; exact hband)
    (fun he => by rw [hmsg]; exact fits_setMsg hbp (hfits he)) (by omega)
  rw [putq_more hput (Nat.le_max_left ..)] at heq
  cases heq
  refine ⟨ys, hres, hno, fun hok => ?_⟩
  obtain ⟨pre, post, hxs, hys, hpre, hpost, -⟩ := hyes hok
  rw [hmsg] at hpre hpost
  exact ⟨pre, post, hxs, hys, hpre, hpost⟩

theorem putbq_result {ok : Bool} (hput : putbq avail fuel (st.setMsg bp m) bp = some (st', ok)) :
    ∃ ys, Put e (st.setMsg bp m) st' bp ok ys ∧ (ok = false → ys = xs) ∧
      (ok = true → ∃ pre post, xs = pre ++ post ∧ ys = pre ++ bp :: post ∧
        (∀ a ∈ pre, m.norm.cls < ((st.setMsg bp m).msg a).cls) ∧
        ∀ a ∈ post, ((st.setMsg bp m).msg a).cls ≤ m.norm.cls) := by
  have hmsg : (st.setMsg bp m).msg bp = m := setMsg_self
  obtain ⟨st₁, ok₁, ys, heq, hres, hno, hyes⟩ := putbq_ok avail
    (max fuel (xs.length + 1)) (h.setMsg hbp) hbp (by rw [hmsg]; exact hband)
    (fun he => by rw [hmsg]; exact fits_setMsg hbp (hfits he)) (by omega)
  rw [putbq_more hput (Nat.le_max_left ..)] at heq
  cases heq
  refine ⟨ys, hres, hno, fun hok => ?_⟩
  obtain ⟨pre, post, hxs, hys, hpre, hpost⟩ := hyes hok
  rw [hmsg] at hpre hpost
  exact ⟨pre, post, hxs, hys, hpre, hpost⟩

end

theorem getq_result {r : Option Nat} (h : Inv e st xs) (hget : getq avail fuel st = some (st', r)) :
    ∃ ys, Take e avail st st' ys ∧
      ((r = none ∧ ys = xs ∧ ∀ a ∈ xs, (st.msg a).noget = true) ∨
        ∃ pre mp post, r = some mp ∧ xs = pre ++ mp :: post ∧ ys = pre ++ post ∧
          (∀ a ∈ pre, (st.msg a).noget = true) ∧ (st.msg mp).noget = false) := by
  obtain ⟨st₁, r₁, ys, heq, htake, hres⟩ := getq_take avail (max fuel (xs.length + 1)) h (by omega)
  rw [getq_more hget (Nat.le_max_left ..)] at heq
  cases heq
  exact ⟨ys, htake, hres⟩

variable {flag : Bool}

theorem flushq_result (h : Inv e st xs) (hflush : flushq avail fuel st flag = some st') :
    ∃ st₁, Inv e st' (xs.filter fun a => !(flag || datamsg (st.msg a).dbType)) ∧
      Reput st.reset st₁ (xs.filter fun a => flag || datamsg (st.msg a).dbType) ∧
      Inv e st₁ (xs.filter fun a => !(flag || datamsg (st.msg a).dbType)) ∧
      Behind avail { st₁ with q := st₁.q.modifyFlows Flow.unwant } st'
        ((List.range ((st₁.q.bandp.length + 1) % 256)).filter (flushed st₁.q)) := by
  obtain ⟨st₂, st₁, heq, hres⟩ := flushq_ok avail (max fuel (xs.length + 1)) flag h (by omega)
  rw [flushq_more hflush (Nat.le_max_left ..)] at heq
  cases heq
  exact ⟨st₁, hres⟩

theorem flushband_zero_result (h : Inv e st xs) (hflush : flushband avail fuel st 0 flag = some st') :
    ∃ st₁, Inv e st' (xs.filter fun a => !zeroDrop flag (st.msg a)) ∧
      Reput st.reset st₁ (xs.filter fun a => zeroDrop flag (st.msg a)) ∧
      Inv e st₁ (xs.filter fun a => !zeroDrop flag (st.msg a)) ∧
      Behind avail
        { st₁ with q := if st₁.q.flow.relieved = true then
            st₁.q.modifyFlow 0 Flow.clearWantw else st₁.q } st'
        (if st₁.q.flow.relieved = true then [0] else []) := by
  obtain ⟨st₂, st₁, heq, hres⟩ := flushband_zero_ok avail
    (max fuel (xs.length + 1)) flag h (by omega)
  rw [flushband_more hflush (Nat.le_max_left ..)] at heq
  cases heq
  exact ⟨st₁, hres⟩

theorem flushband_result {pri : Nat} (inv : State → List Nat → Prop) (h : Inv e st xs) (hinv : inv st xs)
    (hpri : 0 < pri) (hle : pri ≤ 255) (hshape : ∀ st xs, inv st xs → st.links.Spells xs)
    (hstep : ∀ st front mp back, inv st (front ++ mp :: back) →
      inv (freemsg (rmvq avail st mp) mp) (front ++ back) ∧ (rmvq avail st mp).msg = st.msg)
    (hflush : flushband avail fuel st pri flag = some st') :
    inv st' (xs.filter fun a => !bandDrop pri flag (st.msg a)) ∧ st'.msg = st.msg := by
  obtain ⟨st₂, heq, hres⟩ := flushband_ok
    (max fuel (xs.length + 1)) flag h hinv hpri hle (by omega) hshape hstep
  rw [flushband_more hflush (Nat.le_max_left ..)] at heq
  cases heq
  exact hres

theorem Take.msg (h : Take e avail st st' ys) : st'.msg = st.msg := by
  obtain ⟨links, q, bands, ⟨back, calls, l, heq, -⟩, -⟩ := h.behind
  rw [heq]

theorem Inv.freemsg (h : Inv e st xs) : Inv e (freemsg st bp) xs := ⟨h.shape, h.counted, h.exact⟩

theorem inv_rmvq (st : State) (front : List Nat) (mp : Nat) (back : List Nat)
    (h : Inv e st (front ++ mp :: back)) :
    Inv e (freemsg (rmvq avail st mp) mp) (front ++ back) ∧ (rmvq avail st mp).msg = st.msg :=
  have htake := rmvq_take avail h
  ⟨htake.inv.freemsg, htake.msg⟩

theorem wantw_same {g : Flow → Flow} {pri : Nat} (h : Inv e st xs)
    (hg : ∀ f, (g f).count = f.count ∧ (g f).hiwat = f.hiwat ∧ (g f).full = f.full) :
    Inv e { st with q := st.q.modifyFlow pri g } xs :=
  h.same rfl rfl Queue.ends_modifyFlow (SameCounts.modifyFlow hg)

/-- Every call keeps the order and the counts. -/
theorem step_inv (hstep : Step avail st event st') (h : Inv e st xs) (hroom : e → st.Room event) :
    ∃ ys, Inv e st' ys := by
  have hspells := h.shape.spells
  cases hstep with
  | putq hbp hband hput =>
    rw [h.mem_iff] at hbp
    obtain ⟨ys, hres, -⟩ := putq_result h hbp hband (fun he => hroom he xs hspells) hput
    exact ⟨ys, hres.inv⟩
  | putbq hbp hband hput =>
    rw [h.mem_iff] at hbp
    obtain ⟨ys, hres, -⟩ := putbq_result h hbp hband (fun he => hroom he xs hspells) hput
    exact ⟨ys, hres.inv⟩
  | getq hget =>
    obtain ⟨ys, htake, -⟩ := getq_result h hget
    exact ⟨ys, htake.inv⟩
  | rmvq hmp =>
    rw [h.mem_iff] at hmp
    obtain ⟨pre, post, rfl⟩ := append_of_mem hmp
    exact ⟨pre ++ post, (rmvq_take avail h).inv⟩
  | flushq hflush =>
    obtain ⟨st₁, hinv, -⟩ := flushq_result h hflush
    exact ⟨_, hinv⟩
  | flushband hpri hflush =>
    rename_i fuel pri flag
    by_cases hzero : pri = 0
    · subst hzero
      obtain ⟨st₁, hinv, -⟩ := flushband_zero_result h hflush
      exact ⟨_, hinv⟩
    · exact ⟨_, (flushband_result (Inv e) h h (by omega) (by omega) (fun _ _ h => h.shape.spells)
        inv_rmvq hflush).1⟩
  | canput hcan =>
    rename_i ok
    unfold canput at hcan
    split at hcan
    · cases hcan
      exact ⟨xs, wantw_same h fun _ => ⟨rfl, rfl, rfl⟩⟩
    · cases hcan
      exact ⟨xs, h⟩
  | bcanput hpri hcan =>
    unfold bcanput at hcan
    split at hcan
    · cases hcan
      exact ⟨xs, wantw_same h fun _ => ⟨rfl, rfl, rfl⟩⟩
    · cases hcan
      exact ⟨xs, h⟩
  | serve _ _ _ => exact ⟨xs, h.shape, h.counted, h.exact⟩

theorem run_inv {st₀ : State} (h₀ : Initial st₀) (hrun : Exec (Step avail) st₀ events st) :
    ∃ xs, Inv False st xs := by
  have hkeep : ∀ s event t, (∃ xs, Inv False s xs) → Step avail s event t → ∃ ys, Inv False t ys := by
    rintro s event t ⟨xs, h⟩ hstep
    exact step_inv hstep h False.elim
  exact hrun.keeps (fun s => ∃ xs, Inv False s xs) hkeep ⟨[], h₀.inv⟩

theorem run_exact {st₀ : State} (h₀ : Initial st₀)
    (hrun : Exec (Guarded (Step avail) State.Room) st₀ events st) : ∃ xs, Inv True st xs := by
  have hkeep : ∀ s event t, (∃ xs, Inv True s xs) → Guarded (Step avail) State.Room s event t →
      ∃ ys, Inv True t ys := by
    rintro s event t ⟨xs, h⟩ hstep
    exact step_inv hstep.2 h fun _ => hstep.1
  exact hrun.keeps (fun s => ∃ xs, Inv True s xs) hkeep ⟨[], h₀.inv⟩

end

/-- After any calls the links spell one list both ways, ordered by class; the ends of a band are
those of its run; the counts are the bytes modulo the size of an unsigned long, and `q_blocked` is
the number of full bands. As long as no put takes the bytes of a band to that size, the counts are
the bytes, and the queue or a band is marked full exactly if its count has reached the high-water
mark. -/
theorem queue_consistent {avail : Nat → Bool} {st₀ st : State} {events : List Event} (h₀ : Initial st₀)
    (hrun : Exec (Step avail) st₀ events st) : ∃ xs, st.links.Spells xs ∧
      (xs.Pairwise fun a b => (st.msg b).cls ≤ (st.msg a).cls) ∧
      (∀ pri qbp, 0 < pri → st.q.band pri = some qbp →
        (∃ front back, xs = front ++ lane st.msg pri xs ++ back) ∧
        qbp.qbFirst = (lane st.msg pri xs).head? ∧ qbp.qbLast = (lane st.msg pri xs).getLast?) ∧
      (∀ pri f, st.q.flowOf pri = some f → f.count = load st.msg pri xs % ulong) ∧
      st.q.blocked = (st.q.bandp.filter fun qbp => qbp.flow.full).length ∧
      (Exec (Guarded (Step avail) State.Room) st₀ events st →
        ∀ pri f, st.q.flowOf pri = some f →
          f.count = load st.msg pri xs ∧ (f.full = true ↔ f.hiwat ≤ f.count)) := by
  obtain ⟨xs, h⟩ := run_inv h₀ hrun
  refine ⟨xs, h.shape.spells, h.shape.sorted, fun pri qbp hpri hqbp => ⟨?_, ?_⟩, h.counted.count, ?_,
    fun hguarded pri f hf => ?_⟩
  · have hlt := (List.getElem?_eq_some_iff.mp hqbp).1
    have hnband := h.shape.nband
    obtain ⟨front, back, heq, -⟩ := band_run h.shape hpri (by omega)
    exact ⟨front, back, heq⟩
  · exact h.shape.ends pri qbp hpri hqbp
  · rw [h.counted.blocked, Queue.fulls, countP_eq_length_filter]
  · obtain ⟨ys, h'⟩ := run_exact h₀ hguarded
    obtain rfl := h.shape.spells.unique h'.shape.spells
    exact ⟨h'.counted.exact (h'.exact trivial) hf, (h'.exact trivial).full pri f hf⟩

/-- A queue as it is allocated, and one behind it. -/
def emptyQueue (hiwat lowat : Nat) : State where
  links := ⟨none, none, fun _ => none, fun _ => none⟩
  msg := fun _ => ⟨0, 0, false, []⟩
  q := ⟨true, false, false, false, ⟨0, hiwat, lowat, false, false, false⟩, [], 0⟩
  back := some ⟨true, false, false, false, ⟨0, hiwat, lowat, false, false, false⟩, [], 0⟩
  calls := 0
  freed := []
  log := []

theorem emptyQueue_initial {hiwat lowat : Nat} (h : 0 < hiwat) : Initial (emptyQueue hiwat lowat) where
  first := rfl
  last := rfl
  ends := by simp [emptyQueue]
  flow := by
    intro pri f hf
    have hle := Queue.le_of_flowOf hf
    obtain rfl : pri = 0 := le_zero.mp hle
    cases hf
    exact ⟨rfl, rfl, h⟩
  blocked := rfl
  nband := zero_le _
  freed := rfl

theorem put_first {hiwat : Nat} (hhiwat : 0 < hiwat) (lowat : Nat) {m : Msg} (hband : m.bBand = 0) :
    ∃ st, Step (fun _ => true) (emptyQueue hiwat lowat) (.putq 0 m true) st ∧
      Put False ((emptyQueue hiwat lowat).setMsg 0 m) st 0 true [0] := by
  have hinv : Inv False (emptyQueue hiwat lowat) [] := (emptyQueue_initial hhiwat).inv
  have hmsg : ((emptyQueue hiwat lowat).setMsg 0 m).msg 0 = m := setMsg_self
  have hnot : ¬ (emptyQueue hiwat lowat).Holds 0 := by
    rw [hinv.mem_iff]
    exact not_mem_nil
  have hlt : m.bBand < 256 := by
    rw [hband]
    decide
  obtain ⟨st, ok, ys, heq, hput, -, hyes⟩ := putq_ok (fun _ => true) 1
    (hinv.setMsg (m := m) not_mem_nil) not_mem_nil (by rw [hmsg]; exact hlt)
    False.elim Nat.one_pos
  have hnorm : m.norm.bBand = 0 := by
    unfold Msg.norm
    split
    · rfl
    · exact hband
  have hok : ok = true := (hput.nband (by rw [hmsg, hnorm]; exact zero_le _)).1
  subst hok
  obtain ⟨pre, post, hnil, rfl, -⟩ := hyes rfl
  obtain ⟨rfl, rfl⟩ := append_eq_nil_iff.mp hnil.symm
  exact ⟨st, Step.putq hnot hlt heq, hput⟩

def fourGig : Msg := ⟨0, 0, false, [0x80000000, 0x80000000]⟩

theorem put_wraps : ∃ st, Step (fun _ => true) (emptyQueue 1 0) (.putq 0 fourGig true) st ∧
    st.links.Spells [0] ∧ load st.msg 0 [0] = ulong ∧ ∃ f, st.q.flowOf 0 = some f ∧ f.count = 0 := by
  obtain ⟨st, hstep, hput⟩ := put_first Nat.one_pos 0 (m := fourGig) rfl
  refine ⟨st, hstep, hput.inv.shape.spells, ?_, _, hput.flow 0 _ rfl, ?_⟩
  · obtain ⟨links, q, calls, heq⟩ := hput.frame
    rw [heq]
    dsimp only
    rw [setMsg_self, load, update_self]
    rfl
  · rw [setMsg_self]
    rfl

/-- The counts are the bytes, from the empty queue with one message put. -/
theorem queue_consistent_putq : ∃ (st : State) (xs : List Nat), st.links.Spells xs ∧
    ∀ pri f, st.q.flowOf pri = some f → f.count = load st.msg pri xs % ulong := by
  obtain ⟨st, hstep, -⟩ := put_wraps
  obtain ⟨xs, hspells, -, -, hcount, -⟩ :=
    queue_consistent (emptyQueue_initial Nat.one_pos) (Exec.single hstep)
  exact ⟨st, xs, hspells, hcount⟩

/-- The counts are not always the bytes. -/
theorem count_not_bytes : ¬ ∀ (avail : Nat → Bool) (st₀ st : State) (events : List Event),
    Initial st₀ → Exec (Step avail) st₀ events st → ∃ xs, st.links.Spells xs ∧
      ∀ pri f, st.q.flowOf pri = some f → f.count = load st.msg pri xs := by
  intro h
  obtain ⟨st, hstep, hspells, hload, f, hf, hcount⟩ := put_wraps
  obtain ⟨xs, hspells', hall⟩ := h _ _ st _ (emptyQueue_initial Nat.one_pos) (Exec.single hstep)
  have hbytes := hall 0 f hf
  rw [← hspells.unique hspells', hcount, hload] at hbytes
  exact absurd hbytes (by decide)

end Svr42.Strm

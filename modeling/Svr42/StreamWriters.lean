import Svr42.StreamTable

/-! The writers behind a queue. One that was refused is woken when the count of its band is down
again, unless `flushq` is called on a queue with all 255 bands: its count of the bands is an unsigned
char, and wakes none of them then. -/

namespace Svr42.Strm
open List Option

/-- The queue behind has been back-enabled for the band since the log had `n` entries, or a writer of
the band still waits. -/
def Owed (st : State) (n b : Nat) : Prop :=
  b ∈ st.log.drop n ∨ ∃ f, st.q.flowOf b = some f ∧ f.Wants

def Event.isPutCall : Event → Bool
  | .putq _ _ _ => true
  | .putbq _ _ _ => true
  | _ => false

/-- With all 255 bands, a writer waits whose band `flushq` brings down to the low-water mark. -/
def State.Overflows (st : State) (flag : Bool) : Prop :=
  st.q.bandp.length = 255 ∧ ∃ pri f xs, st.q.flowOf pri = some f ∧ f.wantw = true ∧
    st.links.Spells xs ∧
    load st.msg pri (xs.filter fun a => !(flag || datamsg (st.msg a).dbType)) ≤ f.lowat

/-- A step in which no count wraps, `allocband` does not fail for the queue behind, and the bands are
not too many for `flushq`. -/
def Sound (avail : Nat → Bool) (st : State) (event : Event) (st' : State) : Prop :=
  Step avail st event st' ∧ st.Room event ∧
    (event.isPutCall = false → ∀ i, st.calls ≤ i → i < st'.calls → avail i = true) ∧
    ∀ flag, event = .flushq flag → ¬ st.Overflows flag

def Refused (st : State) (b : Nat) (st' : State) : Prop :=
  (b = 0 ∧ st.q.flow.full = true ∧ canput st = (st', false)) ∨ bcanput st b = (st', false)

variable {st₁ : State}

section

variable {avail : Nat → Bool} {st st' : State} {xs ys : List Nat} {n b : Nat} {event : Event}
  {events : List Event} {bands : List Nat}

/-! ### The marks of a band -/

variable {f : Flow}

theorem Flow.Wants.charge {sizes : List Nat} (h : f.Wants)
    (hfits : f.count + sizes.foldr (fun n count => n + count) 0 < ulong) :
    (f.add sizes).setFull.Wants := by
  obtain ⟨hwantw, hup⟩ := h
  refine ⟨by rw [wantw_setFull, wantw_add]; exact hwantw, ?_⟩
  rcases hup with hfull | hup
  · left
    rw [full_setFull, full_add]
    exact .inl hfull
  · right
    rw [lowat_setFull, lowat_add, count_setFull, count_add (by omega), Nat.mod_eq_of_lt hfits]
    omega

theorem Flow.Wants.of_not_relieved (hwantw : f.wantw = true) (h : ¬ f.relieved = true) : f.Wants := by
  refine ⟨hwantw, .inr ?_⟩
  rw [relieved, hwantw, Bool.true_and, decide_eq_true_eq] at h
  omega

theorem load_filter {msg : Nat → Msg} (drop : Nat → Bool) {pri : Nat}
    (h : ∀ a ∈ xs, drop a = true → (msg a).bBand ≠ pri) :
    load msg pri (xs.filter fun a => !drop a) = load msg pri xs := by
  induction xs with
  | nil => rfl
  | cons a xs ih =>
    have ih' := ih fun c hc => h c (.tail _ hc)
    by_cases hdrop : drop a = true
    · rw [filter_cons_of_neg (by simp [hdrop]), ih', load, if_neg (h a (.head _) hdrop),
        Nat.zero_add]
    · rw [filter_cons_of_pos (by simp [hdrop]), load, ih', load]

/-! ### One step -/

theorem Behind.owed (st st₁ : State) {links : DList Nat} {q : Queue}
    (hbehind : Behind avail { st₁ with q := q, links := links } st' bands) (hlog : st₁.log = st.log)
    (hback : st₁.back.isSome = true) (hn : n ≤ st.log.length)
    (havail : ∀ i, st₁.calls ≤ i → i < st'.calls → avail i = true)
    (h : b ∈ st.log.drop n ∨ b ∈ bands ∨ ∃ f, q.flowOf b = some f ∧ f.Wants) : Owed st' n b := by
  obtain ⟨back, calls, l, rfl, -, -, hwoken⟩ := hbehind
  unfold Owed
  rw [hlog, drop_append_of_le_length hn]
  rcases h with h | h | h
  · exact .inl (mem_append_left _ h)
  · exact .inl (mem_append_right _ (hwoken hback havail b h))
  · exact .inr h

variable {e : Prop}

theorem Take.owed (htake : Take e avail st st' ys) (hback : st.back.isSome = true)
    (hn : n ≤ st.log.length) (havail : ∀ i, st.calls ≤ i → i < st'.calls → avail i = true)
    (h : Owed st n b) : Owed st' n b := by
  obtain ⟨links, q, bands, hbehind, hwaits⟩ := htake.behind
  refine Behind.owed st st hbehind rfl hback hn havail ?_
  rcases h with h | ⟨f, hf, hw⟩
  · exact .inl h
  · exact .inr (hwaits b f hf hw)

/-- The log and the queue behind after a step. -/
structure Keeps (st st' : State) : Prop where
  back : st.back.isSome = true → st'.back.isSome = true
  log : st.log.length ≤ st'.log.length
  calls : st.calls ≤ st'.calls

theorem Behind.keeps (h : Behind avail st st' bands) : Keeps st st' := by
  obtain ⟨back, calls, l, rfl, hcalls, hsome, -⟩ := h
  refine ⟨fun hback => by rw [← hback, ← hsome], ?_, hcalls⟩
  rw [length_append]
  exact Nat.le_add_right _ _

theorem Keeps.trans {st'' : State} (h : Keeps st st') (h' : Keeps st' st'') : Keeps st st'' :=
  ⟨fun hback => h'.back (h.back hback), Nat.le_trans h.log h'.log, Nat.le_trans h.calls h'.calls⟩

theorem Take.keeps (h : Take e avail st st' ys) : Keeps st st' := by
  obtain ⟨links, q, bands, hbehind, -⟩ := h.behind
  exact ⟨hbehind.keeps.back, hbehind.keeps.log, hbehind.keeps.calls⟩

theorem Put.keeps {bp : Nat} {ok : Bool} {m : Msg} (h : Put e (st.setMsg bp m) st' bp ok ys) :
    Keeps st st' := by
  have hcalls := h.calls
  obtain ⟨links, q, calls, heq⟩ := h.frame
  rw [heq] at hcalls ⊢
  exact ⟨fun hback => hback, Nat.le_refl _, hcalls⟩

theorem Put.owed {bp : Nat} {ok : Bool} {m : Msg} (h : Inv True st xs) (hfits : st.Fits xs m)
    (hput : Put True (st.setMsg bp m) st' bp ok ys) (howed : Owed st n b) : Owed st' n b := by
  obtain ⟨links, q, calls, heq⟩ := hput.frame
  rcases howed with hlog | ⟨f, hf, hw⟩
  · left
    rw [heq]
    exact hlog
  right
  refine ⟨_, hput.flow b f hf, ?_⟩
  rw [setMsg_self]
  split
  · rename_i hband
    refine hw.charge ?_
    unfold State.Fits at hfits
    rw [← hband.2, ← h.counted.exact (h.exact trivial) hf] at hfits
    exact hfits
  · exact hw

variable {gone : List Nat}

theorem Reput.keeps (h : Reput st.reset st₁ gone) :
    st₁.log = st.log ∧ st₁.back = st.back ∧ st.calls ≤ st₁.calls := by
  have hcalls := h.calls
  obtain ⟨links, q, calls, heq⟩ := h.frame
  rw [heq] at hcalls ⊢
  exact ⟨rfl, rfl, hcalls⟩

theorem Reput.flowOf (h : Reput st.reset st₁ gone) (hf : st.q.flowOf b = some f) :
    ∃ f', st₁.q.flowOf b = some f' ∧ f'.wantw = f.wantw ∧ f'.lowat = f.lowat ∧ f'.hiwat = f.hiwat := by
  refine h.flow b f.reset ?_
  rw [flowOf_reset, hf]
  rfl

theorem flushq_owed {flag : Bool} (hspells : st.links.Spells xs)
    (hreput : Reput st.reset st₁ (xs.filter fun a => flag || datamsg (st.msg a).dbType))
    (hinv : Inv True st₁ (xs.filter fun a => !(flag || datamsg (st.msg a).dbType)))
    (hbehind : Behind avail { st₁ with q := st₁.q.modifyFlows Flow.unwant } st'
      ((List.range ((st₁.q.bandp.length + 1) % 256)).filter (flushed st₁.q)))
    (hover : ¬ st.Overflows flag) (hback : st.back.isSome = true) (hn : n ≤ st.log.length)
    (havail : ∀ i, st.calls ≤ i → i < st'.calls → avail i = true) (howed : Owed st n b) :
    Owed st' n b := by
  obtain ⟨hlog, hback', hcalls⟩ := hreput.keeps
  refine Behind.owed st st₁ hbehind hlog (hback' ▸ hback) hn
    (fun i hi hlt => havail i (Nat.le_trans hcalls hi) hlt) ?_
  rcases howed with h | ⟨f, hf, hw⟩
  · exact Or.inl h
  obtain ⟨f', hf', hwantw, hlowat, -⟩ := hreput.flowOf hf
  have hlen : st₁.q.bandp.length = st.q.bandp.length := by
    rw [hreput.nband]
    exact length_map ..
  rw [hw.1] at hwantw
  by_cases hrel : f'.relieved = true
  · right
    left
    have hle := Queue.le_of_flowOf hf'
    have hnband := hinv.shape.nband
    have hcount := hinv.counted.exact (hinv.exact trivial) hf'
    rw [hreput.freed.1] at hcount
    rw [Flow.relieved, hwantw, Bool.true_and, decide_eq_true_eq] at hrel
    have hnot : st.q.bandp.length ≠ 255 := fun h255 =>
      hover ⟨h255, b, f, xs, hf, hw.1, hspells, by rw [← hcount, ← hlowat]; exact hrel⟩
    rw [mem_filter, mem_range]
    refine ⟨by omega, ?_⟩
    rw [flushed, hf', any_some, Flow.relieved, hwantw, Bool.true_and, decide_eq_true_eq]
    exact hrel
  · right
    right
    refine ⟨f', ?_, Flow.Wants.of_not_relieved hwantw hrel⟩
    rw [Queue.flowOf_modifyFlows, hf', map_some, Flow.unwant, if_neg hrel]

theorem flushband_zero_owed {flag : Bool} (h : Inv True st xs)
    (hreput : Reput st.reset st₁ (xs.filter fun a => zeroDrop flag (st.msg a)))
    (hinv : Inv True st₁ (xs.filter fun a => !zeroDrop flag (st.msg a))) (hbehind : Behind avail
      { st₁ with q := if st₁.q.flow.relieved = true then
          st₁.q.modifyFlow 0 Flow.clearWantw else st₁.q } st'
      (if st₁.q.flow.relieved = true then [0] else [])) (hback : st.back.isSome = true)
    (hn : n ≤ st.log.length) (havail : ∀ i, st.calls ≤ i → i < st'.calls → avail i = true)
    (howed : Owed st n b) : Owed st' n b := by
  obtain ⟨hlog, hback', hcalls⟩ := hreput.keeps
  refine Behind.owed st st₁ hbehind hlog (hback' ▸ hback) hn
    (fun i hi hlt => havail i (Nat.le_trans hcalls hi) hlt) ?_
  rcases howed with hold | ⟨f, hf, hw⟩
  · exact Or.inl hold
  · right
    obtain ⟨f', hf', hwantw, hlowat, hhiwat⟩ := hreput.flowOf hf
    rw [hw.1] at hwantw
    by_cases hb : b = 0
    · subst hb
      rw [Queue.flowOf_zero] at hf'
      cases hf'
      by_cases hrel : st₁.q.flow.relieved = true
      · left
        rw [if_pos hrel]
        exact mem_singleton_self _
      · right
        rw [if_neg hrel]
        exact ⟨_, Queue.flowOf_zero, Flow.Wants.of_not_relieved hwantw hrel⟩
    · right
      -- none of the messages of the band is dropped
      have hload : load st.msg b (xs.filter fun a => !zeroDrop flag (st.msg a)) = load st.msg b xs := by
        refine load_filter (fun a => zeroDrop flag (st.msg a)) fun a _ hdrop heq => ?_
        rw [zeroDrop, Bool.and_eq_true, Bool.and_eq_true, decide_eq_true_eq] at hdrop
        exact hb (heq ▸ hdrop.1.1)
      have hcount := h.counted.exact (h.exact trivial) hf
      have hcount' := hinv.counted.exact (hinv.exact trivial) hf'
      rw [hreput.freed.1, hload, ← hcount] at hcount'
      have hfull := (h.exact trivial).full b f hf
      have hfull' := (hinv.exact trivial).full b f' hf'
      refine ⟨f', ?_, hwantw, ?_⟩
      · split
        · rw [Queue.flowOf_modifyFlow, if_neg hb, hf']
        · exact hf'
      · rw [hfull', hlowat, hhiwat, hcount', ← hfull]
        exact hw.2

theorem wantw_owed {pri : Nat} (howed : Owed st n b) :
    Owed { st with q := st.q.modifyFlow pri fun f => { f with wantw := true } } n b := by
  rcases howed with h | ⟨f, hf, hw⟩
  · exact .inl h
  right
  by_cases hb : b = pri
  · refine ⟨{ f with wantw := true }, ?_, rfl, hw.2⟩
    rw [Queue.flowOf_modifyFlow, if_pos hb, hf]
    rfl
  · refine ⟨f, ?_, hw⟩
    rw [Queue.flowOf_modifyFlow, if_neg hb, hf]

/-- A step keeps what is owed to the writers. -/
theorem step_owed (hstep : Sound avail st event st') (h : Inv True st xs) (hback : st.back.isSome = true)
    (hn : n ≤ st.log.length) (howed : Owed st n b) : Owed st' n b := by
  obtain ⟨hstep, hroom, havail, hover⟩ := hstep
  have hspells := h.shape.spells
  cases hstep with
  | putq hbp hband hput =>
    rw [h.mem_iff] at hbp
    obtain ⟨ys, hres, -⟩ := putq_result h hbp hband (fun _ => hroom xs hspells) hput
    exact hres.owed h (hroom xs hspells) howed
  | putbq hbp hband hput =>
    rw [h.mem_iff] at hbp
    obtain ⟨ys, hres, -⟩ := putbq_result h hbp hband (fun _ => hroom xs hspells) hput
    exact hres.owed h (hroom xs hspells) howed
  | getq hget =>
    obtain ⟨ys, htake, -⟩ := getq_result h hget
    exact htake.owed hback hn (havail rfl) howed
  | rmvq hmp =>
    rw [h.mem_iff] at hmp
    obtain ⟨pre, post, rfl⟩ := append_of_mem hmp
    exact (rmvq_take avail h).owed hback hn (havail rfl) howed
  | flushq hflush =>
    rename_i fuel flag
    obtain ⟨st₁, -, hreput, hinv, hbehind⟩ := flushq_result h hflush
    exact flushq_owed hspells hreput hinv hbehind (hover flag rfl) hback hn (havail rfl) howed
  | flushband hpri hflush =>
    rename_i fuel pri flag
    by_cases hzero : pri = 0
    · subst hzero
      obtain ⟨st₁, -, hreput, hinv, hbehind⟩ := flushband_zero_result h hflush
      exact flushband_zero_owed h hreput hinv hbehind hback hn (havail rfl) howed
    · have hflushed := flushband_result (fun s ys => Inv True s ys ∧ Keeps st s ∧
          ((∀ i, st.calls ≤ i → i < s.calls → avail i = true) → Owed s n b)) h
        ⟨h, ⟨id, Nat.le_refl _, Nat.le_refl _⟩, fun _ => howed⟩
        (by omega) (by omega) (fun _ _ h => h.1.shape.spells)
        (fun s front mp back hs => by
          obtain ⟨hinv, hkeeps, howed'⟩ := hs
          have htake := rmvq_take avail hinv
          have hkeeps' := hkeeps.trans htake.keeps
          refine ⟨⟨htake.inv.freemsg, ⟨hkeeps'.back, hkeeps'.log, hkeeps'.calls⟩, fun hall => ?_⟩,
            htake.msg⟩
          have hold := howed' fun i hi hlt =>
            hall i hi (Nat.lt_of_lt_of_le hlt htake.keeps.calls)
          exact htake.owed (hkeeps.back hback) (Nat.le_trans hn hkeeps.log)
            (fun i hi hlt => hall i (Nat.le_trans hkeeps.calls hi) hlt) hold) hflush
      exact hflushed.1.2.2 (havail rfl)
  | canput hcan =>
    unfold canput at hcan
    split at hcan
    · cases hcan
      exact wantw_owed howed
    · cases hcan
      exact howed
  | bcanput hpri hcan =>
    unfold bcanput at hcan
    split at hcan
    · cases hcan
      exact wantw_owed howed
    · cases hcan
      exact howed
  | serve _ _ _ => exact howed

theorem step_keeps (hstep : Step avail st event st') (h : Inv False st xs) : Keeps st st' := by
  cases hstep with
  | putq hbp hband hput =>
    rw [h.mem_iff] at hbp
    obtain ⟨ys, hres, -⟩ := putq_result h hbp hband False.elim hput
    exact hres.keeps
  | putbq hbp hband hput =>
    rw [h.mem_iff] at hbp
    obtain ⟨ys, hres, -⟩ := putbq_result h hbp hband False.elim hput
    exact hres.keeps
  | getq hget =>
    obtain ⟨ys, htake, -⟩ := getq_result h hget
    exact htake.keeps
  | rmvq hmp =>
    rw [h.mem_iff] at hmp
    obtain ⟨pre, post, rfl⟩ := append_of_mem hmp
    exact (rmvq_take avail h).keeps
  | flushq hflush =>
    obtain ⟨st₁, -, hreput, -, hbehind⟩ := flushq_result h hflush
    obtain ⟨hlog, hback, hcalls⟩ := hreput.keeps
    have hkeeps := hbehind.keeps
    exact ⟨fun h => hkeeps.back (hback ▸ h), hlog ▸ hkeeps.log, Nat.le_trans hcalls hkeeps.calls⟩
  | flushband hpri hflush =>
    rename_i fuel pri flag
    by_cases hzero : pri = 0
    · subst hzero
      obtain ⟨st₁, -, hreput, -, hbehind⟩ := flushband_zero_result h hflush
      obtain ⟨hlog, hback, hcalls⟩ := hreput.keeps
      have hkeeps := hbehind.keeps
      exact ⟨fun h => hkeeps.back (hback ▸ h), hlog ▸ hkeeps.log, Nat.le_trans hcalls hkeeps.calls⟩
    · have hflushed := flushband_result (fun s ys => Inv False s ys ∧ Keeps st s) h
        ⟨h, ⟨id, Nat.le_refl _, Nat.le_refl _⟩⟩ (by omega) (by omega)
        (fun _ _ h => h.1.shape.spells)
        (fun s front mp back hs => by
          have htake := rmvq_take avail hs.1
          have hkeeps := hs.2.trans htake.keeps
          exact ⟨⟨htake.inv.freemsg, ⟨hkeeps.back, hkeeps.log, hkeeps.calls⟩⟩, htake.msg⟩) hflush
      exact hflushed.1.2
  | canput hcan =>
    unfold canput at hcan
    split at hcan <;> cases hcan <;> exact ⟨id, Nat.le_refl _, Nat.le_refl _⟩
  | bcanput hpri hcan =>
    unfold bcanput at hcan
    split at hcan <;> cases hcan <;> exact ⟨id, Nat.le_refl _, Nat.le_refl _⟩
  | serve _ _ _ => exact ⟨fun _ => rfl, Nat.le_refl _, Nat.le_refl _⟩

theorem refused_owed (h : Refused st b st') : Owed st' st.log.length b ∧ st'.log = st.log ∧
    (st'.back = st.back) := by
  have hset : ∀ pri f, st.q.flowOf pri = some f → f.full = true →
      Owed { st with q := st.q.modifyFlow pri fun f => { f with wantw := true } } st.log.length pri := by
    intro pri f hf hfull
    right
    refine ⟨{ f with wantw := true }, ?_, rfl, .inl hfull⟩
    rw [Queue.flowOf_modifyFlow, if_pos rfl, hf]
    rfl
  rcases h with ⟨rfl, hfull, hcan⟩ | hcan
  · rw [canput, if_pos (.inl hfull)] at hcan
    cases hcan
    exact ⟨hset 0 _ Queue.flowOf_zero hfull, rfl, rfl⟩
  unfold bcanput at hcan
  split at hcan
  · rename_i hany
    cases hcan
    cases hf : st.q.flowOf b with
    | none =>
      rw [hf] at hany
      cases hany
    | some f =>
      rw [hf, any_some] at hany
      exact ⟨hset b f hf hany, rfl, rfl⟩
  · cases hcan

theorem refused_inv (h : Refused st b st') (hinv : Inv e st xs) : Inv e st' xs := by
  rcases h with ⟨-, -, hcan⟩ | hcan
  · unfold canput at hcan
    split at hcan
    · cases hcan
      exact wantw_same hinv fun _ => ⟨rfl, rfl, rfl⟩
    · cases hcan
  · unfold bcanput at hcan
    split at hcan
    · cases hcan
      exact wantw_same hinv fun _ => ⟨rfl, rfl, rfl⟩
    · cases hcan

theorem run_owed (hrun : Exec (Sound avail) st events st') (h : Inv True st xs)
    (hback : st.back.isSome = true) (hn : n ≤ st.log.length) (howed : Owed st n b) : Owed st' n b := by
  suffices hall : (∃ ys, Inv True st' ys) ∧ st'.back.isSome = true ∧ n ≤ st'.log.length ∧
      Owed st' n b from hall.2.2.2
  have hkeep : ∀ s event t, ((∃ ys, Inv True s ys) ∧ s.back.isSome = true ∧ n ≤ s.log.length ∧
      Owed s n b) → Sound avail s event t → (∃ ys, Inv True t ys) ∧ t.back.isSome = true ∧
      n ≤ t.log.length ∧ Owed t n b := by
    rintro s event t ⟨⟨ys, hinv⟩, hback, hn, howed⟩ hstep
    have hkeeps := step_keeps hstep.1 ⟨hinv.shape, hinv.counted, False.elim⟩
    exact ⟨step_inv hstep.1 hinv fun _ => hstep.2.1, hkeeps.back hback, Nat.le_trans hn hkeeps.log,
      step_owed hstep hinv hback hn howed⟩
  exact hrun.keeps (fun s => (∃ ys, Inv True s ys) ∧ s.back.isSome = true ∧ n ≤ s.log.length ∧
    Owed s n b) hkeep ⟨⟨xs, h⟩, hback, hn, howed⟩

theorem run_sound {st₀ : State} (h₀ : Initial st₀) (hback : st₀.back.isSome = true)
    (hrun : Exec (Sound avail) st₀ events st) : (∃ xs, Inv True st xs) ∧ st.back.isSome = true := by
  have hkeep : ∀ s event t, ((∃ ys, Inv True s ys) ∧ s.back.isSome = true) →
      Sound avail s event t → (∃ ys, Inv True t ys) ∧ t.back.isSome = true := by
    rintro s event t ⟨⟨ys, hinv⟩, hback⟩ hstep
    have hkeeps := step_keeps hstep.1 ⟨hinv.shape, hinv.counted, False.elim⟩
    exact ⟨step_inv hstep.1 hinv fun _ => hstep.2.1, hkeeps.back hback⟩
  exact hrun.keeps (fun s => (∃ ys, Inv True s ys) ∧ s.back.isSome = true) hkeep ⟨⟨[], h₀.inv⟩, hback⟩

end

/-- In a run in which no count wraps, `allocband` does not fail for the queue behind, and `flushq`
does not find all 255 bands with a waiting writer it has made room for: a writer that was refused
because its band was full has had the queue behind back-enabled for the band by the time that the
count of the band is at the low-water mark or below and the band is no longer full. -/
theorem refused_woken {avail : Nat → Bool} {st₀ st₁ st₂ st₃ : State} {events events' : List Event}
    {b : Nat} {f : Flow} (h₀ : Initial st₀) (hback : st₀.back.isSome = true)
    (hrun : Exec (Sound avail) st₀ events st₁) (hrefused : Refused st₁ b st₂)
    (hlater : Exec (Sound avail) st₂ events' st₃) (hf : st₃.q.flowOf b = some f)
    (hdown : f.count ≤ f.lowat) (hfull : f.full = false) : b ∈ st₃.log.drop st₁.log.length := by
  obtain ⟨⟨xs, hinv⟩, hback₁⟩ := run_sound h₀ hback hrun
  obtain ⟨howed, hlog, hback₂⟩ := refused_owed hrefused
  have howed' := run_owed hlater (refused_inv hrefused hinv) (hback₂ ▸ hback₁)
    (Nat.le_of_eq (by rw [hlog])) howed
  rcases howed' with hin | ⟨f', hf', hw⟩
  · exact hin
  rw [hf] at hf'
  cases hf'
  rcases hw.2 with hyes | hlt
  · rw [hfull] at hyes
    cases hyes
  · omega

def wideQueue : State :=
  { emptyQueue 1 0 with
    q := { (emptyQueue 1 0).q with
      bandp := List.replicate 255 ⟨none, none, ⟨0, 1, 0, false, false, false⟩⟩ } }

theorem wideQueue_initial : Initial wideQueue where
  first := rfl
  last := rfl
  ends := by
    intro qbp hqbp
    rw [(mem_replicate.mp hqbp).2]
    exact ⟨rfl, rfl⟩
  flow := by
    intro pri f hf
    by_cases hpri : pri = 0
    · subst hpri
      cases hf
      exact ⟨rfl, rfl, Nat.one_pos⟩
    · rw [Queue.flowOf_band hpri, map_eq_some_iff] at hf
      obtain ⟨qbp, hqbp, rfl⟩ := hf
      rw [(mem_replicate.mp (mem_of_getElem? hqbp)).2]
      exact ⟨rfl, rfl, Nat.one_pos⟩
  blocked := rfl
  nband := Nat.le_of_eq length_replicate
  freed := rfl

/-- A message fills the queue, a writer is refused, the message goes: the end of the story. -/
def story (st : State) (event : State → Option State) : Option (State × State × State) :=
  (putq (fun _ => true) 1 (st.setMsg 0 ⟨0, 0, false, [1]⟩) 0).bind fun r =>
    (event (canput r.1).1).map fun st₃ => (r.1, (canput r.1).1, st₃)

theorem story_step {st st₂ st₃ : State} {event : State → Option State}
    (h : story st event = some (st₁, st₂, st₃)) (hinit : Initial st) (hfull : st₁.q.flow.full = true) :
    (∃ ok, Step (fun _ => true) st (.putq 0 ⟨0, 0, false, [1]⟩ ok) st₁) ∧ Refused st₁ 0 st₂ ∧
      event st₂ = some st₃ := by
  obtain ⟨r, hput, h⟩ := bind_eq_some_iff.mp h
  obtain ⟨st', hevent, heq⟩ := map_eq_some_iff.mp h
  cases heq
  have hinv : Inv False st [] := hinit.inv
  refine ⟨⟨r.2, Step.putq ?_ (by decide) hput⟩, .inl ⟨rfl, hfull, ?_⟩, hevent⟩
  · rw [hinv.mem_iff]
    exact not_mem_nil
  · rw [canput, if_pos (.inl hfull)]

/-- With few bands the writer is woken, here by `getq`. -/
theorem refused_woken_getq : ∃ st₁ st₃ : State, 0 ∈ st₃.log.drop st₁.log.length := by
  have hstory : (story (emptyQueue 1 0) fun st => (getq (fun _ => true) 2 st).map Prod.fst).map
      (fun r => (r.1.q.flow.full, r.2.2.q.flow)) =
      some (true, ⟨0, 1, 0, false, false, false⟩) := by decide
  obtain ⟨⟨st₁, st₂, st₃⟩, heq, hend⟩ := map_eq_some_iff.mp hstory
  simp only [Prod.mk.injEq] at hend
  obtain ⟨hfull, hflow⟩ := hend
  have hinit : Initial (emptyQueue 1 0) := emptyQueue_initial Nat.one_pos
  obtain ⟨⟨ok, hput⟩, hrefused, hevent⟩ := story_step heq hinit hfull
  obtain ⟨⟨st', r⟩, hget, rfl⟩ := map_eq_some_iff.mp hevent
  have hroom : (emptyQueue 1 0).Room (.putq 0 ⟨0, 0, false, [1]⟩ ok) := by
    intro xs hxs
    have hempty : Inv False (emptyQueue 1 0) [] := hinit.inv
    rw [← hempty.shape.spells.unique hxs]
    change 0 + 1 < ulong
    decide
  have hsound : Sound (fun _ => true) (emptyQueue 1 0) (.putq 0 ⟨0, 0, false, [1]⟩ ok) st₁ :=
    ⟨hput, hroom, fun _ _ _ _ => rfl, fun _ h => nomatch h⟩
  have hsound' : Sound (fun _ => true) st₂ (.getq r) st' :=
    ⟨Step.getq hget, trivial, fun _ _ _ _ => rfl, fun _ h => nomatch h⟩
  exact ⟨st₁, st', refused_woken hinit rfl (Exec.single hsound) hrefused (Exec.single hsound')
    (hflow ▸ Queue.flowOf_zero) (by decide) rfl⟩

/-- With 255 bands, `flushq` wakes no writer. -/
theorem wide_flush_wakes_none : ¬ ∀ (avail : Nat → Bool) (st₀ st₁ st₂ st₃ : State)
    (events events' : List Event) (b : Nat) (f : Flow), Initial st₀ → st₀.back.isSome = true →
      Exec (Step avail) st₀ events st₁ → Refused st₁ b st₂ → Exec (Step avail) st₂ events' st₃ →
      st₃.q.flowOf b = some f → f.count ≤ f.lowat → f.full = false →
      b ∈ st₃.log.drop st₁.log.length := by
  intro h
  have hstory : (story wideQueue fun st => flushq (fun _ => true) 2 st true).map
      (fun r => (r.1.q.flow.full, r.2.2.q.flow, r.2.2.log)) =
      some (true, ⟨0, 1, 0, false, false, false⟩, []) := by decide +kernel
  obtain ⟨⟨st₁, st₂, st₃⟩, heq, hend⟩ := map_eq_some_iff.mp hstory
  simp only [Prod.mk.injEq] at hend
  obtain ⟨hfull, hflow, hlog⟩ := hend
  obtain ⟨⟨ok, hput⟩, hrefused, hflush⟩ := story_step heq wideQueue_initial hfull
  have hin := h _ _ _ _ _ _ _ 0 _ wideQueue_initial rfl (Exec.single hput) hrefused
    (Exec.single (Step.flushq hflush)) (hflow ▸ Queue.flowOf_zero) (by decide) rfl
  rw [hlog, drop_nil] at hin
  cases hin

end Svr42.Strm

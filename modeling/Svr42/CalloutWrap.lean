import Svr42.CalloutRuns

/-! The callout table under a tick counter that wraps: when the clock interrupt asks for `timein`,
and when the functions are called, against the ticks that have gone by. -/

namespace Svr42.Callout.Wrap

open HeapSift List Nat

/-- A call of `timeout` for `tim` ticks, the entry it made, and how many ticks had gone by. -/
structure Request where
  entry : Callo
  asked : Nat
  tim : Int
  deriving DecidableEq

def Request.expiry (r : Request) : Int := r.asked + r.tim

/-- The table and `dotimein`, which `timepoke` increments. `ticks` and `requests`, the ticks that
have gone by and the calls of `timeout` still pending, are kept for the statements only. -/
structure Timer where
  clock : Clock
  dotimein : Nat
  ticks : Nat
  requests : Multiset Request

/-- `call` comes with the ticks that had gone by. -/
inductive Event where
  | tick
  | timeout (r : Request)
  | untimeout (id : Nat) (r : Option Request)
  | timein
  | call (r : Request) (now : Nat)
  | ret

instance (s : Clock) : Decidable (due s) := inferInstanceAs (Decidable (_ ∧ _))

/-- The clock interrupt looks at the first entry, and counts the tick after that. -/
def clockTick (s : Timer) : Timer :=
  { s with
    dotimein := if due s.clock then (s.dotimein + 1) % word else s.dotimein
    clock := { s.clock with lbolt := time (s.clock.lbolt + 1) }
    ticks := s.ticks + 1 }

/-- Delays are positive and fit in an int. `timein` runs, on the return from an interrupt, if
`dotimein` is set; between its rounds anything else may happen. -/
inductive Step (vCall : Nat) : Timer → Event → Timer → Prop
  | tick {s : Timer} : Step vCall s .tick (clockTick s)
  | timeout {s : Timer} {c : Clock} {fn arg id : Nat} {tim : Int} :
      0 < tim → tim < 0x80000000 → Callout.timeout vCall s.clock fn arg tim = some (c, id) →
      Step vCall s (.timeout ⟨⟨time (s.clock.lbolt + tim), id, arg, fn⟩, s.ticks, tim⟩)
        { s with
          clock := c
          requests := ⟨⟨time (s.clock.lbolt + tim), id, arg, fn⟩, s.ticks, tim⟩ ::ₘ s.requests }
  | badid {s : Timer} {id : Nat} : search s.clock id = none → Step vCall s (.untimeout id none) s
  | found {s : Timer} {id f : Nat} {r : Request} :
      search s.clock id = some f → r ∈ s.requests → r.entry = s.clock.callout f →
      Step vCall s (.untimeout id (some r))
        { s with clock := delete s.clock f, requests := s.requests.erase r }
  | timein {s : Timer} : s.dotimein ≠ 0 →
      Step vCall s .timein
        { s with dotimein := 0, clock := { s.clock with depth := s.clock.depth + 1 } }
  | call {s : Timer} {r : Request} : 0 < s.clock.depth → due s.clock → r ∈ s.requests →
      r.entry = (takeFirst s.clock).1 →
      Step vCall s (.call r s.ticks)
        { s with clock := (takeFirst s.clock).2, requests := s.requests.erase r }
  | ret {s : Timer} : 0 < s.clock.depth → ¬ due s.clock →
      Step vCall s .ret { s with clock := { s.clock with depth := s.clock.depth - 1 } }

def start (callout : Nat → Callo) (lbolt : Int) : Timer := ⟨boot callout lbolt, 0, 0, 0⟩

/-- No function has been called before its time, and unless `timein` is to run, or is running, what
is pending still has its time to come. -/
structure OnTime (events : List Event) (s : Timer) : Prop where
  called : ∀ r now, Event.call r now ∈ events → r.expiry ≤ now
  pending : s.dotimein = 0 → s.clock.depth = 0 → ∀ r ∈ s.requests, s.ticks ≤ r.expiry

/-- The expiry time fits in an int, and the counter wraps only when nothing is pending. -/
def InRange (s : Timer) : Event → Prop
  | .tick => (s.clock.ncallout ≠ 0 → Fits (s.clock.lbolt + 1)) ∧ s.dotimein + 1 < word
  | .timeout r => Fits (s.clock.lbolt + r.tim)
  | _ => True

variable {vCall : Nat} {s s' : Timer} {event : Event} {events : List Event} {r : Request}
  {callout : Nat → Callo} {lbolt : Int}

/-- What is pending is in the table, under the time the counter will have when it expires. -/
structure Sound (s : Timer) : Prop where
  ordered : s.clock.Ordered
  entries : s.requests.map Request.entry = s.clock.agenda.pending
  expiry : ∀ r ∈ s.requests, r.entry.cTime - s.clock.lbolt = r.expiry - s.ticks
  waiting : s.dotimein = 0 → s.clock.depth = 0 →
    ∀ e ∈ s.clock.agenda.pending, s.clock.lbolt ≤ e.cTime

/-! ### What a step does to the table -/

theorem not_due (h : s.clock.Ordered) (hdue : ¬ due s.clock) :
    ∀ e ∈ s.clock.agenda.pending, s.clock.lbolt < e.cTime := by
  intro e he
  have hpos : 0 < s.clock.ncallout := by
    obtain ⟨i, hi, -⟩ := mem_contents.mp he
    omega
  have hfirst : s.clock.lbolt < (s.clock.callout 0).cTime := not_le.mp fun hle => hdue ⟨hle, hpos⟩
  exact lt_of_lt_of_le hfirst (first_le h e he)

theorem pending_empty (h : s.clock.ncallout = 0) : s.clock.agenda.pending = 0 := by
  refine Multiset.eq_zero_of_forall_notMem fun e he => ?_
  obtain ⟨i, hi, -⟩ := mem_contents.mp he
  omega

theorem Sound.mem_entry (h : Sound s) (hr : r ∈ s.requests) : r.entry ∈ s.clock.agenda.pending := by
  rw [← h.entries]
  exact Multiset.mem_map_of_mem _ hr

variable {c : Clock}

theorem Sound.erase (h : Sound s) (hr : r ∈ s.requests) (hordered : c.Ordered)
    (hpending : c.agenda = { s.clock.agenda with
      pending := s.clock.agenda.pending.erase r.entry }) (hdepth : c.depth = s.clock.depth) :
    Sound { s with clock := c, requests := s.requests.erase r } := by
  have hlbolt : c.lbolt = s.clock.lbolt := congrArg Agenda.lbolt hpending
  have hsub : ∀ e ∈ c.agenda.pending, e ∈ s.clock.agenda.pending := by
    intro e he
    rw [hpending] at he
    exact Multiset.mem_of_mem_erase he
  refine ⟨hordered, ?_, fun r' hr' => ?_, fun hpoke hret e he => ?_⟩
  · rw [hpending, ← h.entries]
    exact Multiset.map_erase_of_mem _ _ hr
  · have hold := h.expiry r' (Multiset.mem_of_mem_erase hr')
    rw [← hlbolt] at hold
    exact hold
  · have hold := h.waiting hpoke (hdepth.symm.trans hret) e (hsub e he)
    rw [← hlbolt] at hold
    exact hold

theorem Sound.clockTick (h : Sound s) (hok : InRange s .tick) : Sound (clockTick s) := by
  -- the counter goes up by one, or nothing is pending
  have hlbolt : ∀ e ∈ s.clock.agenda.pending, time (s.clock.lbolt + 1) = s.clock.lbolt + 1 := by
    intro e he
    by_cases hempty : s.clock.ncallout = 0
    · rw [pending_empty hempty] at he
      exact absurd he (Multiset.notMem_zero e)
    · exact hok.1 hempty
  refine ⟨h.ordered, h.entries, fun r hr => ?_, fun hpoke hret e he => ?_⟩
  · have hold := h.expiry r hr
    have hnext := hlbolt r.entry (h.mem_entry hr)
    change r.entry.cTime - time (s.clock.lbolt + 1) = r.expiry - (s.ticks + 1 : Nat)
    rw [hnext]
    push_cast
    omega
  · have hnext := hlbolt e he
    have hquiet : ¬ due s.clock := by
      intro hdue
      change (if due s.clock then (s.dotimein + 1) % word else s.dotimein) = 0 at hpoke
      rw [if_pos hdue, mod_eq_of_lt hok.2] at hpoke
      exact succ_ne_zero _ hpoke
    have hlt := not_due h.ordered hquiet e he
    change time (s.clock.lbolt + 1) ≤ e.cTime
    omega

theorem Sound.timeout {fn arg id : Nat} {tim : Int} (h : Sound s) (hpos : 0 < tim)
    (hok : Fits (s.clock.lbolt + tim))
    (hcall : Callout.timeout vCall s.clock fn arg tim = some (c, id)) : Sound { s with
      clock := c
      requests := ⟨⟨time (s.clock.lbolt + tim), id, arg, fn⟩, s.ticks, tim⟩ ::ₘ s.requests } := by
  obtain ⟨hordered, -, -, hagenda⟩ := timeout_ok h.ordered hok hcall
  have hlbolt : c.lbolt = s.clock.lbolt := congrArg Agenda.lbolt hagenda
  have htime : time (s.clock.lbolt + tim) = s.clock.lbolt + tim := hok
  have hdepth : c.depth = s.clock.depth := by
    simp only [Callout.timeout] at hcall
    split at hcall
    · cases hcall
    · rw [Option.some.injEq, Prod.mk.injEq] at hcall
      rw [← hcall.1]
  refine ⟨hordered, ?_, fun r hr => ?_, fun hpoke hret e he => ?_⟩
  · rw [hagenda, Multiset.map_cons, h.entries, htime]
  · rw [hlbolt]
    rcases Multiset.mem_cons.mp hr with hnew | hold
    · rw [hnew, htime]
      change s.clock.lbolt + tim - s.clock.lbolt = s.ticks + tim - s.ticks
      omega
    · exact h.expiry r hold
  · rw [hagenda] at he
    change e ∈ _ ::ₘ s.clock.agenda.pending at he
    rw [hlbolt]
    rcases Multiset.mem_cons.mp he with hnew | hold
    · rw [hnew]
      change s.clock.lbolt ≤ s.clock.lbolt + tim
      omega
    · exact h.waiting hpoke (hdepth.symm.trans hret) e hold

theorem delete_depth {f : Nat} : (delete c f).depth = c.depth := by
  unfold delete
  by_cases hlast : f = c.ncallout - 1
  · rw [if_pos hlast]
  · by_cases hpos : 0 < c.ncallout - 1
    · simp only [if_neg hlast, if_pos hpos]
    · simp only [if_neg hlast, if_neg hpos]

theorem Sound.delete {f : Nat} (h : Sound s) (hr : r ∈ s.requests) (hf : f < s.clock.ncallout)
    (hentry : r.entry = s.clock.callout f) :
    Sound { s with clock := delete s.clock f, requests := s.requests.erase r } := by
  obtain ⟨hordered, hagenda⟩ := delete_ok h.ordered hf
  rw [← hentry] at hagenda
  exact h.erase hr hordered hagenda delete_depth

theorem Sound.step (h : Sound s) (hok : InRange s event) (hstep : Step vCall s event s') : Sound s' := by
  cases hstep with
  | tick => exact h.clockTick hok
  | timeout hpos _ hcall => exact h.timeout hpos hok hcall
  | badid _ => exact h
  | found hsearch hr hentry => exact h.delete hr (search_some hsearch).1 hentry
  | timein _ =>
    exact ⟨h.ordered, h.entries, h.expiry, fun _ hret => absurd hret (succ_ne_zero _)⟩
  | call _ hdue hr hentry =>
    rw [takeFirst_eq] at hentry ⊢
    exact h.delete hr hdue.2 hentry
  | ret _ hdue =>
    exact ⟨h.ordered, h.entries, h.expiry, fun _ _ e he => le_of_lt (not_due h.ordered hdue e he)⟩

theorem start_sound : Sound (start callout lbolt) := by
  refine ⟨boot_ordered, ?_, fun r hr => absurd hr (Multiset.notMem_zero r), fun _ _ e he => ?_⟩
  · exact (pending_empty (s := start callout lbolt) rfl).symm
  · rw [pending_empty (s := start callout lbolt) rfl] at he
    exact absurd he (Multiset.notMem_zero e)

theorem Sound.called {now : Nat} (h : Sound s) (hstep : Step vCall s (.call r now) s') :
    r.expiry ≤ now := by
  cases hstep with
  | call _ hdue hr hentry =>
    have hexpiry := h.expiry r hr
    rw [takeFirst_eq] at hentry
    rw [show r.entry = s.clock.callout 0 from hentry] at hexpiry
    have hle := hdue.1
    omega

theorem Sound.pending (h : Sound s) (hpoke : s.dotimein = 0) (hret : s.clock.depth = 0) :
    ∀ r ∈ s.requests, s.ticks ≤ r.expiry := by
  intro r hr
  have hexpiry := h.expiry r hr
  have hle := h.waiting hpoke hret r.entry (h.mem_entry hr)
  omega

theorem run_sound (hrun : Exec (Guarded (Step vCall) InRange) (start callout lbolt) events s) : Sound s :=
  hrun.keeps Sound (fun _ _ _ h hstep => h.step hstep.1 hstep.2) start_sound

/-- As long as no sum wraps, and the counter wraps only when nothing is pending, functions are
called on time wherever the counter starts. -/
theorem timeouts_on_time (hrun : Exec (Guarded (Step vCall) InRange) (start callout lbolt) events s) :
    OnTime events s ∧ s.requests.map Request.entry = s.clock.agenda.pending := by
  refine ⟨⟨?_, (run_sound hrun).pending⟩, (run_sound hrun).entries⟩
  induction hrun with
  | nil => exact fun r now hmem => absurd hmem not_mem_nil
  | snoc hrun' hstep ih =>
    intro r now hmem
    rcases mem_append.mp hmem with hold | hnew
    · exact ih r now hold
    · rw [← mem_singleton.mp hnew] at hstep
      exact (run_sound hrun').called hstep.2

/-! ### A sum that wraps -/

def idle : Callo := ⟨0, 0, 0, 0⟩

def quiet (n : Nat) : Timer := ⟨boot (fun _ => idle) (time n), 0, n, 0⟩

/-- What `timeout` asks for, and leaves, when the table is empty. -/
def request (s : Timer) (tim : Int) : Request :=
  ⟨⟨time (s.clock.lbolt + tim), nextId s.clock.timeid, 0, 0⟩, s.ticks, tim⟩

def asked (s : Timer) (tim : Int) : Timer :=
  { s with
    clock := { s.clock with
      ncallout := 1
      timeid := nextId s.clock.timeid
      callout := Function.update s.clock.callout 0 (request s tim).entry }
    requests := request s tim ::ₘ s.requests }

def entered (s : Timer) : Timer :=
  { s with dotimein := 0, clock := { s.clock with depth := s.clock.depth + 1 } }

def fired (s : Timer) (r : Request) : Timer :=
  { s with clock := (takeFirst s.clock).2, requests := s.requests.erase r }

theorem ask_step {tim : Int} (hempty : s.clock.ncallout = 0) (hpos : 0 < tim) (hlt : tim < 0x80000000) :
    Step 1 s (.timeout (request s tim)) (asked s tim) :=
  Step.timeout hpos hlt (timeout_empty hempty one_ne_zero)

theorem quiet_tick (n : Nat) : clockTick (quiet n) = quiet (n + 1) := by
  have hlbolt : time (time n + 1) = time ((n + 1 : Nat) : Int) := by
    unfold time
    rw [Int.bmod_add_bmod, cast_succ]
  have hquiet : ¬ due (quiet n).clock := fun hdue => lt_irrefl 0 hdue.2
  unfold clockTick
  rw [if_neg hquiet]
  simp only [quiet, boot, hlbolt]

theorem quiet_run (n : Nat) : Exec (Step 1) (quiet 0) (replicate n .tick) (quiet n) := by
  induction n with
  | zero => exact Exec.nil _
  | succ n ih =>
    rw [replicate_succ', ← quiet_tick]
    exact ih.snoc Step.tick

/-- A function asked for after one tick. The clock interrupt finds it due when it counts the next
one. -/
def promptEvents : List Event :=
  [.timeout (request (quiet 0) 1), .tick, .tick, .timein, .call (request (quiet 0) 1) 2]

theorem timeouts_on_time_prompt : OnTime promptEvents
    (fired (entered (clockTick (clockTick (asked (quiet 0) 1)))) (request (quiet 0) 1)) := by
  have hask : Guarded (Step 1) InRange (quiet 0) (.timeout (request (quiet 0) 1)) (asked (quiet 0) 1) :=
    ⟨rfl, ask_step rfl (by decide) (by decide)⟩
  have htick : ∀ s : Timer, InRange s .tick → Guarded (Step 1) InRange s .tick (clockTick s) :=
    fun s hok => ⟨hok, Step.tick⟩
  have henter : Guarded (Step 1) InRange (clockTick (clockTick (asked (quiet 0) 1))) .timein
      (entered (clockTick (clockTick (asked (quiet 0) 1)))) :=
    ⟨trivial, Step.timein (by decide)⟩
  have hcall : Guarded (Step 1) InRange (entered (clockTick (clockTick (asked (quiet 0) 1))))
      (.call (request (quiet 0) 1) 2)
      (fired (entered (clockTick (clockTick (asked (quiet 0) 1)))) (request (quiet 0) 1)) :=
    ⟨trivial, Step.call (by decide) (by decide) (Multiset.mem_cons_self (request (quiet 0) 1) 0)
      rfl⟩
  have hrun := Exec.snoc (Exec.snoc (Exec.snoc (Exec.snoc (Exec.single hask)
    (htick _ ⟨fun _ => rfl, by decide⟩)) (htick _ ⟨fun _ => rfl, by decide⟩)) henter) hcall
  exact (timeouts_on_time hrun).1

def brink : Nat := 0x7ffffffe

/-- A function asked for ten ticks ahead is called at the next tick. -/
theorem sum_wraps : ∃ events s, Exec (Step 1) (start (fun _ => idle) 0) events s ∧ ¬ OnTime events s := by
  have hcall : Step 1 (entered (clockTick (asked (quiet brink) 10)))
      (.call (request (quiet brink) 10) (brink + 1))
      (fired (entered (clockTick (asked (quiet brink) 10))) (request (quiet brink) 10)) :=
    Step.call (by decide) (by decide) (Multiset.mem_cons_self (request (quiet brink) 10) 0) rfl
  have hrun := Exec.snoc (Exec.snoc (Exec.snoc (Exec.snoc (quiet_run brink)
    (ask_step (s := quiet brink) rfl (by decide) (by decide))) Step.tick)
    (Step.timein (by decide))) hcall
  refine ⟨_, _, hrun, fun hok => ?_⟩
  have hlate := hok.called _ _ (mem_append_right _ (mem_singleton_self _))
  exact absurd hlate (by decide)

end Svr42.Callout.Wrap

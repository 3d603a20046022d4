import Svr42.FlockRuns

/-! What each owner holds at each byte, over the runs: what a request that succeeds changes, and when
a request that fails has changed something. -/

namespace Svr42.Flck
open Function List

def Keeps (s s' : Sys) : Prop :=
  ∀ vp o b t, Holds (s'.filocks vp) o b t ↔ Holds (s.filocks vp) o b t

theorem Keeps.of_eq {s s' : Sys} (h : s'.filocks = s.filocks) : Keeps s s' := fun vp o b t => by
  rw [h]

def Pass.result : Pass → Option (Option Errno)
  | .ret _ _ _ code => some code
  | .sleep _ _ _ _ => none

@[simp]
theorem Pass.restore_result (r : Pass) : r.restore.result = r.result := by
  cases r <;> rfl

theorem holds_map {l : List Filock} {g : Filock → Filock} (hg : ∀ f, (g f).set = f.set) (o : Int × Int)
    (b : Int) (t : LType) : Holds (l.map g) o b t ↔ Holds l o b t := by
  constructor
  · rintro ⟨f', hf', hheld⟩
    obtain ⟨f, hf, rfl⟩ := mem_map.mp hf'
    rw [hg f] at hheld
    exact ⟨f, hf, hheld⟩
  · rintro ⟨f, hf, hheld⟩
    refine ⟨g f, mem_map_of_mem hf, ?_⟩
    rw [hg f]
    exact hheld

theorem holds_filter {l : List Filock} {keep : Filock → Bool} (kept : Int × Int → Prop)
    (hkeep : ∀ f ∈ l, keep f = true ↔ kept f.set.owner) (o : Int × Int) (b : Int) (t : LType) :
    Holds (l.filter keep) o b t ↔ Holds l o b t ∧ kept o := by
  constructor
  · rintro ⟨f, hf, rfl, hheld⟩
    obtain ⟨hf, hpick⟩ := mem_filter.mp hf
    exact ⟨⟨f, hf, rfl, hheld⟩, (hkeep f hf).mp hpick⟩
  · rintro ⟨⟨f, hf, rfl, hheld⟩, hkept⟩
    exact ⟨f, mem_filter.mpr ⟨hf, (hkeep f hf).mpr hkept⟩, rfl, hheld⟩

section

variable {k : Kmem} {fuel : Nat} {c : Call} {s : Sys} {ld : Flock}

/-- A pass has set the request on the list of its vnode, or changed nothing that is held. -/
theorem PassCase.locks {r : Pass} (h : PassCase k fuel c s ld r) :
    (Keeps s r.sys ∧ (c.cmd.setflck = true → r.result ≠ some none)) ∨
      ∃ a code, Adjusts k c s ld a code ∧
        r.sys.filocks = update s.filocks c.vp a.list ∧ r.result = some code := by
  cases h with
  | unchanged hcode =>
    exact .inl ⟨Keeps.of_eq rfl, fun hset heq => hcode hset (Option.some.inj heq)⟩
  | tested hset => exact .inl ⟨Keeps.of_eq rfl, fun hset' => absurd hset' (by simp [hset])⟩
  | adjusted ha => exact .inr ⟨_, _, ha, rfl, rfl⟩
  | adjustedRemote ha => exact .inr ⟨_, _, ha, rfl, rfl⟩
  | noSleeper _ => exact .inl ⟨Keeps.of_eq rfl, fun _ => by simp [Pass.result]⟩
  | queued _ _ => exact .inl ⟨Keeps.of_eq rfl, fun _ => by simp [Pass.result]⟩
  | slept _ _ _ =>
    refine .inl ⟨fun vp o b t => ?_, fun _ => by simp [Pass.result]⟩
    by_cases hvp : vp = c.vp
    · subst hvp
      simp only [Pass.sys, Sys.setFilocks, update_self]
      exact holds_map (fun f => (counted_eq _ f).2) o b t
    · simp [Pass.sys, Sys.setFilocks, Sys.setSleeplcks, update_of_ne hvp]

theorem pass_sets_locks (fuel : Nat) (hs : SysOk s) (hr : Request ld) (hsets : Sets c s ld) :
    ∃ a code r, Adjusts k c s ld a code ∧ pass k fuel c s ld = some r ∧
      r.sys.filocks = update s.filocks c.vp a.list ∧ r.result = some code := by
  obtain ⟨a, code, ha, heq | heq⟩ := pass_sets (k := k) fuel hs hr hsets
  · exact ⟨a, code, _, ha, heq, rfl, rfl⟩
  · exact ⟨a, code, _, ha, heq, rfl, rfl⟩

end

/-! ### What a run represents -/

/-- An adjustment that succeeds has set the request, on its vnode and nowhere else. -/
theorem Adjusts.holds {k : Kmem} {c : Call} {s s' : Sys} {ld : Flock} {a : Adj}
    (h : Adjusts k c s ld a none) (hs : SysOk s) (hlist : s'.filocks = update s.filocks c.vp a.list)
    (vp : Nat) (o : Int × Int) (b : Int) (t : LType) :
    Holds (s'.filocks vp) o b t ↔ if vp = c.vp ∧ o = ld.owner ∧ ld.lStart ≤ b ∧ b ≤ ld.lEnd then
        ld.lType ≠ .unlck ∧ t = ld.lType
      else Holds (s.filocks vp) o b t := by
  rw [hlist]
  by_cases hvp : vp = c.vp
  · subst hvp
    rw [update_self, h.adj.holds (hs.wf c.vp) o b t]
    simp only [true_and]
  · rw [update_of_ne hvp, if_neg fun hin => hvp hin.1]

theorem AdjOk.code {k : Kmem} {ld : Flock} {mem : Mem} {l : List Filock} {a : Adj} {code : Option Errno}
    (h : AdjOk k ld mem l (a, code)) : code = none ∨ code = some .enolck := by
  cases h with
  | returned h =>
    cases h with
    | covered _ _ _ _ => exact .inl rfl
    | noTail _ _ _ _ _ _ => exact .inr rfl
  | unlocked _ _ => exact .inl rfl
  | locked _ _ _ _ _ _ => exact .inl rfl
  | noEntry _ _ _ _ _ _ => exact .inr rfl

/-- A stretch sets the request, or fails for want of memory, or changes nothing that is held. -/
theorem stretch_locks {k : Kmem} {fuel : Nat} {c : Call} {s : Sys} {e : Entry} {r : Pass} (hs : SysOk s)
    (he : e.Ok) (h : stretch k fuel c s e = some r) :
    (Keeps s r.sys ∧ (c.cmd.setflck = true → r.result ≠ some none)) ∨
      ∃ s₁ ld a code, passStart c s e = some (s₁, ld) ∧ SysOk s₁ ∧ s₁.filocks = s.filocks ∧
        Request ld ∧ Adjusts k c s₁ ld a code ∧
        r.sys.filocks = update s₁.filocks c.vp a.list ∧ r.result = some code := by
  obtain ⟨s₁, -, hs₁, hsame, ⟨ld, r₁, hstart, hr, hcase, rfl⟩ | ⟨-, out, code, rfl⟩⟩ :=
    stretch_sys hs he h
  · rw [Pass.restore_result, Pass.restore_sys]
    rcases hcase.locks with ⟨hkeep, hcode⟩ | ⟨a, code, ha, hlist, hcode⟩
    · refine .inl ⟨fun vp o b t => ?_, hcode⟩
      rw [hkeep vp o b t, hsame]
    · exact .inr ⟨s₁, ld, a, code, hstart, hs₁, hsame, hr, ha, hlist, hcode⟩
  · exact .inl ⟨Keeps.of_eq hsame, fun _ => by simp [Pass.result]⟩

theorem cleanlocks_holds {s : Sys} (hs : SysOk s) (vp : Nat) (pid sysid : Int) (o : Int × Int) (b : Int)
    (t : LType) : Holds (cleanlocks pid sysid (s.filocks vp) s.mem).1 o b t ↔
      Holds (s.filocks vp) o b t ∧ ¬ ((o.2 = pid ∨ pid = -1) ∧ o.1 = sysid) := by
  have hleft : (cleanlocks pid sysid (s.filocks vp) s.mem).1 =
      (s.filocks vp).filter (fun f => !cleanMatch pid sysid f) := (cleanlocks_ok hs rfl).2.1
  have hkeep : ∀ f ∈ s.filocks vp, (!cleanMatch pid sysid f) = true ↔
      ¬ ((f.set.owner.2 = pid ∨ pid = -1) ∧ f.set.owner.1 = sysid) := by
    intro f _
    simp only [cleanMatch, Flock.owner, Bool.not_eq_true', ← Bool.not_eq_true, Bool.and_eq_true,
      Bool.or_eq_true, decide_eq_true_eq]
  rw [hleft]
  exact holds_filter (fun o => ¬ ((o.2 = pid ∨ pid = -1) ∧ o.1 = sysid)) hkeep o b t

/-- In every state of a run the lists are well formed. A request that is set gives its owner the
type asked for on the bytes of its region, or takes them away, and nothing else; a call that does
not come to that, and has not run out of memory, changes nothing; `cleanlocks` takes away what the
process holds. -/
theorem locks_represent_bytes {k : Kmem} {events : List Event} {st : State}
    (h : Exec (Step k) initial events st) : (∀ vp, Wf (st.sys.filocks vp)) ∧
      (∀ i c e fuel r, Enabled st i c e → stretch k fuel c st.sys e = some r →
        c.cmd.setflck = true ∧ r.result = some none →
        ∃ s₁ ld, passStart c st.sys e = some (s₁, ld) ∧ ∀ vp o b t, Holds (r.sys.filocks vp) o b t ↔
            if vp = c.vp ∧ o = ld.owner ∧ ld.lStart ≤ b ∧ b ≤ ld.lEnd then
              ld.lType ≠ .unlck ∧ t = ld.lType
            else Holds (st.sys.filocks vp) o b t) ∧
      (∀ i c e fuel r, Enabled st i c e → stretch k fuel c st.sys e = some r →
        ¬ (c.cmd.setflck = true ∧ r.result = some none) → r.result ≠ some (some .enolck) →
        Keeps st.sys r.sys) ∧
      ∀ vp pid sysid o b t, Holds (cleanlocks pid sysid (st.sys.filocks vp) st.sys.mem).1 o b t ↔
          Holds (st.sys.filocks vp) o b t ∧ ¬ ((o.2 = pid ∨ pid = -1) ∧ o.1 = sysid) := by
  have hst := stateOk_of_run h
  refine ⟨hst.sys.wf, ?_, ?_, cleanlocks_holds hst.sys⟩
  · rintro i c e fuel r hen hrun ⟨hset, hresult⟩
    rcases stretch_locks hst.sys (hen.ok hst) hrun with
      ⟨-, hcode⟩ | ⟨s₁, ld, a, code, hstart, hs₁, hsame, -, ha, hlist, hcode⟩
    · exact absurd hresult (hcode hset)
    · rw [hcode, Option.some.injEq] at hresult
      subst hresult
      refine ⟨s₁, ld, hstart, fun vp o b t => ?_⟩
      rw [ha.holds hs₁ hlist, hsame]
  · intro i c e fuel r hen hrun hnot henolck
    rcases stretch_locks hst.sys (hen.ok hst) hrun with
      ⟨hkeep, -⟩ | ⟨s₁, ld, a, code, -, -, -, -, ha, -, hcode⟩
    · exact hkeep
    · rw [hcode] at hnot henolck
      rcases ha.adj.code with rfl | rfl
      · exact absurd ⟨ha.sets.setflck, rfl⟩ hnot
      · exact absurd rfl henolck

/-- F_SETLK of `fcntl` on vnode 0, opened for reading and writing. -/
def fcntlSetlk : Call :=
  ⟨0, ⟨false, true, false, false⟩, true, true, 0, .ok 0, ⟨false, false, false, false⟩⟩

def oneEntry : Kmem := Kmem.above 100 fun n => n = 0

def readLocked : State :=
  (callAll oneEntry 1 [(fcntlSetlk, ⟨.rdlck, 0, 0, 10, 0, 7⟩)] initial).getD initial

theorem readLocked_run : ∃ events, Exec (Step oneEntry) initial events readLocked := by
  have hcalls : callAll oneEntry 1 [(fcntlSetlk, ⟨.rdlck, 0, 0, 10, 0, 7⟩)] initial =
      some readLocked := rfl
  exact (callAll_run rfl hcalls).2

theorem locks_represent_bytes_read_locked :
    Wf (readLocked.sys.filocks 0) ∧ ∃ r, stretch oneEntry 1 fcntlSetlk readLocked.sys
      (.call ⟨.unlck, 0, 5, 0, 0, 7⟩) = some r ∧ Holds (r.sys.filocks 0) (0, 7) 4 .rdlck ∧
      ¬ Holds (r.sys.filocks 0) (0, 7) 5 .rdlck := by
  obtain ⟨events, hrun⟩ := readLocked_run
  obtain ⟨hwf, hset, -, -⟩ := locks_represent_bytes hrun
  have hidle : Enabled readLocked 0 fcntlSetlk (.call ⟨.unlck, 0, 5, 0, 0, 7⟩) := rfl
  obtain ⟨s₁, ld, hstart, hholds⟩ := hset 0 fcntlSetlk _ 1 _ hidle rfl ⟨rfl, rfl⟩
  have hld : s₁ = readLocked.sys ∧ ld = ⟨.unlck, 0, 5, maxEnd, 0, 7⟩ := by
    cases hstart
    exact ⟨rfl, rfl⟩
  obtain ⟨rfl, rfl⟩ := hld
  refine ⟨hwf 0, _, rfl, ?_, ?_⟩
  · rw [hholds, if_neg (by decide)]
    exact ⟨⟨1, ⟨.rdlck, 0, 0, 9, 0, 7⟩, ⟨0, 0⟩⟩, by decide, by decide⟩
  · rw [hholds, if_pos (by decide)]
    exact fun hheld => hheld.1 rfl

/-! ### Requests that fail in the middle -/

/-- `insflck` finds room for an entry, after so many entries and calls of `kmem_zalloc`. -/
def Room (k : Kmem) (reccnt : Int) (calls : Nat) : Prop :=
  reccnt < k.flckrec ∧ k.avail calls = true

/-- The memory runs out when locks of the owner have been cut already: there is no room for the piece
to be split off after others have gone, or none for the lock requested. -/
def Lossy (k : Kmem) (mem : Mem) (l : List Filock) (ld : Flock) : Prop :=
  (∀ f ∈ l, ¬ Covers ld f.set) ∧
    ((∃ f ∈ l, Splits ld f.set) ∧ ¬ Room k (mem.reccnt - goneBefore ld l) mem.calls ∧
        (∃ f ∈ l, Touches ld f.set ∧ ¬ Splits ld f.set) ∨
      (∃ f ∈ l, Splits ld f.set) ∧ Room k (mem.reccnt - goneBefore ld l) mem.calls ∧
        ld.lType ≠ .unlck ∧ ¬ Room k (mem.reccnt - gone ld l + 1) (mem.calls + 1) ∨
      (∀ f ∈ l, ¬ Splits ld f.set) ∧ (∃ f ∈ l, Touches ld f.set) ∧
        ld.lType ≠ .unlck ∧ ¬ Room k (mem.reccnt - gone ld l) mem.calls)

section

variable {k : Kmem} {ld : Flock} {mem : Mem} {l : List Filock} {a : Adj}

theorem cut_loses {f : Filock} (hregion : f.set.lStart ≤ f.set.lEnd) (hld : ld.lStart ≤ ld.lEnd)
    (ht : Touches ld f.set) : ∃ b, f.set.lStart ≤ b ∧ b ≤ f.set.lEnd ∧
      (f.set.lType ≠ ld.lType → ld.lStart ≤ b ∧ b ≤ ld.lEnd) := by
  have hnear := ht.2
  by_cases htype : f.set.lType = ld.lType
  · exact ⟨f.set.lStart, Int.le_refl _, hregion, fun hne => absurd htype hne⟩
  · rw [if_neg htype] at hnear
    exact ⟨max f.set.lStart ld.lStart, by omega, by omega, fun _ => by omega⟩

theorem cutBefore_keeps_iff (hwf : Wf l) (hld : ld.lStart ≤ ld.lEnd) :
    (∀ o b t, Holds (l.filterMap (cutBefore ld)) o b t ↔ Holds l o b t) ↔
      ¬ ∃ f ∈ l, Touches ld f.set ∧ ¬ Splits ld f.set := by
  constructor
  · rintro hkeeps ⟨f, hf, ht, hs⟩
    obtain ⟨b, hstart, hend, hin⟩ := cut_loses (hwf.valid f hf).region hld ht
    obtain ⟨g, hg, howner, hgs, hge, htype⟩ :=
      (hkeeps f.set.owner b f.set.lType).mpr ⟨f, hf, rfl, hstart, hend, rfl⟩
    obtain ⟨f', hf', hcut⟩ := mem_filterMap.mp hg
    have hshrunk := cutBefore_shrunk (hwf.valid f' hf') hcut
    have hend' := hshrunk.end
    have heq := hwf.eq_of_byte hf hf' (howner.symm.trans hshrunk.owner) ⟨hstart, hend⟩
      ⟨hshrunk.start ▸ hgs, by omega⟩
    subst heq
    rw [cutBefore, if_neg hs] at hcut
    rcases cut_cases hcut with ⟨-, hnot⟩ | ⟨rfl, -, hdiff, -⟩
    · exact hnot ht
    · have hge' : b ≤ ld.lStart - 1 := hge
      have := hin hdiff
      omega
  · intro hnone
    have hsame : ∀ f ∈ l, cutBefore ld f = some f := by
      intro f hf
      rw [cutBefore]
      split
      · rfl
      · rename_i hs
        exact cut_of_not_touches fun ht => hnone ⟨f, hf, ht, hs⟩
    intro o b t
    rw [filterMap_congr hsame, filterMap_some]

theorem LoopOk.keeps_iff (h : LoopOk k ld mem l (a, none)) (hwf : Wf l) (hld : ld.lStart ≤ ld.lEnd) :
    (∀ o b t, Holds a.list o b t ↔ Holds l o b t) ↔ ¬ ∃ f ∈ l, Touches ld f.set := by
  constructor
  · rintro hkeeps ⟨f, hf, ht⟩
    obtain ⟨b, hstart, hend, hin⟩ := cut_loses (hwf.valid f hf).region hld ht
    have hheld := (hkeeps f.set.owner b f.set.lType).mpr ⟨f, hf, rfl, hstart, hend, rfl⟩
    obtain ⟨-, hout, hgrown⟩ := (h.holds hwf _ _ _).mp hheld
    by_cases htype : f.set.lType = ld.lType
    · have htakes := h.grown.takes f hf ht htype
      exact hgrown ⟨ht.1, htype, by omega, by omega⟩
    · exact hout ⟨ht.1, hin htype⟩
  · intro hnone o b t
    rw [h.holds hwf o b t]
    refine ⟨fun hh => hh.1, fun hh => ?_⟩
    obtain ⟨f, hf, howner, hstart, hend, htype⟩ := hh
    have hout : ¬ (o = ld.owner ∧ ld.lStart ≤ b ∧ b ≤ ld.lEnd) := by
      rintro ⟨ho, hb⟩
      refine hnone ⟨f, hf, howner.trans ho, ?_⟩
      split <;> omega
    refine ⟨⟨f, hf, howner, hstart, hend, htype⟩, hout, ?_⟩
    rintro ⟨ho, -, hb⟩
    obtain ⟨y, hy, hty, -⟩ := h.grown.overlap hb fun hin => hout ⟨ho, hin⟩
    exact hnone ⟨y, hy, hty⟩

theorem Splits.touched {f : Filock} (hs : Splits ld f.set) (hld : ld.lStart ≤ ld.lEnd) :
    Touches ld f.set := by
  refine ⟨hs.1, ?_⟩
  rw [if_neg hs.2.1]
  have := hs.2.2
  omega

theorem LoopOk.room (h : LoopOk k ld mem l (a, none)) :
    (∃ f ∈ l, Splits ld f.set) ∧ Room k (mem.reccnt - goneBefore ld l) mem.calls ∧
        (a.mem.CanAlloc k ↔ Room k (mem.reccnt - gone ld l + 1) (mem.calls + 1)) ∨
      (∀ f ∈ l, ¬ Splits ld f.set ∧ ¬ Covers ld f.set) ∧
        (a.mem.CanAlloc k ↔ Room k (mem.reccnt - gone ld l) mem.calls) := by
  cases h with
  | split hf hs hroom _ _ _ hreccnt hcalls _ _ _ =>
    refine .inl ⟨⟨_, hf, hs⟩, hroom, ?_⟩
    rw [Mem.CanAlloc, hreccnt, hcalls, Room]
  | through hno _ _ hreccnt hcalls _ _ _ =>
    refine .inr ⟨hno, ?_⟩
    rw [Mem.CanAlloc, hreccnt, hcalls, Room]

/-- When `flckadj` fails, what it has changed. -/
theorem AdjOk.keeps_iff {code : Option Errno} (h : AdjOk k ld mem l (a, code)) (hwf : Wf l)
    (hld : ld.lStart ≤ ld.lEnd) :
    (code ≠ none → ∀ o b t, Holds a.list o b t ↔ Holds l o b t) ↔ ¬ Lossy k mem l ld := by
  have hcovers : ∀ f ∈ l, Splits ld f.set → ∀ g ∈ l, ¬ Covers ld g.set := by
    intro f hf hs g hg hc
    have hsb := hs.2.2
    have hcb := hc.2.2
    have heq := hwf.eq_of_byte hf hg (hs.1.trans hc.1.symm) (b := ld.lEnd) (by omega) (by omega)
    subst heq
    exact hs.2.1 hc.2.1
  cases h with
  | returned h =>
    cases h with
    | covered hf hc _ _ =>
      refine ⟨fun _ hlossy => hlossy.1 _ hf hc, fun _ hne => absurd rfl hne⟩
    | noTail hf hs hroom hlist _ _ =>
      have hcut := cutBefore_keeps_iff hwf hld
      rw [← hlist] at hcut
      rw [forall_prop_of_true (by simp), hcut, not_iff_not]
      refine ⟨fun hloses => ⟨hcovers _ hf hs, .inl ⟨⟨_, hf, hs⟩, hroom, hloses⟩⟩, ?_⟩
      rintro ⟨-, ⟨-, -, hloses⟩ | ⟨-, hroom', -⟩ | ⟨hno, -⟩⟩
      · exact hloses
      · exact absurd hroom' hroom
      · exact absurd hs (hno _ hf)
  | unlocked h hun =>
    refine ⟨fun _ => ?_, fun _ hne => absurd rfl hne⟩
    rintro ⟨-, ⟨⟨f, hf, hs⟩, hroom, -⟩ | ⟨-, -, hlock, -⟩ | ⟨-, -, hlock, -⟩⟩
    · rcases h.room with ⟨-, hroom', -⟩ | ⟨hno, -⟩
      · exact hroom hroom'
      · exact (hno f hf).1 hs
    · exact hlock hun
    · exact hlock hun
  | locked h hun halloc hins hmem hwakes =>
    refine ⟨fun _ => ?_, fun _ hne => absurd rfl hne⟩
    rintro ⟨-, hlossy⟩
    rcases h.room with ⟨⟨f, hf, hs⟩, hroom, hinsert⟩ | ⟨hno, hinsert⟩
    · rcases hlossy with ⟨-, hfull, -⟩ | ⟨-, -, -, hfull⟩ | ⟨hno, -⟩
      · exact hfull hroom
      · exact hfull (hinsert.mp halloc)
      · exact hno f hf hs
    · rcases hlossy with ⟨⟨f, hf, hs⟩, -⟩ | ⟨⟨f, hf, hs⟩, -⟩ | ⟨-, -, -, hfull⟩
      · exact (hno f hf).1 hs
      · exact (hno f hf).1 hs
      · exact hfull (hinsert.mp halloc)
  | noEntry h hun halloc hlist _ _ =>
    rw [forall_prop_of_true (by simp), hlist, h.keeps_iff hwf hld, not_iff_not]
    rcases h.room with ⟨⟨f, hf, hs⟩, hroom, hinsert⟩ | ⟨hno, hinsert⟩
    · refine ⟨fun _ => ⟨hcovers f hf hs, .inr (.inl ⟨⟨f, hf, hs⟩, hroom, hun, ?_⟩)⟩, fun _ => ?_⟩
      · exact fun hroom' => halloc (hinsert.mpr hroom')
      · exact ⟨f, hf, hs.touched hld⟩
    constructor
    · intro htouched
      refine ⟨fun f hf => (hno f hf).2, .inr (.inr ⟨fun f hf => (hno f hf).1, htouched, hun, ?_⟩)⟩
      exact fun hroom' => halloc (hinsert.mpr hroom')
    · rintro ⟨-, ⟨⟨f, hf, hs⟩, -⟩ | ⟨⟨f, hf, hs⟩, -⟩ | ⟨-, htouched, -⟩⟩
      · exact absurd hs (hno f hf).1
      · exact absurd hs (hno f hf).1
      · exact htouched

end

/-- A call that fails, or goes to sleep, leaves all locks as they were, unless it is a request to be
set for which memory runs out after locks of the owner have been cut. -/
theorem failed_call_keeps_locks_iff {k : Kmem} {fuel : Nat} {c : Call} {s : Sys} {e : Entry}
    (hs : SysOk s) (he : e.Ok) :
    (∀ r, stretch k fuel c s e = some r → r.result ≠ some none → Keeps s r.sys) ↔
      ¬ ∃ s₁ ld, passStart c s e = some (s₁, ld) ∧ Sets c s₁ ld ∧
        Lossy k s₁.mem (s₁.filocks c.vp) ld := by
  constructor
  · rintro hkeeps ⟨s₁, ld, hstart, hsets, hlossy⟩
    obtain ⟨hbegin, hr⟩ := passStart_ok he hstart
    obtain ⟨hs₁, hsame⟩ := Entry.begin_ok hs hbegin
    obtain ⟨a, code, r, ha, hpass, hlist, hcode⟩ := pass_sets_locks (k := k) fuel hs₁ hr hsets
    have hrun : stretch k fuel c s e = some r.restore := by
      rw [stretch_of_passStart hstart, hpass]
      rfl
    refine (ha.adj.keeps_iff (hs₁.wf c.vp) hr.region).mp (fun hfail o b t => ?_) hlossy
    have hkeep := hkeeps r.restore hrun (by simpa [hcode] using hfail) c.vp o b t
    rw [Pass.restore_sys, hlist, update_self] at hkeep
    rw [hkeep, hsame]
  · intro hnot r hrun hresult
    rcases stretch_locks hs he hrun with
      ⟨hkeep, -⟩ | ⟨s₁, ld, a, code, hstart, hs₁, hsame, hr, ha, hlist, hcode⟩
    · exact hkeep
    · intro vp o b t
      rw [hlist]
      by_cases hvp : vp = c.vp
      · subst hvp
        have hkeep := (ha.adj.keeps_iff (hs₁.wf c.vp) hr.region).mpr fun hlossy =>
          hnot ⟨s₁, ld, hstart, ha.sets, hlossy⟩
        rw [update_self, hkeep (fun hnone => hresult (by rw [hcode, hnone])), hsame]
      · rw [update_of_ne hvp, hsame]

theorem failed_call_keeps_locks_iff_upgrade :
    (∀ r, stretch oneEntry 1 fcntlSetlk readLocked.sys (.call ⟨.wrlck, 0, 0, 10, 0, 7⟩) = some r →
        r.result ≠ some none → Keeps readLocked.sys r.sys) ↔
      ¬ ∃ s₁ ld, passStart fcntlSetlk readLocked.sys (.call ⟨.wrlck, 0, 0, 10, 0, 7⟩) =
          some (s₁, ld) ∧ Sets fcntlSetlk s₁ ld ∧ Lossy oneEntry s₁.mem (s₁.filocks 0) ld := by
  obtain ⟨events, hrun⟩ := readLocked_run
  exact failed_call_keeps_locks_iff (stateOk_of_run hrun).sys trivial

/-- The write lock that is to replace the read lock finds no memory, and both are gone. -/
theorem upgrade_fails :
    ∃ r, stretch oneEntry 1 fcntlSetlk readLocked.sys (.call ⟨.wrlck, 0, 0, 10, 0, 7⟩) = some r ∧
      r.result = some (some .enolck) ∧ r.sys.filocks 0 = [] :=
  ⟨_, rfl, rfl, rfl⟩

theorem failed_call_loses_lock :
    ¬ ∀ k events st i c e fuel r, Exec (Step k) initial events st → Enabled st i c e →
      stretch k fuel c st.sys e = some r → r.result ≠ some none → Keeps st.sys r.sys := by
  intro h
  obtain ⟨events, hrun⟩ := readLocked_run
  obtain ⟨r, hend, hcode, hgone⟩ := upgrade_fails
  have hidle : Enabled readLocked 0 fcntlSetlk (.call ⟨.wrlck, 0, 0, 10, 0, 7⟩) := rfl
  have hkeep := h _ events _ 0 _ _ 1 r hrun hidle hend (by simp [hcode]) 0 (0, 7) 5 .rdlck
  have hheld : Holds (readLocked.sys.filocks 0) (0, 7) 5 .rdlck :=
    ⟨⟨1, ⟨.rdlck, 0, 0, 9, 0, 7⟩, ⟨0, 0⟩⟩, by decide, by decide⟩
  obtain ⟨f, hf, -⟩ := hkeep.mpr hheld
  rw [hgone] at hf
  cases hf

end Svr42.Flck

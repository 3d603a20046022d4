import Svr42.FlockSystem

/-! What a stretch of `reclock` can do to the lists, and the invariant of the runs: every list of a
vnode is well formed, and no two lists share an entry. -/

namespace Svr42.Flck
open Function List Option

/-! ### The lists of the system -/

def Sys.chain (s : Sys) : Option Nat → List Filock
  | none => s.sleeplcks
  | some vp => s.filocks vp

structure SysOk (s : Sys) : Prop where
  wf : ∀ vp, Wf (s.filocks vp)
  sleepers : (s.sleeplcks.map Filock.addr).Nodup
  used : ∀ i, ∀ p ∈ (s.chain i).map Filock.addr, p ∈ s.mem.used
  apart : ∀ i j, i ≠ j → ∀ p ∈ (s.chain i).map Filock.addr, p ∉ (s.chain j).map Filock.addr

section

variable {s : Sys} {mem : Mem} {l : List Filock}

/-- A step of one list leaves the lists apart. -/
theorem chain_frame (s' : Sys) (h : SysOk s) (i : Option Nat) (hframe : MemFrame s.mem (s.chain i) mem l)
    (hmem : s'.mem = mem) (hself : s'.chain i = l) (hother : ∀ j, j ≠ i → s'.chain j = s.chain j) :
    (∀ j, ∀ p ∈ (s'.chain j).map Filock.addr, p ∈ s'.mem.used) ∧
      ∀ j j', j ≠ j' → ∀ p ∈ (s'.chain j).map Filock.addr, p ∉ (s'.chain j').map Filock.addr := by
  have hnew : ∀ j, j ≠ i → ∀ p ∈ (s.chain j).map Filock.addr, p ∉ l.map Filock.addr := by
    intro j hj p hp hp'
    rcases hframe.fresh p hp' with hin | hin
    · exact h.apart j i hj p hp hin
    · exact hin (h.used j p hp)
  refine ⟨fun j p hp => ?_, fun j j' hne p hp => ?_⟩
  · rw [hmem]
    by_cases hj : j = i
    · subst hj
      exact hframe.inUse p (hself ▸ hp)
    · rw [hother j hj] at hp
      exact hframe.others p (h.used j p hp) (h.apart j i hj p hp)
  · by_cases hj : j = i
    · subst hj
      rw [hother j' hne.symm]
      rw [hself] at hp
      exact fun hp' => hnew j' hne.symm p hp' hp
    · rw [hother j hj] at hp
      by_cases hj' : j' = i
      · subst hj'
        rw [hself]
        exact hnew j hj p hp
      · rw [hother j' hj']
        exact h.apart j j' hne p hp

theorem SysOk.setFilocks (h : SysOk s) {vp : Nat} (hwf : Wf l)
    (hframe : MemFrame s.mem (s.filocks vp) mem l) : SysOk (s.setFilocks vp l mem) := by
  have hchain := chain_frame (s.setFilocks vp l mem) h (some vp) hframe rfl
    (by simp [Sys.chain, Sys.setFilocks]) fun j hj => by
      cases j with
      | none => rfl
      | some vp' =>
        have hne : vp' ≠ vp := fun heq => hj (congrArg some heq)
        simp [Sys.chain, Sys.setFilocks, update_of_ne hne]
  refine ⟨fun vp' => ?_, h.sleepers, hchain.1, hchain.2⟩
  by_cases heq : vp' = vp
  · subst heq
    simpa [Sys.setFilocks] using hwf
  · simpa [Sys.setFilocks, update_of_ne heq] using h.wf vp'

theorem SysOk.setSleeplcks (h : SysOk s) (hnodup : (l.map Filock.addr).Nodup)
    (hframe : MemFrame s.mem s.sleeplcks mem l) : SysOk (s.setSleeplcks l mem) := by
  have hchain := chain_frame (s.setSleeplcks l mem) h none hframe rfl rfl fun j hj => by
    cases j with
    | none => exact absurd rfl hj
    | some vp => rfl
  exact ⟨h.wf, hnodup, hchain.1, hchain.2⟩

theorem SysOk.initial : SysOk initial.sys :=
  ⟨fun _ => Wf.nil, by simp [Flck.initial], fun i p hp => by
    cases i <;> simp [Sys.chain, Flck.initial] at hp, fun i j _ p hp => by
    cases i <;> simp [Sys.chain, Flck.initial] at hp⟩

end

/-- Deleting entries: which are left, what it frees, and whom it wakes. -/
theorem delAll_ok (pick : Filock → Bool) {l : List Filock} {mem : Mem}
    (hnodup : (l.map Filock.addr).Nodup) (hused : ∀ p ∈ l.map Filock.addr, p ∈ mem.used) :
    (delAll pick l mem).1 = l.filter (fun f => !pick f) ∧
      MemFrame mem l (delAll pick l mem).2.1 (delAll pick l mem).1 ∧
      ∀ f ∈ l, pick f = true → f.stat.wakeflg = 0 ∨ f.addr ∈ (delAll pick l mem).2.2 := by
  induction l generalizing mem with
  | nil => exact ⟨rfl, MemFrame.refl hused, by simp⟩
  | cons f l ih =>
    rw [map_cons, nodup_cons] at hnodup
    cases hpick : pick f with
    | true =>
      have hfree : MemFrame mem (f :: l) (mem.free f.addr) l := by
        have hnodup' : (([] ++ f :: l).map Filock.addr).Nodup := by
          rw [nil_append, map_cons, nodup_cons]
          exact hnodup
        exact MemFrame.free hused hnodup'
      obtain ⟨hleft, hframe, hwake⟩ := ih hnodup.2 hfree.inUse
      have hval : delAll pick (f :: l) mem = ((delAll pick l (mem.free f.addr)).1,
          (delAll pick l (mem.free f.addr)).2.1,
          wakeup f ++ (delAll pick l (mem.free f.addr)).2.2) := by
        rw [delAll, if_pos hpick]
      rw [hval]
      refine ⟨?_, hfree.trans hframe, ?_⟩
      · rw [filter_cons_of_neg (by simp [hpick])]
        exact hleft
      · intro g hg hgpick
        rcases mem_cons.mp hg with rfl | hg
        · by_cases hzero : g.stat.wakeflg = 0
          · exact .inl hzero
          · exact .inr (mem_append_left _ (by simp [wakeup, hzero]))
        · exact (hwake g hg hgpick).imp_right fun hin => mem_append_right _ hin
    | false =>
      obtain ⟨hleft, hframe, hwake⟩ := ih hnodup.2 fun p hp => hused p (.tail _ hp)
      have hval : delAll pick (f :: l) mem = (f :: (delAll pick l mem).1,
          (delAll pick l mem).2.1, (delAll pick l mem).2.2) := by
        rw [delAll, if_neg (by simp [hpick])]
      rw [hval]
      refine ⟨?_, hframe.cons (hused _ (.head _)) hnodup.1, ?_⟩
      · rw [filter_cons_of_pos (by simp [hpick])]
        exact congrArg _ hleft
      · intro g hg hgpick
        rcases mem_cons.mp hg with rfl | hg
        · rw [hpick] at hgpick
          exact absurd hgpick (by simp)
        · exact hwake g hg hgpick

/-! ### What a pass can do -/

/-- A request as the prologue hands it over. -/
structure Request (ld : Flock) : Prop where
  nonneg : 0 ≤ ld.lStart
  region : ld.lStart ≤ ld.lEnd
  bounded : ld.lEnd ≤ maxEnd

theorem int32_le (x : Int) : int32 x ≤ maxEnd := by
  have hlt := Int.bmod_lt (x := x) (m := 0x100000000) (by decide)
  have hmax : maxEnd = 2147483647 := rfl
  rw [hmax, int32]
  omega

theorem endOf_le (ld : Flock) : endOf ld ≤ maxEnd := by
  rw [endOf]
  split
  · exact Int.le_refl _
  · exact int32_le _

variable {lckdat ld : Flock}

theorem convoff_zero {attr : Except Int Int} {offset : Int} (h : convoff attr lckdat 0 offset = .ok ld) :
    0 ≤ ld.lStart ∧ ld.lType = lckdat.lType ∧ ld.owner = lckdat.owner := by
  unfold convoff at h
  split at h
  · exact absurd h (by simp)
  · split at h
    · exact absurd h (by simp)
    · split at h
      · exact absurd h (by simp)
      · rename_i hneg
        rw [if_neg (by decide), Except.ok.injEq] at h
        subst h
        exact ⟨Int.not_lt.mp hneg, rfl, rfl⟩

variable {c : Call}

theorem prologue_request (h : prologue c lckdat = .ok ld) :
    Request ld ∧ ld.lType = lckdat.lType ∧ ld.owner = lckdat.owner := by
  unfold prologue at h
  split at h
  · exact absurd h (by simp)
  · split at h
    · exact absurd h (by simp)
    · rename_i ld₀ hconv
      have hzero := convoff_zero hconv
      split at h
      · exact absurd h (by simp)
      · split at h
        · exact absurd h (by simp)
        · rename_i hlt
          rw [Except.ok.injEq] at h
          subst h
          exact ⟨⟨hzero.1, Int.not_lt.mp hlt, endOf_le ld₀⟩, hzero.2⟩

/-- The request waits for the owner of `found`. -/
structure Waits (fuel : Nat) (c : Call) (s : Sys) (ld : Flock) (found : Filock) : Prop where
  slpflck : c.cmd.slpflck = true
  first : (blocked c.xenix (s.filocks c.vp) ld).1 = some found
  mem : found ∈ s.filocks c.vp
  blocks : Blocks c.xenix ld found
  alive : deadflck s.sleeplcks ld fuel found.set.owner = some false

def sleeper (k : Kmem) (mem : Mem) (ld : Flock) (found : Filock) : Filock :=
  { newEntry k mem ld with stat := ⟨found.set.owner.1, found.set.owner.2⟩ }

/-- The request is to be set: an unlock, or a lock that nothing blocks. -/
structure Sets (c : Call) (s : Sys) (ld : Flock) : Prop where
  setflck : c.cmd.setflck = true
  clear : ld.lType = .unlck ∨
    (ld.lType = .rdlck ∨ ld.lType = .wrlck) ∧ (blocked c.xenix (s.filocks c.vp) ld).1 = none

/-- The request is set with `flckadj`. -/
structure Adjusts (k : Kmem) (c : Call) (s : Sys) (ld : Flock) (a : Adj) (code : Option Errno) :
    Prop where
  sets : Sets c s ld
  adj : AdjOk k ld s.mem (s.filocks c.vp) (a, code)
  free : ld.lType ≠ .unlck → Valid ld ∧ Unblocked ld (s.filocks c.vp)

/-- The passes of `reclock`, by what they do to the lists. -/
inductive PassCase (k : Kmem) (fuel : Nat) (c : Call) (s : Sys) (ld : Flock) : Pass → Prop
  | unchanged {out : Flock} {code : Option Errno} :
      (c.cmd.setflck = true → code ≠ none) → PassCase k fuel c s ld (.ret s [] out code)
  | tested {out : Flock} : c.cmd.setflck = false →
      PassCase k fuel c s ld (rmPass s [] out none)
  | adjusted {a : Adj} {code : Option Errno} : Adjusts k c s ld a code →
      PassCase k fuel c s ld (.ret (s.setFilocks c.vp a.list a.mem) a.wakes a.ld code)
  | adjustedRemote {a : Adj} {code : Option Errno} : Adjusts k c s ld a code →
      PassCase k fuel c s ld (rmPass (s.setFilocks c.vp a.list a.mem) a.wakes a.ld code)
  | noSleeper {mem : Mem} : mem.used = s.mem.used →
      PassCase k fuel c s ld (.ret { s with mem := mem } [] ld (some .enolck))
  | queued {found : Filock} : Waits fuel c s ld found → s.mem.CanAlloc k →
      PassCase k fuel c s ld
        (.ret (s.setSleeplcks (sleeper k s.mem ld found :: s.sleeplcks) (s.mem.alloc k)) [] ld
          (some .eintr))
  | slept {found : Filock} : Waits fuel c s ld found → s.mem.CanAlloc k → c.cmd.rcmdlck = false →
      PassCase k fuel c s ld
        (.sleep ((s.setSleeplcks (sleeper k s.mem ld found :: s.sleeplcks)
          (s.mem.alloc k)).setFilocks c.vp (countSleeper (s.filocks c.vp) found) (s.mem.alloc k)) ld
          found.addr (k.place s.mem.calls s.mem.used))

variable {k : Kmem}

theorem setBlk_new {s : Sys} (h : SysOk s) (ld : Flock) (found : Filock) :
    setBlk (newEntry k s.mem ld :: s.sleeplcks) (k.place s.mem.calls s.mem.used)
      found.set.owner = sleeper k s.mem ld found :: s.sleeplcks := by
  have hkeep : ∀ f ∈ s.sleeplcks, f.addr ≠ k.place s.mem.calls s.mem.used := by
    intro f hf heq
    exact k.place_fresh _ _ (heq ▸ h.used none f.addr (mem_map_of_mem hf))
  rw [setBlk, map_cons]
  congr 1
  · exact if_pos rfl
  · exact (map_congr_left fun f hf => if_neg (hkeep f hf)).trans (map_id _)

variable {fuel : Nat}

theorem waitPass_cases {s : Sys} {found : Filock} (h : SysOk s) (hw : Waits fuel c s ld found) :
    PassCase k fuel c s ld (waitPass k c s ld found) := by
  rw [waitPass]
  split
  · exact PassCase.unchanged fun _ => by simp
  · by_cases halloc : s.mem.CanAlloc k
    · rw [insflck_succeeds halloc]
      simp only [setBlk_new h]
      cases hr : c.cmd.rcmdlck with
      | true => exact PassCase.queued hw halloc
      | false => exact PassCase.slept hw halloc hr
    · obtain ⟨mem, hfail, hused⟩ := insflck_fails halloc s.sleeplcks ld none
      rw [hfail]
      exact PassCase.noSleeper hused

/-- A request that is to be set is set, and `RM_SLEEPLCKS` may follow. -/
theorem pass_sets {s : Sys} (fuel : Nat) (h : SysOk s) (hr : Request ld) (hsets : Sets c s ld) :
    ∃ a code, Adjusts k c s ld a code ∧
      (pass k fuel c s ld = some (.ret (s.setFilocks c.vp a.list a.mem) a.wakes a.ld code) ∨
        pass k fuel c s ld = some (rmPass (s.setFilocks c.vp a.list a.mem) a.wakes a.ld code)) := by
  rcases hsets.clear with hun | ⟨htype, hclear⟩
  · refine ⟨_, _, ⟨hsets, flckadj_ok k (h.wf c.vp) hr.region (h.used (some c.vp))
      (.inl ⟨hun, rfl⟩), fun hne => absurd hun hne⟩, ?_⟩
    have hpass : pass k fuel c s ld = some (unlockPass k c s ld) := by
      rw [pass, hun]
    rw [hpass, unlockPass, if_pos hsets.setflck]
    cases c.cmd.rcmdlck with
    | true => exact .inr rfl
    | false => exact .inl rfl
  have hpass : pass k fuel c s ld = lockPass k fuel c s ld := by
    rcases htype with ht | ht <;> rw [pass, ht]
  rw [hpass, lockPass]
  rcases hblk : blocked c.xenix (s.filocks c.vp) ld with ⟨res, insrt⟩
  rcases blocked_ok (h.wf c.vp) hr.region with ⟨f, -, hfound, -⟩ | ⟨-, hstart, hfree⟩
  · rw [hfound] at hclear
    exact absurd hclear (by simp)
  rw [hblk] at hclear hstart
  have hres : res = none := hclear
  subst hres
  refine ⟨_, _, ⟨hsets, flckadj_ok k (h.wf c.vp) hr.region (h.used (some c.vp))
    (.inr hstart), fun _ => ⟨⟨hr.nonneg, hr.region, hr.bounded, htype⟩,
      unblocked_of_blocks (h.wf c.vp) htype hfree⟩⟩, ?_⟩
  simp only [if_pos hsets.setflck]
  split
  · exact .inr rfl
  · exact .inl rfl

variable {r : Pass}

theorem lockPass_cases {s : Sys} (h : SysOk s) (hr : Request ld)
    (htype : ld.lType = .rdlck ∨ ld.lType = .wrlck) (hsets : ¬ Sets c s ld)
    (hp : lockPass k fuel c s ld = some r) : PassCase k fuel c s ld r := by
  rw [lockPass] at hp
  rcases hblk : blocked c.xenix (s.filocks c.vp) ld with ⟨res, insrt⟩
  rcases blocked_ok (h.wf c.vp) hr.region with ⟨f, hf, hfirst, hb⟩ | ⟨hfirst, -, -⟩
  · have hfound := hfirst
    rw [hblk] at hfound hp
    have hres : res = some f := hfound
    subst hres
    simp only [] at hp
    cases hslp : c.cmd.slpflck with
    | true =>
      rw [if_pos hslp] at hp
      cases hdead : deadflck s.sleeplcks ld fuel f.set.owner with
      | none =>
        rw [hdead] at hp
        exact absurd hp (by simp)
      | some dead =>
        rw [hdead] at hp
        cases dead with
        | true =>
          cases hp
          exact PassCase.unchanged fun _ => by simp
        | false =>
          cases hp
          exact waitPass_cases h ⟨hslp, hfirst, hf, hb, hdead⟩
    | false =>
      rw [if_neg (by simp [hslp])] at hp
      split at hp
      · cases hp
        exact PassCase.unchanged fun _ => by simp
      · rename_i hset
        cases hp
        exact PassCase.unchanged fun hset' => absurd hset' hset
  · have hset : ¬ c.cmd.setflck = true := fun hset => hsets ⟨hset, .inr ⟨htype, hfirst⟩⟩
    rw [hblk] at hfirst hp
    have hres : res = none := hfirst
    subst hres
    simp only [if_neg hset] at hp
    split at hp
    · cases hp
      exact PassCase.tested (by simpa using hset)
    · cases hp
      exact PassCase.unchanged fun hset' => absurd hset' hset

theorem unlockPass_cases {s : Sys} (hset : ¬ c.cmd.setflck = true) :
    PassCase k fuel c s ld (unlockPass k c s ld) := by
  rw [unlockPass, if_neg hset]
  simp only []
  split
  · exact PassCase.tested (by simpa using hset)
  · exact PassCase.unchanged fun hset' => absurd hset' hset

theorem pass_cases {s : Sys} (h : SysOk s) (hr : Request ld) (hp : pass k fuel c s ld = some r) :
    PassCase k fuel c s ld r := by
  by_cases hsets : Sets c s ld
  · obtain ⟨a, code, ha, heq | heq⟩ := pass_sets (k := k) fuel h hr hsets
    · rw [heq] at hp
      cases hp
      exact PassCase.adjusted ha
    · rw [heq] at hp
      cases hp
      exact PassCase.adjustedRemote ha
  · unfold pass at hp
    split at hp
    · rename_i htype
      exact lockPass_cases h hr (.inl htype) hsets hp
    · rename_i htype
      exact lockPass_cases h hr (.inr htype) hsets hp
    · rename_i hun
      cases hp
      exact unlockPass_cases fun hset => hsets ⟨hset, .inl hun⟩
    · cases hp
      exact PassCase.unchanged fun _ => by simp

/-! ### The lists stay in order -/

def Pass.sys : Pass → Sys
  | .ret s _ _ _ => s
  | .sleep s _ _ _ => s

theorem Wf.map {l : List Filock} (h : Wf l) {g : Filock → Filock}
    (hg : ∀ f, (g f).addr = f.addr ∧ (g f).set = f.set) : Wf (l.map g) := by
  rw [← filterMap_eq_map]
  refine h.filterMap fun f hf f' hf' => ?_
  cases hf'
  have hset := (hg f).2
  exact ⟨(hg f).1, by rw [hset], by rw [hset], by rw [hset], Int.le_of_eq (by rw [hset]),
    by rw [hset]; exact (h.valid f hf).region⟩

theorem counted_eq (found f : Filock) :
    (counted found f).addr = f.addr ∧ (counted found f).set = f.set := by
  rw [counted]
  split <;> exact ⟨rfl, rfl⟩

theorem SysOk.rmPass {s : Sys} (h : SysOk s) (wakes : List Nat) (ld : Flock) (code : Option Errno) :
    SysOk (rmPass s wakes ld code).sys := by
  obtain ⟨hleft, hframe, -⟩ := delAll_ok (rmMatch ld) h.sleepers (h.used none)
  refine h.setSleeplcks ?_ hframe
  rw [hleft]
  exact (filter_sublist.map _).nodup h.sleepers

theorem Adjusts.sysOk {s : Sys} {a : Adj} {code : Option Errno} (h : Adjusts k c s ld a code)
    (hs : SysOk s) (hr : Request ld) : SysOk (s.setFilocks c.vp a.list a.mem) :=
  hs.setFilocks (h.adj.wf (hs.wf c.vp) hr.region (fun hne => (h.free hne).1)
    fun hne => (h.free hne).2) h.adj.frame

theorem SysOk.sleeper {s : Sys} (h : SysOk s) (k : Kmem) (ld : Flock) (found : Filock) :
    SysOk (s.setSleeplcks (sleeper k s.mem ld found :: s.sleeplcks) (s.mem.alloc k)) := by
  refine h.setSleeplcks ?_ ⟨fun p hp => ?_, fun p hp _ => .tail _ hp, fun p hp => ?_⟩
  · rw [map_cons, nodup_cons]
    exact ⟨fun hin => k.place_fresh _ _ (h.used none _ hin), h.sleepers⟩
  · rcases mem_cons.mp hp with rfl | hp
    · exact .head _
    · exact .tail _ (h.used none p hp)
  · rcases mem_cons.mp hp with rfl | hp
    · exact .inr (k.place_fresh _ _)
    · exact .inl hp

theorem PassCase.sysOk {s : Sys} (h : PassCase k fuel c s ld r) (hs : SysOk s) (hr : Request ld) :
    SysOk r.sys := by
  cases h with
  | unchanged _ => exact hs
  | tested _ => exact hs.rmPass _ _ _
  | adjusted ha => exact ha.sysOk hs hr
  | adjustedRemote ha => exact (ha.sysOk hs hr).rmPass _ _ _
  | noSleeper hused => exact ⟨hs.wf, hs.sleepers, fun i p hp => hused ▸ hs.used i p hp, hs.apart⟩
  | queued _ _ => exact hs.sleeper k ld _
  | slept hw _ _ =>
    have hs' := hs.sleeper k ld ‹Filock›
    exact hs'.setFilocks ((hs.wf c.vp).map (counted_eq _))
      (MemFrame.map (fun f => (counted_eq _ f).1) (hs'.used (some c.vp)))

/-! ### Stretches and runs -/

/-- The request a stretch makes its pass with, and the lists it finds then. -/
def passStart (c : Call) (s : Sys) : Entry → Option (Sys × Flock)
  | .call lckdat =>
      match prologue c lckdat with
      | .error _ => none
      | .ok ld => some (s, ld)
  | .awake lckdat sf intr => if intr = true then none else (dropSleeper s sf).map fun s => (s, lckdat)

def Entry.begin (s : Sys) : Entry → Option Sys
  | .call _ => some s
  | .awake _ sf _ => dropSleeper s sf

def Entry.Ok : Entry → Prop
  | .call _ => True
  | .awake lckdat _ _ => Request lckdat

theorem dropSleeper_eq {s s' : Sys} {sf : Nat} (h : dropSleeper s sf = some s') :
    ∃ f ∈ s.sleeplcks, f.addr = sf ∧
      s' = s.setSleeplcks (delflck s.sleeplcks f) (s.mem.free f.addr) := by
  unfold dropSleeper at h
  split at h
  · exact absurd h (by simp)
  · rename_i f hf
    have haddr : f.addr = sf := by simpa using List.find?_some hf
    cases h
    exact ⟨f, mem_of_find?_eq_some hf, haddr, by rw [haddr]⟩

theorem SysOk.dropSleeper {s s' : Sys} {sf : Nat} (h : SysOk s) (hdrop : dropSleeper s sf = some s') :
    SysOk s' := by
  obtain ⟨f, hf, -, rfl⟩ := dropSleeper_eq hdrop
  refine h.setSleeplcks ?_ (MemFrame.del hf (h.used none) h.sleepers)
  rw [delflck_eq_filter h.sleepers]
  exact (filter_sublist.map _).nodup h.sleepers

variable {e : Entry}

theorem Entry.begin_ok {s s₁ : Sys} (hs : SysOk s) (h : e.begin s = some s₁) :
    SysOk s₁ ∧ s₁.filocks = s.filocks := by
  cases e with
  | call _ =>
    cases h
    exact ⟨hs, rfl⟩
  | awake _ sf _ =>
    refine ⟨hs.dropSleeper h, ?_⟩
    obtain ⟨f, -, -, rfl⟩ := dropSleeper_eq h
    rfl

theorem passStart_ok {s s₁ : Sys} (he : e.Ok) (h : passStart c s e = some (s₁, ld)) :
    e.begin s = some s₁ ∧ Request ld := by
  cases e with
  | call lckdat =>
    simp only [passStart] at h
    split at h
    · exact absurd h (by simp)
    · rename_i ld' hpro
      cases h
      exact ⟨rfl, (prologue_request hpro).1⟩
  | awake lckdat sf intr =>
    simp only [passStart] at h
    split at h
    · exact absurd h (by simp)
    · obtain ⟨s', hdrop, heq⟩ := map_eq_some_iff.mp h
      cases heq
      exact ⟨hdrop, he⟩

/-- A stretch that makes a pass ends as the pass does; any other returns at once with an error. -/
theorem stretch_cases {s : Sys} (h : stretch k fuel c s e = some r) :
    (∃ s₁ ld r₁, passStart c s e = some (s₁, ld) ∧ pass k fuel c s₁ ld = some r₁ ∧
        r = r₁.restore) ∨
      passStart c s e = none ∧ ∃ s₁ out code, e.begin s = some s₁ ∧ r = .ret s₁ [] out (some code) := by
  cases e with
  | call lckdat =>
    simp only [stretch] at h
    simp only [passStart]
    cases hpro : prologue c lckdat with
    | error code =>
      rw [hpro] at h
      cases h
      exact .inr ⟨rfl, s, lckdat, code, rfl, rfl⟩
    | ok ld =>
      rw [hpro] at h
      obtain ⟨r₁, hpass, rfl⟩ := map_eq_some_iff.mp h
      exact .inl ⟨s, ld, r₁, rfl, hpass, rfl⟩
  | awake lckdat sf intr =>
    simp only [stretch] at h
    simp only [passStart]
    cases hdrop : dropSleeper s sf with
    | none =>
      rw [hdrop] at h
      exact absurd h (by simp)
    | some s₁ =>
      rw [hdrop] at h
      cases intr with
      | true =>
        cases h
        exact .inr ⟨rfl, s₁, restoreLen lckdat, .eintr, hdrop, rfl⟩
      | false =>
        obtain ⟨r₁, hpass, rfl⟩ := map_eq_some_iff.mp h
        exact .inl ⟨s₁, lckdat, r₁, rfl, hpass, rfl⟩

theorem stretch_of_passStart {s s₁ : Sys} (h : passStart c s e = some (s₁, ld)) :
    stretch k fuel c s e = (pass k fuel c s₁ ld).map Pass.restore := by
  cases e with
  | call lckdat =>
    simp only [passStart] at h
    simp only [stretch]
    cases hpro : prologue c lckdat with
    | error code =>
      rw [hpro] at h
      exact absurd h (by simp)
    | ok ld' =>
      rw [hpro] at h
      cases h
      rfl
  | awake lckdat sf intr =>
    simp only [passStart] at h
    simp only [stretch]
    cases intr with
    | true => exact absurd h (by simp)
    | false =>
      obtain ⟨s', hdrop, heq⟩ := map_eq_some_iff.mp h
      cases heq
      rw [hdrop]
      rfl

@[simp]
theorem Pass.restore_sys (r : Pass) : r.restore.sys = r.sys := by
  cases r <;> rfl

@[simp]
theorem State.after_sys (st : State) (i : Nat) (c : Call) (r : Pass) : (st.after i c r).sys = r.sys := by
  cases r <;> rfl

theorem stretch_sys {s : Sys} (hs : SysOk s) (he : e.Ok) (h : stretch k fuel c s e = some r) :
    ∃ s₁, e.begin s = some s₁ ∧ SysOk s₁ ∧ s₁.filocks = s.filocks ∧
      ((∃ ld r₁, passStart c s e = some (s₁, ld) ∧ Request ld ∧ PassCase k fuel c s₁ ld r₁ ∧
          r = r₁.restore) ∨
        passStart c s e = none ∧ ∃ out code, r = .ret s₁ [] out (some code)) := by
  rcases stretch_cases h with ⟨s₁, ld, r₁, hstart, hpass, rfl⟩ | ⟨hnone, s₁, out, code, hbegin, rfl⟩
  · obtain ⟨hbegin, hr⟩ := passStart_ok he hstart
    obtain ⟨hs₁, hsame⟩ := Entry.begin_ok hs hbegin
    exact ⟨s₁, hbegin, hs₁, hsame, .inl ⟨ld, r₁, hstart, hr, pass_cases hs₁ hr hpass, rfl⟩⟩
  · obtain ⟨hs₁, hsame⟩ := Entry.begin_ok hs hbegin
    exact ⟨s₁, hbegin, hs₁, hsame, .inr ⟨hnone, out, code, rfl⟩⟩

theorem stretch_ok {s : Sys} (hs : SysOk s) (he : e.Ok) (h : stretch k fuel c s e = some r) :
    SysOk r.sys := by
  obtain ⟨s₁, -, hs₁, -, ⟨ld, r₁, -, hr, hcase, rfl⟩ | ⟨-, out, code, rfl⟩⟩ := stretch_sys hs he h
  · rw [Pass.restore_sys]
    exact hcase.sysOk hs₁ hr
  · exact hs₁

def Proc.Ok : Proc → Prop
  | .idle => True
  | .asleep _ lckdat _ _ => Request lckdat
  | .ready _ lckdat _ _ => Request lckdat

/-- The invariant of the runs. -/
structure StateOk (st : State) : Prop where
  sys : SysOk st.sys
  procs : ∀ i, (st.procs i).Ok

def Enabled (st : State) (i : Nat) (c : Call) : Entry → Prop
  | .call _ => st.procs i = .idle
  | .awake lckdat sf intr => st.procs i = .ready c lckdat sf intr

variable {st : State}

theorem Enabled.ok {i : Nat} (h : Enabled st i c e) (hst : StateOk st) : e.Ok := by
  cases e with
  | call _ => trivial
  | awake lckdat sf intr =>
    have hok := hst.procs i
    rw [show st.procs i = _ from h] at hok
    exact hok

theorem step_cases {st' : State} {event : Event} (h : Step k st event st') :
    (∃ i c e fuel r, event = .run i c e ∧ Enabled st i c e ∧
        stretch k fuel c st.sys e = some r ∧ st' = st.after i c r) ∨
      (∃ i c ld found sf, event = .signal i ∧ st.procs i = .asleep c ld found sf ∧
        st' = st.setProc i (.ready c ld sf true)) ∨
      ∃ vp pid sysid l mem wakes, event = .cleanlocks vp pid sysid ∧
        cleanlocks pid sysid (st.sys.filocks vp) st.sys.mem = (l, mem, wakes) ∧
        st' = State.wake { st with sys := st.sys.setFilocks vp l mem } wakes := by
  cases h with
  | call hidle hrun => exact .inl ⟨_, _, _, _, _, rfl, hidle, hrun, rfl⟩
  | awake hready hrun => exact .inl ⟨_, _, _, _, _, rfl, hready, hrun, rfl⟩
  | signal hasleep => exact .inr (.inl ⟨_, _, _, _, _, rfl, hasleep, rfl⟩)
  | cleanlocks hclean => exact .inr (.inr ⟨_, _, _, _, _, _, rfl, hclean, rfl⟩)

variable {wakes : List Nat} {p : Proc}

theorem Proc.wake_asleep {found sf : Nat} (h : p.wake wakes = .asleep c ld found sf) :
    p = .asleep c ld found sf ∧ found ∉ wakes := by
  cases p with
  | idle => exact absurd h (by simp [Proc.wake])
  | ready _ _ _ _ => exact absurd h (by simp [Proc.wake])
  | asleep c' ld' found' sf' =>
    simp only [Proc.wake] at h
    split at h
    · exact absurd h (by simp)
    · rename_i hnot
      cases h
      exact ⟨rfl, hnot⟩

theorem Proc.Ok.wake (h : p.Ok) (wakes : List Nat) : (p.wake wakes).Ok := by
  cases p with
  | idle => trivial
  | ready _ _ _ _ => exact h
  | asleep c ld found sf =>
    simp only [Proc.wake]
    split <;> exact h

theorem StateOk.wake (h : StateOk st) (wakes : List Nat) : StateOk (st.wake wakes) :=
  ⟨h.sys, fun i => (h.procs i).wake wakes⟩

theorem StateOk.setProc {s : Sys} (h : StateOk st) (hs : SysOk s) (i : Nat) (hp : p.Ok) :
    StateOk (State.setProc ⟨s, st.procs⟩ i p) := by
  refine ⟨hs, fun j => ?_⟩
  by_cases hj : j = i
  · subst hj
    simpa [State.setProc] using hp
  · simpa [State.setProc, update_of_ne hj] using h.procs j

theorem StateOk.initial : StateOk initial := ⟨SysOk.initial, fun _ => trivial⟩

theorem cleanlocks_ok {s : Sys} {vp : Nat} {pid sysid : Int} {l : List Filock} {mem : Mem} (hs : SysOk s) (h : cleanlocks pid sysid (s.filocks vp) s.mem = (l, mem, wakes)) :
    SysOk (s.setFilocks vp l mem) ∧
      l = (s.filocks vp).filter (fun f => !cleanMatch pid sysid f) ∧
      WakeFrame (s.filocks vp) l wakes := by
  obtain ⟨hleft, hframe, hwake⟩ := delAll_ok (cleanMatch pid sysid) (hs.wf vp).addrs (hs.used (some vp))
  rw [cleanlocks] at h
  rw [h] at hleft hframe hwake
  change l = _ at hleft
  have hwf : Wf l := by
    rw [hleft, ← filterMap_eq_filter]
    refine (hs.wf vp).filterMap fun f hf g hg => ?_
    obtain ⟨heq, -⟩ := guard_eq_some_iff.mp hg
    subst heq
    exact ⟨rfl, rfl, rfl, rfl, Int.le_refl _, ((hs.wf vp).valid f hf).region⟩
  refine ⟨hs.setFilocks hwf hframe, hleft, fun f hf => ?_⟩
  cases hpick : cleanMatch pid sysid f with
  | true => exact .inr (hwake f hf hpick)
  | false =>
    rw [hleft]
    exact .inl (mem_filter.mpr ⟨hf, by rw [hpick]; rfl⟩)

theorem StateOk.step {st' : State} {event : Event} (hst : StateOk st) (h : Step k st event st') :
    StateOk st' := by
  rcases step_cases h with ⟨i, c, e, fuel, r, rfl, hen, hrun, rfl⟩ |
    ⟨i, c, ld, found, sf, rfl, hasleep, rfl⟩ | ⟨vp, pid, sysid, l, mem, wakes, rfl, hclean, rfl⟩
  · have hsys := stretch_ok hst.sys (hen.ok hst) hrun
    cases r with
    | ret s wakes out code => exact (hst.setProc hsys i (p := .idle) trivial).wake wakes
    | sleep s ld found sf =>
      refine hst.setProc hsys i ?_
      obtain ⟨s₁, -, -, -, ⟨ld', r₁, -, hr, hcase, heq⟩ | ⟨-, out, code, heq⟩⟩ :=
        stretch_sys hst.sys (hen.ok hst) hrun
      · cases hcase with
        | slept _ _ _ =>
          cases heq
          exact hr
        | _ => exact absurd heq (by simp [Pass.restore, rmPass])
      · exact absurd heq (by simp)
  · have hok := hst.procs i
    rw [hasleep] at hok
    exact hst.setProc hst.sys i hok
  · have hclean' : StateOk { st with sys := st.sys.setFilocks vp l mem } :=
      ⟨(cleanlocks_ok hst.sys hclean).1, hst.procs⟩
    exact hclean'.wake wakes

theorem stateOk_of_run {events : List Event} (h : Exec (Step k) initial events st) : StateOk st :=
  h.invariant (fun _ _ _ hst hstep => hst.step hstep) StateOk.initial

/-! ### Calls one after another -/

theorem fresh_above (_n : Nat) (used : List Nat) : used.foldr (· + ·) 1 ∉ used := by
  have hlt : ∀ p ∈ used, p < used.foldr (· + ·) 1 := by
    induction used with
    | nil => simp
    | cons q used ih =>
      intro p hp
      rw [foldr_cons]
      rcases mem_cons.mp hp with rfl | hp
      · have hpos : 0 < used.foldr (· + ·) 1 := by
          cases used with
          | nil => simp
          | cons r _ => exact lt_of_le_of_lt (Nat.zero_le r) (ih r (.head _))
        omega
      · have := ih p hp
        omega
  exact fun hin => lt_irrefl _ (hlt _ hin)

/-- Each new entry above all addresses in use. -/
def Kmem.above (flckrec : Int) (avail : Nat → Bool) : Kmem where
  flckrec := flckrec
  avail := avail
  place := fun _ used => used.foldr (· + ·) 1
  place_fresh := fresh_above

def plentiful : Kmem := Kmem.above 100 fun _ => true

/-- The calls in order, each of process 0 and to its end. -/
def callAll (k : Kmem) (fuel : Nat) : List (Call × Flock) → State → Option State
  | [], st => some st
  | (c, lckdat) :: rest, st =>
      match stretch k fuel c st.sys (.call lckdat) with
      | some (.ret s wakes out code) => callAll k fuel rest (st.after 0 c (.ret s wakes out code))
      | _ => none

theorem callAll_run {calls : List (Call × Flock)} {st' : State} (hidle : st.procs 0 = .idle)
    (h : callAll k fuel calls st = some st') :
    st'.procs 0 = .idle ∧ ∃ events, Exec (Step k) st events st' := by
  induction calls generalizing st with
  | nil =>
    cases h
    exact ⟨hidle, [], Exec.nil _⟩
  | cons call calls ih =>
    rw [callAll] at h
    split at h
    · rename_i s wakes out code hrun
      have hafter : (st.after 0 call.1 (.ret s wakes out code)).procs 0 = .idle := by
        simp [State.after, State.wake, State.setProc, Proc.wake]
      obtain ⟨hidle', events, hexec⟩ := ih hafter h
      exact ⟨hidle', _, Exec.cons (Step.call hidle hrun) hexec⟩
    · exact absurd h (by simp)

end Svr42.Flck

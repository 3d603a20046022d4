import Svr42.TsModel

/-! Runs of the time-sharing class: where the indices into `ts_dptbl` and the user priorities lie,
and which nice value goes with them. -/

namespace Svr42.Ts
open Int List Option

open Disp

variable {m : Master} {k : Prop}

/-! ### The numbers -/

theorem short_of_bounds {x : Int} (hl : -32768 ≤ x) (hu : x ≤ 32767) : short x = x := by
  unfold short
  omega

theorem char_of_bounds {x : Int} (hl : -128 ≤ x) (hu : x ≤ 127) : char x = x := by
  unfold char
  omega

/-- A quotient that rounds to zero stays within what its dividend stays within. -/
theorem tdiv_bounds {a b k : Int} (hb : 0 < b) (hl : -(k * b) ≤ a) (hu : a ≤ k * b) :
    -k ≤ a.tdiv b ∧ a.tdiv b ≤ k := by
  obtain ha | ha := le_or_gt 0 a
  · rw [tdiv_eq_ediv_of_nonneg ha]
    have hpos : 0 ≤ a / b := ediv_nonneg ha hb.le
    have hle : a / b ≤ k := by
      have := Int.ediv_le_ediv hb hu
      rwa [mul_ediv_cancel k hb.ne'] at this
    omega
  · rw [show a = -(-a) from (neg_neg a).symm, Int.neg_tdiv, tdiv_eq_ediv_of_nonneg (by omega : 0 ≤ -a)]
    have hpos : 0 ≤ -a / b := ediv_nonneg (by omega) hb.le
    have hle : -a / b ≤ k := by
      have := Int.ediv_le_ediv hb (by omega : -a ≤ k * b)
      rwa [mul_ediv_cancel k hb.ne'] at this
    omega

theorem neg_lt_tdiv {a b k : Int} (hb : 0 < b) (h : -(k * b) < a) (hk : 0 < k) : -k < a.tdiv b := by
  obtain ha | ha := le_or_gt 0 a
  · have := Int.tdiv_nonneg ha hb.le
    omega
  rw [show a = -(-a) from (neg_neg a).symm, Int.neg_tdiv, Int.tdiv_eq_ediv_of_nonneg (by omega : 0 ≤ -a)]
  have := Int.ediv_lt_of_lt_mul hb (by omega : -a < k * b)
  omega

/-! ### What is to hold -/

def niceOf (m : Master) (upri : Int) : Int :=
  let nice := 20 - (upri * 20).tdiv m.tsMaxupri
  if nice = 40 then 39 else nice

/-- The nice value is the one for the user priority, or the user priority is the one for the nice
value: neither scale reaches every value of the other. -/
def Corresponds (m : Master) (upri nice : Int) : Prop :=
  nice = niceOf m upri ∨ upri = niceUpri m nice

def InTable (m : Master) (i : Int) : Prop := 0 ≤ i ∧ i < m.tsMaxumdpri + 1

def InRange (m : Master) (upri : Int) : Prop := -m.tsMaxupri ≤ upri ∧ upri ≤ m.tsMaxupri

/-- A user priority and its limit. -/
structure Granted (m : Master) (uprilim upri : Int) : Prop where
  upri_le : upri ≤ uprilim
  upri_inRange : InRange m upri
  uprilim_inRange : InRange m uprilim

/-- The nice value that goes with a user priority. -/
structure Niced (m : Master) (upri nice : Int) : Prop where
  nice_nonneg : 0 ≤ nice
  nice_le : nice ≤ 39
  corresponds : Corresponds m upri nice

/-- The nice value is looked at if `k` holds: the rest does not depend on it. -/
structure Tsproc.Fit (m : Master) (k : Prop) (t : Tsproc) : Prop where
  umdpri : InTable m t.tsUmdpri
  cpupri : InTable m t.tsCpupri
  granted : Granted m t.tsUprilim t.tsUpri
  niced : k → Niced m t.tsUpri t.tsNice

def Tsproc.core (t : Tsproc) : Int × Int × Int × Int × Int :=
  (t.tsUmdpri, t.tsCpupri, t.tsUprilim, t.tsUpri, t.tsNice)

theorem Tsproc.Fit.of_core {t u : Tsproc} (h : t.Fit m k) (hu : u.core = t.core) : u.Fit m k := by
  obtain ⟨hum, hcpu, hlim, hupri, hnice⟩ : u.tsUmdpri = t.tsUmdpri ∧ u.tsCpupri = t.tsCpupri ∧
      u.tsUprilim = t.tsUprilim ∧ u.tsUpri = t.tsUpri ∧ u.tsNice = t.tsNice := by
    simpa [Tsproc.core] using hu
  refine ⟨hum ▸ h.umdpri, hcpu ▸ h.cpupri, ?_, ?_⟩
  · rw [hlim, hupri]
    exact h.granted
  · rw [hupri, hnice]
    exact h.niced

/-- A dispatch table of `ts_maxumdpri + 1` valid entries, and the processes of the class. -/
structure Sound {Ptr : Type} (m : Master) (k : Prop) (s : Class Ptr) : Prop where
  entries : (s.tsDptbl.length : Int) = m.tsMaxumdpri + 1
  valid : ∀ dp ∈ s.tsDptbl, validEntry m dp
  fit : ∀ pp ∈ s.tsPlist, (s.tsproc pp).Fit m k

variable {upri : Int}

theorem scale_bounds (h : InRange m upri) :
    -20 ≤ (upri * 20).tdiv m.tsMaxupri ∧ (upri * 20).tdiv m.tsMaxupri ≤ 20 := by
  obtain ⟨hl, hu⟩ := h
  exact tdiv_bounds m.maxupri_pos (by omega) (by omega)

theorem niceOf_bounds (h : InRange m upri) : 0 ≤ niceOf m upri ∧ niceOf m upri ≤ 39 := by
  have hq := scale_bounds h
  unfold niceOf
  dsimp only
  split <;> omega

theorem scaledNice_eq (h : InRange m upri) : scaledNice m upri = niceOf m upri := by
  have hq := scale_bounds h
  unfold scaledNice niceOf
  rw [char_of_bounds (by omega) (by omega)]

theorem niceUpri_inRange {nice : Int} (hl : 0 ≤ nice) (hu : nice ≤ 39) : InRange m (niceUpri m nice) := by
  have hpos := m.maxupri_pos
  have hup : (nice - NZERO) * m.tsMaxupri ≤ 20 * m.tsMaxupri :=
    Int.mul_le_mul_of_nonneg_right (by unfold NZERO; omega) hpos.le
  have hlow : -20 * m.tsMaxupri ≤ (nice - NZERO) * m.tsMaxupri :=
    Int.mul_le_mul_of_nonneg_right (by unfold NZERO; omega) hpos.le
  exact tdiv_bounds (by decide) (by unfold NZERO at *; omega) (by unfold NZERO at *; omega)

theorem medumdpri_inTable : InTable m m.tsmedumdpri := by
  have h := m.maxumdpri_nonneg
  unfold InTable Master.tsmedumdpri
  rw [shiftRight_eq_div_pow]
  omega

theorem newumdpri_inTable (t : Tsproc) : InTable m (tsNewumdpri m t).tsUmdpri := by
  have h := m.maxumdpri_nonneg
  unfold InTable tsNewumdpri
  dsimp only
  split_ifs <;> omega

theorem newumdpri_fit {t : Tsproc} (hcpu : InTable m t.tsCpupri) (hg : Granted m t.tsUprilim t.tsUpri)
    (hn : k → Niced m t.tsUpri t.tsNice) : (tsNewumdpri m t).Fit m k :=
  ⟨newumdpri_inTable t, hcpu, hg, hn⟩

theorem validEntry.inTable {dp : Tsdpent} (h : validEntry m dp) :
    InTable m dp.tsTqexp ∧ InTable m dp.tsSlpret ∧ InTable m dp.tsLwait := by
  obtain ⟨-, hq, hs, -, hl⟩ := h
  unfold InTable
  omega

/-! ### What each routine keeps -/

variable {Ptr : Type} {s : Class Ptr} {pp : Ptr}

/-- A valid table, and no process in the class yet. -/
structure Booted (m : Master) (s : Class Ptr) : Prop where
  entries : (s.tsDptbl.length : Int) = m.tsMaxumdpri + 1
  valid : ∀ dp ∈ s.tsDptbl, validEntry m dp
  empty : s.tsPlist = []

theorem Booted.sound (h : Booted m s) : Sound m k s :=
  ⟨h.entries, h.valid, fun _ hp => absurd (h.empty ▸ hp) not_mem_nil⟩

section

variable (h : Sound m k s)
include h

theorem Sound.setDisp (disp : Dispatcher Ptr) : Sound m k (s.setDisp disp) :=
  ⟨h.entries, h.valid, h.fit⟩

theorem Sound.dpent {i : Int} (hi : InTable m i) : ∃ dp, s.dpent i = some dp ∧ validEntry m dp := by
  have hlen : i.toNat < s.tsDptbl.length := by
    have := h.entries
    have := hi.1
    have := hi.2
    omega
  refine ⟨s.tsDptbl[i.toNat], ?_, h.valid _ (getElem_mem hlen)⟩
  rw [Class.dpent, if_pos hi.1, List.getElem?_eq_getElem hlen]

theorem getglobpri_sound (parms : Tsparms) : ∃ pri, tsGetglobpri m s parms = some pri := by
  have hin : InTable m (if m.tsmedumdpri + parms.tsUpri > m.tsMaxumdpri then m.tsMaxumdpri
      else if m.tsmedumdpri + parms.tsUpri < 0 then 0 else m.tsmedumdpri + parms.tsUpri) := by
    have := m.maxumdpri_nonneg
    unfold InTable
    split_ifs <;> omega
  obtain ⟨dp, hdp, -⟩ := h.dpent hin
  exact ⟨dp.tsGlobpri, by rw [tsGetglobpri, hdp, map_some]⟩

theorem setdptbl_sound (tbl : List Tsdpent) (denied : Bool) :
    Sound m k (tsSetdptbl m s tbl denied).2 := by
  unfold tsSetdptbl
  by_cases hden : denied
  · rwa [if_pos hden]
  by_cases hlen : (tbl.length : Int) = m.tsMaxumdpri + 1
  swap
  · rwa [if_neg hden, if_pos hlen]
  by_cases hval : ∀ dp ∈ tbl, validEntry m dp
  swap
  · rwa [if_neg hden, if_neg (not_not.mpr hlen), if_pos hval]
  rw [if_neg hden, if_neg (not_not.mpr hlen), if_neg (not_not.mpr hval)]
  refine ⟨?_, fun dp hdp => ?_, h.fit⟩
  · have := h.entries
    rw [length_zipWith]
    omega
  · obtain ⟨i, hi, rfl⟩ := getElem_of_mem hdp
    rw [length_zipWith] at hi
    have hnew := hval _ (getElem_mem (lt_min_iff.mp hi).2)
    rw [getElem_zipWith]
    exact hnew

end

variable {tspp : Tsproc}

theorem slept_fits (h : Sound m k s) (hfit : tspp.Fit m k) : ∃ u, slept s tspp = some u ∧ u.Fit m k := by
  by_cases hlong : tspp.tsSleepwait > TS_SLEEPWAIT
  · rw [slept, if_pos hlong]
    obtain ⟨old, hold, hval⟩ := h.dpent hfit.cpupri
    obtain ⟨dp, hdp, -⟩ := h.dpent hfit.umdpri
    simp only [hold, bind_some, hdp, map_some]
    exact ⟨_, rfl, hfit.umdpri, hval.inTable.2.1, hfit.granted, hfit.niced⟩
  · exact ⟨tspp, if_neg hlong, hfit⟩

@[simp] theorem setDisp_tsproc (disp : Dispatcher Ptr) : (s.setDisp disp).tsproc = s.tsproc := rfl

variable [DecidableEq Ptr]

@[simp] theorem setTsproc_self (tspp : Tsproc) : (s.setTsproc pp tspp).tsproc pp = tspp := by
  simp [Class.setTsproc]

@[simp] theorem setTsproc_dpent (tspp : Tsproc) (i : Int) :
    (s.setTsproc pp tspp).dpent i = s.dpent i := rfl

@[simp] theorem setTsproc_plist (tspp : Tsproc) : (s.setTsproc pp tspp).tsPlist = s.tsPlist := rfl

theorem Sound.setTsproc (h : Sound m k s) (pp : Ptr) {tspp : Tsproc} (hp : tspp.Fit m k) :
    Sound m k (s.setTsproc pp tspp) where
  entries := h.entries
  valid := h.valid
  fit rp hrp := by
    by_cases heq : rp = pp
    · subst heq
      simpa [Class.setTsproc] using hp
    · simpa [Class.setTsproc, heq] using h.fit rp hrp

section

variable (h : Sound m k s)
include h

theorem Sound.cons {tspp : Tsproc} (hp : tspp.Fit m k) : Sound m k { s with
      tsproc := Function.update s.tsproc pp tspp, tsPlist := pp :: s.tsPlist } where
  entries := h.entries
  valid := h.valid
  fit rp hrp := by
    by_cases heq : rp = pp
    · subst heq
      simpa using hp
    · have hmem : rp ∈ s.tsPlist := mem_of_ne_of_mem heq hrp
      simpa [heq] using h.fit rp hmem

theorem exitclass_sound (pp : Ptr) : Sound m k (tsExitclass s pp) :=
  ⟨h.entries, h.valid, fun rp hrp => h.fit rp (mem_of_mem_erase hrp)⟩

theorem Sound.put {t u : Tsproc} (ht : t.Fit m k) (hu : u.core = t.core)
    (disp : Dispatcher Ptr) : Sound m k ((s.setTsproc pp u).setDisp disp) :=
  (h.setTsproc pp (ht.of_core hu)).setDisp disp

theorem fork_sound (hp : pp ∈ s.tsPlist) (cp : Ptr) :
    ∃ t, tsFork s pp cp = some t ∧ Sound m k t := by
  have hfit := h.fit pp hp
  obtain ⟨dp, hdp, -⟩ := h.dpent hfit.umdpri
  exact ⟨_, by rw [tsFork, hdp, map_some], h.cons (hfit.of_core (by rfl))⟩

theorem forkret_sound (cp : Ptr) (pp : Option Ptr)
    (hp : ∀ rp, pp = some rp → rp ∈ s.tsPlist) : Sound m k (tsForkret s cp pp) := by
  cases pp with
  | none => exact h.setDisp _
  | some pp =>
    have hfit := h.fit pp (hp pp rfl)
    exact (h.setDisp _).put hfit (by rfl) _

variable (hp : pp ∈ s.tsPlist)
include hp

theorem preempt_sound : ∃ t, tsPreempt s pp = some t ∧ Sound m k t := by
  have hfit := h.fit pp hp
  obtain ⟨dp, hdp, -⟩ := h.dpent hfit.umdpri
  unfold tsPreempt
  dsimp only
  split_ifs
  · exact ⟨_, by rw [hdp, map_some], h.put hfit (by rfl) _⟩
  · exact ⟨_, rfl, h.put hfit (by rfl) _⟩
  · exact ⟨_, rfl, h.put hfit (by rfl) _⟩
  · exact ⟨_, rfl, h.setDisp _⟩

theorem setrun_sound : ∃ t, tsSetrun s pp = some t ∧ Sound m k t := by
  have hfit := h.fit pp hp
  obtain ⟨dp, hdp, -⟩ := h.dpent hfit.umdpri
  unfold tsSetrun
  dsimp only
  split_ifs
  · exact ⟨_, by rw [hdp, map_some], h.put hfit (by rfl) _⟩
  · exact ⟨_, rfl, h.put hfit (by rfl) _⟩

theorem sleep_sound (disp : Nat) : Sound m k (tsSleep m s pp disp) := by
  have hfit := h.fit pp hp
  exact h.put hfit (by rfl) _

theorem wakeup_sound : Sound m k (tsWakeup s pp) := by
  have hfit := h.fit pp hp
  exact h.put hfit (by rfl) _

theorem trapret_sound : ∃ t, tsTrapret m s pp = some t ∧ Sound m k t := by
  obtain ⟨u, hu, hfit⟩ := slept_fits h (h.fit pp hp)
  have hnew := newumdpri_fit hfit.cpupri hfit.granted hfit.niced
  obtain ⟨dp, hdp, -⟩ := h.dpent hnew.umdpri
  unfold tsTrapret
  dsimp only
  rw [hu, bind_some, hdp, map_some]
  split_ifs
  · exact ⟨s, rfl, h⟩
  · exact ⟨_, rfl, h.put hnew (by rfl) _⟩
  · exact ⟨_, rfl, h.put hnew (by rfl) _⟩
  · exact ⟨_, rfl, h.put hnew (by rfl) _⟩
  · exact ⟨_, rfl, h.put hnew (by rfl) _⟩

end

variable [Fintype Ptr]

theorem newpri_sound (h : Sound m k s) (hp : (s.tsproc pp).Fit m k) :
    ∃ t, newpri s pp = some t ∧ Sound m k t := by
  obtain ⟨dp, hdp, -⟩ := h.dpent hp.umdpri
  refine ⟨_, by rw [newpri, hdp, map_some], ?_⟩
  dsimp only
  split_ifs
  all_goals exact h.put hp (by rfl) _

theorem newpri_keeps {t : Class Ptr} (h : newpri s pp = some t) :
    (t.tsproc pp).tsUpri = (s.tsproc pp).tsUpri ∧ t.tsPlist = s.tsPlist := by
  obtain ⟨dp, -, ht⟩ := map_eq_some_iff.mp h
  rw [← ht]
  dsimp only
  split_ifs
  all_goals exact ⟨by rw [setDisp_tsproc, setTsproc_self]; rfl, rfl⟩

theorem enterList_sound (h : Sound m k s) (pp : Ptr) (hp : tspp.Fit m k) :
    ∃ t, enterList s pp tspp = some t ∧ Sound m k t := by
  have hfit : Tsproc.Fit m k { tspp with tsSleepwait := 0, tsDispwait := 0, tsFlags := 0 } :=
    hp.of_core rfl
  refine newpri_sound (h.cons hfit) ?_
  simpa using hfit

theorem defaults_fit (mem : Tsproc) : (defaults m mem).Fit m k := by
  have hpos := m.maxupri_pos
  have hzero : InRange m 0 := ⟨by omega, hpos.le⟩
  exact ⟨medumdpri_inTable, medumdpri_inTable, ⟨le_rfl, hzero, hzero⟩, fun _ =>
    ⟨le.intro 20 rfl, le.intro 19 rfl, .inl (by simp [niceOf, defaults])⟩⟩

variable {cred : Option Bool}

theorem parmsin_ok {parms : Tsparms} {target : Option Tsproc} (h : tsParmsin m parms cred target = 0) :
    (parms.tsUprilim = TS_NOCHANGE ∨ InRange m parms.tsUprilim) ∧
      (parms.tsUpri = TS_NOCHANGE ∨ InRange m parms.tsUpri) := by
  unfold tsParmsin at h
  split_ifs at h with hlim hpri
  · exact absurd h (by decide)
  · exact absurd h (by decide)
  all_goals
    unfold InRange
    omega

theorem enterUprilim_inRange {parms : Tsparms}
    (h : parms.tsUprilim = TS_NOCHANGE ∨ InRange m parms.tsUprilim) : InRange m (enterUprilim parms) := by
  have hpos := m.maxupri_pos
  unfold enterUprilim
  split_ifs with hno
  · exact ⟨by omega, hpos.le⟩
  · exact h.resolve_left hno

theorem enterUpri_inRange {parms : Tsparms} (hlim : InRange m (enterUprilim parms))
    (h : parms.tsUpri = TS_NOCHANGE ∨ InRange m parms.tsUpri) :
    enterUpri parms ≤ enterUprilim parms ∧ InRange m (enterUpri parms) := by
  unfold enterUpri
  split_ifs with hno hgt
  · exact ⟨le_rfl, hlim⟩
  · exact ⟨le_rfl, hlim⟩
  · exact ⟨by omega, h.resolve_left hno⟩

theorem enterUpri_ne {parms : Tsparms} (hupri : parms.tsUpri ≠ -m.tsMaxupri)
    (hlim : parms.tsUprilim ≠ -m.tsMaxupri) : enterUpri parms ≠ -m.tsMaxupri := by
  have hpos := m.maxupri_pos
  unfold enterUpri enterUprilim
  split_ifs <;> omega

theorem niced_scaled (hr : InRange m upri) (hne : upri ≠ -m.tsMaxupri) :
    Niced m upri (char (20 - (20 * upri).tdiv m.tsMaxupri)) := by
  have hq := scale_bounds hr
  have hlow : -20 < (upri * 20).tdiv m.tsMaxupri :=
    neg_lt_tdiv m.maxupri_pos (by have := hr.1; omega) (by decide)
  have hnice : char (20 - (20 * upri).tdiv m.tsMaxupri) = niceOf m upri := by
    rw [mul_comm 20, char_of_bounds (by omega) (by omega), niceOf, if_neg (by omega)]
  obtain ⟨hn, hn'⟩ := niceOf_bounds hr
  rw [hnice]
  exact ⟨hn, hn', .inl rfl⟩

theorem supplied_fit (mem : Tsproc) {parms : Tsparms}
    (hl : parms.tsUprilim = TS_NOCHANGE ∨ InRange m parms.tsUprilim)
    (hu : parms.tsUpri = TS_NOCHANGE ∨ InRange m parms.tsUpri)
    (hne : k → parms.tsUpri ≠ -m.tsMaxupri ∧ parms.tsUprilim ≠ -m.tsMaxupri) :
    (supplied m mem parms).Fit m k := by
  have hrl := enterUprilim_inRange hl
  obtain ⟨hle, hr⟩ := enterUpri_inRange hrl hu
  exact newumdpri_fit medumdpri_inTable ⟨hle, hr, hrl⟩ fun hk =>
    niced_scaled hr (enterUpri_ne (hne hk).1 (hne hk).2)

theorem enterclass_sound (h : Sound m k s) {parms : Option Tsparms} {mem : Option Tsproc}
    (hin : ∀ ps, parms = some ps → tsParmsin m ps none none = 0)
    (hok : k → ∀ ps, parms = some ps → mem = none ∨ (enterUprilim ps > 0 ∧ cred = some true) ∨
      (ps.tsUpri ≠ -m.tsMaxupri ∧ ps.tsUprilim ≠ -m.tsMaxupri)) :
    ∃ r, tsEnterclass m s parms pp cred mem = some r ∧ Sound m k r.2 := by
  cases mem with
  | none => exact ⟨_, rfl, h⟩
  | some mem =>
    cases parms with
    | none =>
      obtain ⟨t, ht, hs⟩ := enterList_sound h pp (defaults_fit mem)
      exact ⟨(0, t), by simp [tsEnterclass, ht], hs⟩
    | some ps =>
      by_cases hden : enterUprilim ps > 0 ∧ cred = some true
      · exact ⟨_, by rw [tsEnterclass, if_pos hden], h⟩
      obtain ⟨hl, hu⟩ := parmsin_ok (hin ps rfl)
      have hne : k → ps.tsUpri ≠ -m.tsMaxupri ∧ ps.tsUprilim ≠ -m.tsMaxupri := fun hk =>
        ((hok hk ps rfl).resolve_left (some_ne_none mem)).resolve_left hden
      obtain ⟨t, ht, hs⟩ := enterList_sound h pp (supplied_fit mem hl hu hne)
      exact ⟨(0, t), by simp [tsEnterclass, ht, hden], hs⟩

theorem req_granted (h : Granted m tspp.tsUprilim tspp.tsUpri) {parms : Tsparms}
    (hl : parms.tsUprilim = TS_NOCHANGE ∨ InRange m parms.tsUprilim)
    (hu : parms.tsUpri = TS_NOCHANGE ∨ InRange m parms.tsUpri) :
    Granted m (reqUprilim parms tspp) (reqUpri parms tspp) := by
  have hlim : InRange m (reqUprilim parms tspp) := by
    unfold reqUprilim
    split_ifs with hno
    · exact h.uprilim_inRange
    · exact hl.resolve_left hno
  have hpri : InRange m (if parms.tsUpri = TS_NOCHANGE then tspp.tsUpri else parms.tsUpri) := by
    split_ifs with hno
    · exact h.upri_inRange
    · exact hu.resolve_left hno
  unfold reqUpri
  generalize (if parms.tsUpri = TS_NOCHANGE then tspp.tsUpri else parms.tsUpri) = upri at hpri ⊢
  dsimp only
  split_ifs with hgt
  · exact ⟨le_rfl, hlim, hlim⟩
  · exact ⟨le_of_not_gt hgt, hpri, hlim⟩

/-- The nice value is right when the request names the user priority that results. -/
theorem setParms_fit (h : tspp.Fit m k) {parms : Tsparms}
    (hl : parms.tsUprilim = TS_NOCHANGE ∨ InRange m parms.tsUprilim)
    (hu : parms.tsUpri = TS_NOCHANGE ∨ InRange m parms.tsUpri)
    (hok : k → parms.tsUpri ≠ TS_NOCHANGE ∧ parms.tsUpri ≤ reqUprilim parms tspp) :
    (setParms m tspp parms).Fit m k := by
  refine ⟨newumdpri_inTable _, h.cpupri, req_granted h.granted hl hu, fun hk => ?_⟩
  obtain ⟨hno, hle⟩ := hok hk
  have hr := hu.resolve_left hno
  have hupri : reqUpri parms tspp = parms.tsUpri := by
    rw [reqUpri, if_neg hno, if_neg (by omega)]
  obtain ⟨hn, hn'⟩ := niceOf_bounds hr
  change Niced m (reqUpri parms tspp) (scaledNice m parms.tsUpri)
  rw [hupri, scaledNice_eq hr]
  exact ⟨hn, hn', .inl rfl⟩

theorem parmsset_sound (h : Sound m k s) (hp : pp ∈ s.tsPlist) {parms : Tsparms} (cred : Option Bool)
    (hin : tsParmsin m parms none none = 0)
    (hok : k → (reqUprilim parms (s.tsproc pp) > (s.tsproc pp).tsUprilim ∧ cred = some true) ∨
      (parms.tsUpri ≠ TS_NOCHANGE ∧ parms.tsUpri ≤ reqUprilim parms (s.tsproc pp))) :
    ∃ r, tsParmsset m s parms pp cred = some r ∧ Sound m k r.2 := by
  by_cases hden : reqUprilim parms (s.tsproc pp) > (s.tsproc pp).tsUprilim ∧ cred = some true
  · exact ⟨_, by rw [tsParmsset, if_pos hden], h⟩
  obtain ⟨hl, hu⟩ := parmsin_ok hin
  have hfit := setParms_fit (h.fit pp hp) hl hu fun hk => (hok hk).resolve_left hden
  rw [tsParmsset, if_neg hden]
  dsimp only
  split_ifs
  · exact ⟨_, rfl, h.setTsproc pp hfit⟩
  · have hset : Tsproc.Fit m k { setParms m (s.tsproc pp) parms with tsDispwait := 0 } :=
      hfit.of_core rfl
    obtain ⟨t, ht, hs⟩ := newpri_sound (h.setTsproc pp hset) (by rw [setTsproc_self]; exact hset)
    exact ⟨(0, t), by rw [ht, map_some], hs⟩

theorem parmsset_upri {parms : Tsparms} {r : Nat × Class Ptr}
    (h : tsParmsset m s parms pp none = some r) :
    (r.2.tsproc pp).tsUpri = reqUpri parms (s.tsproc pp) ∧ r.2.tsPlist = s.tsPlist := by
  rw [tsParmsset, if_neg (fun hden => absurd hden.2 (some_ne_none true).symm)] at h
  dsimp only at h
  split_ifs at h
  · obtain rfl := some.inj h
    simp [setParms, tsNewumdpri]
  · obtain ⟨t, ht, rfl⟩ := map_eq_some_iff.mp h
    simpa [setParms, tsNewumdpri] using newpri_keeps ht

theorem newnice_bounds (tspp : Tsproc) (incr : Int) : 0 ≤ newnice tspp incr ∧ newnice tspp incr ≤ 39 := by
  unfold newnice NZERO
  dsimp only
  split_ifs <;> omega

theorem niceUpri_request {nice : Int} (hl : 0 ≤ nice) (hu : nice ≤ 39) :
    short (niceUpri m nice) = niceUpri m nice ∧ niceUpri m nice ≠ TS_NOCHANGE := by
  obtain ⟨hlow, hup⟩ := niceUpri_inRange (m := m) hl hu
  have hmax := m.maxupri_short
  exact ⟨short_of_bounds (by omega) (by omega), by unfold TS_NOCHANGE; omega⟩

theorem req_same {u : Int} (hu : u ≠ TS_NOCHANGE) (t : Tsproc) :
    reqUprilim ⟨u, u⟩ t = u ∧ reqUpri ⟨u, u⟩ t = u := by
  simp [reqUprilim, reqUpri, hu]

theorem parmsin_same {u : Int} (h : InRange m u) : tsParmsin m ⟨u, u⟩ none none = 0 := by
  obtain ⟨hl, hu⟩ := h
  have hbad : ¬((u > m.tsMaxupri ∨ u < -m.tsMaxupri) ∧ u ≠ TS_NOCHANGE) := by omega
  simp [tsParmsin, hbad]

section

variable (h : Sound m k s)
include h

theorem donice_sound (hp : pp ∈ s.tsPlist) (incr : Int) :
    ∃ r, tsDonice m s pp incr = some r ∧ Sound m k r.2 := by
  obtain ⟨hn, hn'⟩ := newnice_bounds (s.tsproc pp) incr
  rw [tsDonice]
  generalize newnice (s.tsproc pp) incr = nice at hn hn'
  obtain ⟨hshort, hno⟩ := niceUpri_request (m := m) hn hn'
  have hr := niceUpri_inRange (m := m) hn hn'
  rw [hshort]
  obtain ⟨hlim, hupri⟩ := req_same hno (s.tsproc pp)
  obtain ⟨r, hset, hs⟩ := parmsset_sound h hp none (parmsin_same hr) fun _ => .inr ⟨hno, hlim.symm.le⟩
  obtain ⟨hru, hlist⟩ := parmsset_upri hset
  have hfit := hs.fit pp (hlist ▸ hp)
  refine ⟨_, by rw [hset, map_some], hs.setTsproc pp ?_⟩
  refine ⟨hfit.umdpri, hfit.cpupri, hfit.granted, fun _ => ?_⟩
  rw [char_of_bounds (by omega) (by omega)]
  exact ⟨hn, hn', .inr (hru.trans hupri)⟩

theorem expired_sound (hfit : (s.tsproc pp).Fit m k) : ∃ t, expired m s pp = some t ∧ Sound m k t := by
  obtain ⟨old, hold, hval⟩ := h.dpent hfit.cpupri
  have hnew : Tsproc.Fit m k (tsNewumdpri m
      { s.tsproc pp with tsCpupri := old.tsTqexp, tsSleepwait := 0 }) :=
    newumdpri_fit hval.inTable.1 hfit.granted hfit.niced
  obtain ⟨dp, hdp, -⟩ := h.dpent hnew.umdpri
  unfold expired
  dsimp only
  rw [hold, bind_some, hdp, map_some]
  refine ⟨_, rfl, ?_⟩
  split_ifs
  · exact h.put hnew (by rfl) _
  · exact h.put hnew (by rfl) _

theorem tick_sound (hp : pp ∈ s.tsPlist) : ∃ t, tsTick m s pp = some t ∧ Sound m k t := by
  have hfit := h.fit pp hp
  have hset : Tsproc.Fit m k { s.tsproc pp with tsTimeleft := (s.tsproc pp).tsTimeleft - 1 } :=
    hfit.of_core rfl
  unfold tsTick
  dsimp only
  split_ifs
  · exact ⟨s, rfl, h⟩
  · exact expired_sound (h.setTsproc pp hset) (by rw [setTsproc_self]; exact hset)
  · exact ⟨_, rfl, h.setTsproc pp hset⟩

theorem waited_sound (hfit : (s.tsproc pp).Fit m k) :
    ∃ t, waited m s pp = some t ∧ Sound m k t ∧ t.tsPlist = s.tsPlist := by
  obtain ⟨old, hold, hval⟩ := h.dpent hfit.cpupri
  have hnew : Tsproc.Fit m k (tsNewumdpri m { s.tsproc pp with tsCpupri := old.tsLwait }) :=
    newumdpri_fit hval.inTable.2.2 hfit.granted hfit.niced
  obtain ⟨dp, hdp, -⟩ := h.dpent hnew.umdpri
  unfold waited
  dsimp only
  rw [hold, bind_some, hdp, map_some]
  refine ⟨_, rfl, ?_⟩
  split_ifs
  all_goals exact ⟨h.put hnew (by rfl) _, rfl⟩

theorem updateOne_sound (hp : pp ∈ s.tsPlist) :
    ∃ t, updateOne m s pp = some t ∧ Sound m k t ∧ t.tsPlist = s.tsPlist := by
  have hfit := h.fit pp hp
  have hset : Tsproc.Fit m k { s.tsproc pp with
      tsDispwait := short ((s.tsproc pp).tsDispwait + 1) } := hfit.of_core rfl
  obtain ⟨dp, hdp, -⟩ := h.dpent hfit.umdpri
  unfold updateOne
  dsimp only
  rw [setTsproc_dpent, hdp, bind_some]
  split_ifs
  · exact ⟨_, rfl, h.setTsproc pp (hfit.of_core (by rfl)), rfl⟩
  · exact ⟨s, rfl, h, rfl⟩
  · exact ⟨s, rfl, h, rfl⟩
  · exact ⟨_, rfl, h.setTsproc pp hset, rfl⟩
  · exact waited_sound (h.setTsproc pp hset) (by rw [setTsproc_self]; exact hset)

theorem updates_sound {pps : List Ptr} (hpps : ∀ pp ∈ pps, pp ∈ s.tsPlist) :
    ∃ t, pps.foldlM (updateOne m) s = some t ∧ Sound m k t := by
  induction pps generalizing s with
  | nil => exact ⟨s, rfl, h⟩
  | cons pp pps ih =>
    obtain ⟨u, hu, hs, hlist⟩ := updateOne_sound h (hpps pp (.head _))
    have hrest : ∀ rp ∈ pps, rp ∈ u.tsPlist := fun rp hrp =>
      hlist ▸ hpps rp (.tail pp hrp)
    obtain ⟨t, ht, hst⟩ := ih hs hrest
    exact ⟨t, by rw [foldlM_cons, hu]; exact ht, hst⟩

theorem update_sound : ∃ t, tsUpdate m s = some t ∧ Sound m k t := by
  obtain ⟨t, ht, hs⟩ := updates_sound h (fun pp hpp => hpp)
  exact ⟨_, by rw [tsUpdate, ht, map_some], hs.setDisp _⟩

end

/-! ### Runs -/

/-- Calls of the class, and `kernel` for what the rest of the kernel does to the processes and the
dispatcher. -/
inductive Event (Ptr : Type) where
  | enterclass (pp : Ptr) (parms : Option Tsparms) (cred : Option Bool) (mem : Option Tsproc)
  | exitclass (pp : Ptr)
  | fork (pp cp : Ptr)
  | forkret (cp : Ptr) (pp : Option Ptr)
  | parmsset (pp : Ptr) (parms : Tsparms) (cred : Option Bool)
  | donice (pp : Ptr) (incr : Int)
  | getglobpri (parms : Tsparms)
  | setdptbl (tbl : List Tsdpent) (denied : Bool)
  | tick (pp : Ptr)
  | sleep (pp : Ptr) (disp : Nat)
  | wakeup (pp : Ptr)
  | setrun (pp : Ptr)
  | preempt (pp : Ptr)
  | trapret (pp : Ptr)
  | update
  | kernel (disp : Dispatcher Ptr)

def call (m : Master) (s : Class Ptr) : Event Ptr → Option (Class Ptr)
  | .enterclass pp parms cred mem => (tsEnterclass m s parms pp cred mem).map Prod.snd
  | .exitclass pp => some (tsExitclass s pp)
  | .fork pp cp => tsFork s pp cp
  | .forkret cp pp => some (tsForkret s cp pp)
  | .parmsset pp parms cred => (tsParmsset m s parms pp cred).map Prod.snd
  | .donice pp incr => (tsDonice m s pp incr).map Prod.snd
  | .getglobpri parms => (tsGetglobpri m s parms).map fun _ => s
  | .setdptbl tbl denied => some (tsSetdptbl m s tbl denied).2
  | .tick pp => tsTick m s pp
  | .sleep pp disp => some (tsSleep m s pp disp)
  | .wakeup pp => some (tsWakeup s pp)
  | .setrun pp => tsSetrun s pp
  | .preempt pp => tsPreempt s pp
  | .trapret pp => tsTrapret m s pp
  | .update => tsUpdate m s
  | .kernel disp => some (s.setDisp disp)

/-- What the callers see to: `ts_parmsin` has checked the parameters, a process enters the class or
is created in it once, and the other routines are called for processes of the class. -/
def Enabled (m : Master) (s : Class Ptr) : Event Ptr → Prop
  | .enterclass pp parms _ _ =>
      pp ∉ s.tsPlist ∧ ∀ ps, parms = some ps → tsParmsin m ps none none = 0
  | .fork pp cp => pp ∈ s.tsPlist ∧ cp ∉ s.tsPlist
  | .forkret cp pp => cp ∈ s.tsPlist ∧ ∀ rp, pp = some rp → rp ∈ s.tsPlist
  | .parmsset pp parms _ => pp ∈ s.tsPlist ∧ tsParmsin m parms none none = 0
  | .exitclass pp | .donice pp _ | .tick pp | .sleep pp _ | .wakeup pp | .setrun pp | .preempt pp
  | .trapret pp => pp ∈ s.tsPlist
  | .getglobpri _ | .setdptbl _ _ | .update | .kernel _ => True

def Step (m : Master) (s : Class Ptr) (e : Event Ptr) (t : Class Ptr) : Prop :=
  Enabled m s e ∧ call m s e = some t

/-- A request that is not refused names the user priority that results, and no process enters the
class at the bottom of the range. -/
def NamesPriority (m : Master) (s : Class Ptr) : Event Ptr → Prop
  | .enterclass _ parms cred mem =>
      ∀ ps, parms = some ps → mem = none ∨ (enterUprilim ps > 0 ∧ cred = some true) ∨
        (ps.tsUpri ≠ -m.tsMaxupri ∧ ps.tsUprilim ≠ -m.tsMaxupri)
  | .parmsset pp parms cred =>
      (reqUprilim parms (s.tsproc pp) > (s.tsproc pp).tsUprilim ∧ cred = some true) ∨
        (parms.tsUpri ≠ TS_NOCHANGE ∧ parms.tsUpri ≤ reqUprilim parms (s.tsproc pp))
  | _ => True

theorem call_sound (h : Sound m k s) {e : Event Ptr} (hen : Enabled m s e)
    (hok : k → NamesPriority m s e) : ∃ t, call m s e = some t ∧ Sound m k t := by
  cases e with
  | enterclass pp parms cred mem =>
    obtain ⟨r, hr, hs⟩ := enterclass_sound h hen.2 hok
    exact ⟨r.2, by rw [call, hr, map_some], hs⟩
  | exitclass pp => exact ⟨_, rfl, exitclass_sound h pp⟩
  | fork pp cp => exact fork_sound h hen.1 cp
  | forkret cp pp => exact ⟨_, rfl, forkret_sound h cp pp hen.2⟩
  | parmsset pp parms cred =>
    obtain ⟨r, hr, hs⟩ := parmsset_sound h hen.1 cred hen.2 hok
    exact ⟨r.2, by rw [call, hr, map_some], hs⟩
  | donice pp incr =>
    obtain ⟨r, hr, hs⟩ := donice_sound h hen incr
    exact ⟨r.2, by rw [call, hr, map_some], hs⟩
  | getglobpri parms =>
    obtain ⟨pri, hpri⟩ := getglobpri_sound h parms
    exact ⟨s, by rw [call, hpri, map_some], h⟩
  | setdptbl tbl denied => exact ⟨_, rfl, setdptbl_sound h tbl denied⟩
  | tick pp => exact tick_sound h hen
  | sleep pp disp => exact ⟨_, rfl, sleep_sound h hen disp⟩
  | wakeup pp => exact ⟨_, rfl, wakeup_sound h hen⟩
  | setrun pp => exact setrun_sound h hen
  | preempt pp => exact preempt_sound h hen
  | trapret pp => exact trapret_sound h hen
  | update => exact update_sound h
  | kernel disp => exact ⟨_, rfl, h.setDisp disp⟩

def Indexed (m : Master) (s : Class Ptr) : Prop :=
  ∀ pp ∈ s.tsPlist, InTable m (s.tsproc pp).tsUmdpri ∧ InTable m (s.tsproc pp).tsCpupri ∧
    Granted m (s.tsproc pp).tsUprilim (s.tsproc pp).tsUpri

def NiceValues (m : Master) (s : Class Ptr) : Prop :=
  ∀ pp ∈ s.tsPlist, Niced m (s.tsproc pp).tsUpri (s.tsproc pp).tsNice

theorem run_sound {events : List (Event Ptr)} {t : Class Ptr} (hs : Sound m k s)
    (h : Exec (Guarded (Step m) fun u e => k → NamesPriority m u e) s events t) : Sound m k t := by
  refine h.keeps (Sound m k) (fun u e v hu hstep => ?_) hs
  obtain ⟨hok, hen, hcall⟩ := hstep
  obtain ⟨w, hw, hsw⟩ := call_sound hu hen hok
  obtain rfl : w = v := some.inj (hw.symm.trans hcall)
  exact hsw

/-- In every run the indices and priorities are in range, and no call reads outside the table; the
nice values are right as long as requests name the user priorities that result. -/
theorem time_sharing_run {events : List (Event Ptr)} {t : Class Ptr} (hs : Booted m s)
    (h : Exec (Step m) s events t) : Indexed m t ∧ (∀ e, Enabled m t e → ∃ u, call m t e = some u) ∧
      (Exec (Guarded (Step m) (NamesPriority m)) s events t → NiceValues m t) := by
  have hsound : Sound m False t := run_sound hs.sound (h.mono fun _ _ _ hstep => ⟨False.elim, hstep⟩)
  refine ⟨fun pp hp => ?_, fun e hen => ?_, fun hg pp hp => ?_⟩
  · have hfit := hsound.fit pp hp
    exact ⟨hfit.umdpri, hfit.cpupri, hfit.granted⟩
  · obtain ⟨u, hu, -⟩ := call_sound hsound hen False.elim
    exact ⟨u, hu⟩
  · have hnice : Sound m True t :=
      run_sound hs.sound (hg.mono fun _ _ _ hstep => ⟨fun _ => hstep.1, hstep.2⟩)
    exact (hnice.fit pp hp).niced trivial

/-! ### A process that sets its parameters -/

/-- Two levels, and priorities as they come configured. -/
def twoLevels : Master where
  tsMaxupri := 20
  tsMaxumdpri := 1
  tsMaxkmdpri := 39
  tsKmdpris i := 50 + i.toNat
  maxupri_pos := by decide
  maxupri_short := by decide
  maxumdpri_nonneg := by decide
  maxumdpri_short := by decide

def noTsproc : Tsproc := ⟨0, 0, 0, 0, 0, 0, 0, 0, 0⟩

def alone : Class Unit where
  disp :=
    { proc := fun _ => ⟨none, 0, sLOAD, .sonproc⟩, dispq := fun _ => ⟨none, none, 0⟩
      dqactmap := fun _ => 0, srunprocs := 0, maxrunpri := -1, curproc := (), oldCurproc := ()
      oldproc := none, curpri := 0, runrun := 0, kprunrun := 0, npwakecnt := 0 }
  tsDptbl := [⟨0, 40, 0, 1, 3, 1⟩, ⟨1, 40, 0, 1, 3, 1⟩]
  tsproc _ := noTsproc
  tsPlist := []

theorem alone_booted : Booted twoLevels alone := ⟨by decide, by decide, rfl⟩

def perform (e : Event Unit) (s : Class Unit) : Class Unit := (call twoLevels s e).getD s

def enters : Event Unit := .enterclass () none none (some noTsproc)

def favoured : Class Unit := perform (.parmsset () ⟨10, 10⟩ none) (perform enters alone)

theorem favoured_steps (ok : Class Unit → Event Unit → Prop) (he : ok alone enters)
    (hp : ok (perform enters alone) (.parmsset () ⟨10, 10⟩ none)) :
    Exec (Guarded (Step twoLevels) ok) alone [enters, .parmsset () ⟨10, 10⟩ none] favoured :=
  Exec.cons ⟨he, ⟨not_mem_nil, nofun⟩, rfl⟩ (Exec.single ⟨hp, ⟨.head _, by decide⟩, rfl⟩)

theorem time_sharing_run_favoured : (Indexed twoLevels favoured ∧
      (∀ e, Enabled twoLevels favoured e → ∃ u, call twoLevels favoured e = some u)) ∧
      NiceValues twoLevels favoured := by
  have hrun := favoured_steps (NamesPriority twoLevels) nofun (.inr ⟨by decide, by decide⟩)
  obtain ⟨hi, hc, hn⟩ := time_sharing_run alone_booted hrun.of_guarded
  exact ⟨⟨hi, hc⟩, hn hrun⟩

/-- It then asks for no change at all, and its nice value is 20 again. -/
theorem nice_lost_nochange :
    ¬ ∀ (events : List (Event Unit)) (t : Class Unit), Exec (Step twoLevels) alone events t →
      NiceValues twoLevels t := by
  intro hall
  have hrun := (favoured_steps (fun _ _ => True) trivial trivial).of_guarded
  have hlast : Step twoLevels favoured (.parmsset () ⟨TS_NOCHANGE, TS_NOCHANGE⟩ none)
      (perform (.parmsset () ⟨TS_NOCHANGE, TS_NOCHANGE⟩ none) favoured) :=
    ⟨⟨.head _, by decide⟩, rfl⟩
  have hniced := hall _ _ (hrun.snoc hlast) () (.head _)
  obtain hnice | hupri := hniced.corresponds
  · exact absurd hnice (by decide +kernel)
  · exact absurd hupri (by decide +kernel)

end Svr42.Ts

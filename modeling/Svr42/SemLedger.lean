import Svr42.ResmapHeld
import Svr42.SemWaiters

/-! What the calls do to the values and the adjustments, and where the sets have their semaphores. -/

namespace Svr42.Sem
open Function Int List Option

variable {info : Seminfo} {s s' s₁ s₂ : State} {p q i j k n num num' base low high cap : Nat}
  {id id' : Int} {op : Sembuf} {ops : List Sembuf} {l l' : Ledger} {ents : List Undo}

def sumOver (f : Nat → Int) : Nat → Int
  | 0 => 0
  | n + 1 => sumOver f n + f n

theorem sumOver_congr {f g : Nat → Int} (h : ∀ k, k < n → g k = f k) : sumOver g n = sumOver f n := by
  induction n with
  | zero => rfl
  | succ n ih => rw [sumOver, sumOver, ih fun k hk => h k (by omega), h n (by omega)]

theorem sumOver_change {f g : Nat → Int} (hk : k < n) (hsame : ∀ i, i ≠ k → g i = f i) :
    sumOver g n = sumOver f n + (g k - f k) := by
  induction n with
  | zero => exact absurd hk (Nat.not_lt_zero k)
  | succ n ih =>
    rw [sumOver, sumOver]
    by_cases hkn : k = n
    · have hrest : sumOver g n = sumOver f n := sumOver_congr fun i hi => hsame i (by omega)
      rw [hrest, hkn]
      omega
    · rw [ih (by omega), hsame n (Ne.symm hkn)]
      omega

/-! ### The ledger -/

/-- The value of semaphore `k` and the adjustments of all processes for it. -/
def Ledger.total (l : Ledger) (n k : Nat) (id : Int) (num : Nat) : Int :=
  l.value k + sumOver (fun q => l.adj q id num) n

theorem Same.ledger (h : Same s s') : s'.ledger = s.ledger := by
  unfold State.ledger
  congr 1
  · funext k
    rw [h.value]
  · funext q id num
    rw [h.entries]

theorem applyOp_cases (h : applyOp info p id base l op = some l') :
    (∀ q, l'.value q = l.value q + if q = base + op.semNum then op.semOp else 0) ∧
      ∀ q i n, l'.adj q i n = l.adj q i n -
        if q = p ∧ i = id ∧ n = op.semNum ∧ op.semUndo = true then op.semOp else 0 := by
  unfold applyOp at h
  dsimp only at h
  split at h
  · cases h
    exact ⟨fun _ => rfl, fun _ _ _ => rfl⟩
  · cases h

theorem foldlM_adj (h : ops.foldlM (applyOp info p id base) l = some l') (hne : l'.adj q id' num ≠ 0) :
    l.adj q id' num ≠ 0 ∨ id' = id ∧ ∃ op ∈ ops, op.semNum = num := by
  induction ops generalizing l with
  | nil =>
    cases h
    exact .inl hne
  | cons op ops ih =>
    rw [foldlM_cons] at h
    obtain ⟨l₁, hop, hrest⟩ := bind_eq_some_iff.mp h
    rcases ih hrest with hold | ⟨hid, op', hmem, hnum⟩
    · rw [(applyOp_cases hop).2] at hold
      by_cases hkey : q = p ∧ id' = id ∧ num = op.semNum ∧ op.semUndo = true
      · exact .inr ⟨hkey.2.1, op, .head _, hkey.2.2.1.symm⟩
      · rw [if_neg hkey, Int.sub_zero] at hold
        exact .inl hold
    · exact .inr ⟨hid, op', .tail _ hmem, hnum⟩

/-- An operation with SEM_UNDO moves between the value and the adjustment. -/
theorem applyOp_total (h : applyOp info p id base l op = some l') (hp : p < n)
    (hhere : base + op.semNum = k ↔ id' = id ∧ num = op.semNum)
    (hmarked : id' = id → num = op.semNum → op.semOp ≠ 0 → op.semUndo = true) :
    l'.total n k id' num = l.total n k id' num := by
  obtain ⟨hvalue, hadj⟩ := applyOp_cases h
  unfold Ledger.total
  rw [hvalue]
  by_cases hkey : id' = id ∧ num = op.semNum
  · have hother : ∀ q, q ≠ p → l'.adj q id' num = l.adj q id' num := by
      intro q hq
      rw [hadj, if_neg fun hall => hq hall.1, Int.sub_zero]
    rw [sumOver_change hp hother, hadj, if_pos (hhere.mpr hkey).symm]
    by_cases hundo : op.semUndo = true
    · rw [if_pos ⟨rfl, hkey.1, hkey.2, hundo⟩]
      omega
    have hzero : op.semOp = 0 := by
      by_contra hne
      exact hundo (hmarked hkey.1 hkey.2 hne)
    rw [if_neg fun hall => hundo hall.2.2.2]
    omega
  · have hsame : ∀ q, q < n → l'.adj q id' num = l.adj q id' num := by
      intro q _
      rw [hadj, if_neg fun hall => hkey ⟨hall.2.1, hall.2.2.1⟩, Int.sub_zero]
    rw [sumOver_congr hsame, if_neg fun heq => hkey (hhere.mp heq.symm)]
    omega

theorem foldlM_total (h : ops.foldlM (applyOp info p id base) l = some l') (hp : p < n)
    (hhere : ∀ op ∈ ops, base + op.semNum = k ↔ id' = id ∧ num = op.semNum)
    (hmarked : ∀ op ∈ ops, id' = id → num = op.semNum → op.semOp ≠ 0 → op.semUndo = true) :
    l'.total n k id' num = l.total n k id' num := by
  induction ops generalizing l with
  | nil =>
    cases h
    rfl
  | cons op ops ih =>
    rw [foldlM_cons] at h
    obtain ⟨l₁, hop, hrest⟩ := bind_eq_some_iff.mp h
    have hfirst := applyOp_total hop hp (hhere op (.head _)) (hmarked op (.head _))
    rw [ih hrest (fun op' hop' => hhere op' (.tail _ hop'))
      fun op' hop' => hmarked op' (.tail _ hop'), hfirst]

/-! ### Where the sets are -/

def SemidDs.units (sp : SemidDs) : Set Nat :=
  if sp.alloc = true then Resmap.run (sp.semBase + 1) sp.semNsems else ∅

theorem SemidDs.units_of_alloc {sp : SemidDs} (h : sp.alloc = true) :
    sp.units = Resmap.run (sp.semBase + 1) sp.semNsems := if_pos h

/-- The sets have their semaphores from the map, each its own. -/
structure Placed (cap : Nat) (s : State) : Prop where
  map : Resmap.Apportioned cap s.semmap fun i => (s.sema i).units
  inside : ∀ i, (s.sema i).alloc = true →
    0 < (s.sema i).semNsems ∧ (s.sema i).semBase + 1 + (s.sema i).semNsems ≤ Resmap.ulong

theorem Placed.same (h : Placed cap s) (hsema : s'.sema = s.sema) (hmap : s'.semmap = s.semmap) :
    Placed cap s' := by
  constructor
  · rw [hsema, hmap]
    exact h.map
  · rw [hsema]
    exact h.inside

theorem Placed.eq_of_addr (h : Placed cap s) (hi : (s.sema i).alloc = true)
    (hj : (s.sema j).alloc = true) (hnum : num < (s.sema i).semNsems)
    (hnum' : num' < (s.sema j).semNsems) (haddr : (s.sema i).semBase + num = (s.sema j).semBase + num') :
    i = j ∧ num = num' := by
  have hij : i = j := by
    by_contra hne
    have hapart := h.map.apart i j hne
    rw [SemidDs.units_of_alloc hi, SemidDs.units_of_alloc hj] at hapart
    exact Set.disjoint_left.mp hapart
      (Resmap.mem_run.mpr ⟨by omega, by omega⟩ : (s.sema i).semBase + 1 + num ∈ _)
      (Resmap.mem_run.mpr ⟨by omega, by omega⟩)
  rw [hij] at haddr
  exact ⟨hij, by omega⟩

theorem units_update (sp : SemidDs) (j : Nat) :
    (update s.sema i sp j).units = update (fun j => (s.sema j).units) i sp.units j := by
  by_cases hj : j = i
  · rw [hj, update_self, update_self]
  · rw [update_of_ne hj, update_of_ne hj]

theorem Placed.semget (h : Placed cap s) (hcap : cap < Resmap.ulong) {a seq : Nat} {semmap : Resmap.RMap}
    (halloc : Resmap.rmalloc s.semmap n = some (semmap, a)) (ha : a ≠ 0) : Placed cap { s with
      semmap := semmap
      sema := update s.sema i ⟨true, seq, a - 1, n⟩ } := by
  obtain ⟨hn, hend, hmap⟩ := h.map.grant (h := i) hcap halloc ha
  have hbase : a - 1 + 1 = a := Nat.sub_add_cancel (Nat.pos_of_ne_zero ha)
  have hunits : (SemidDs.mk true seq (a - 1) n).units = Resmap.run a n := by
    rw [SemidDs.units_of_alloc rfl, hbase]
  constructor
  · apply hmap.congr
    intro j
    rw [← hunits]
    exact units_update _ j
  · intro j hj
    dsimp only at hj ⊢
    by_cases hji : j = i
    · rw [hji, update_self]
      exact ⟨hn, by dsimp only; omega⟩
    · rw [update_of_ne hji] at hj ⊢
      exact h.inside j hj

theorem Placed.rmid (h : Placed cap s) (hcap : cap < Resmap.ulong) {seq base nsems : Nat}
    {semmap : Resmap.RMap} (hi : (s.sema i).alloc = true)
    (hfree : Resmap.rmfree s.semmap (s.sema i).semNsems ((s.sema i).semBase + 1) = some semmap) :
    Placed cap { s with
      semmap := semmap
      sema := update s.sema i ⟨false, seq, base, nsems⟩ } := by
  obtain ⟨hn, hend⟩ := h.inside i hi
  obtain ⟨mp', heq, -, hmap⟩ := h.map.release hcap (SemidDs.units_of_alloc hi) (Nat.succ_pos _) hn hend
  rw [hfree] at heq
  cases heq
  constructor
  · apply hmap.congr
    exact units_update _
  · intro j hj
    dsimp only at hj ⊢
    by_cases hji : j = i
    · rw [hji, update_self] at hj
      cases hj
    · rw [update_of_ne hji] at hj ⊢
      exact h.inside j hj

/-! ### What the calls do to the books -/

theorem aoeOf_filter (id : Int) (low high : Nat) (i : Int) (n : Nat) (ents : List Undo) :
    aoeOf i n (ents.filter fun u => !covered id low high u) =
      if i = id ∧ low ≤ n ∧ n ≤ high then 0 else aoeOf i n ents := by
  induction ents with
  | nil => simp [aoeOf]
  | cons u ents ih =>
    by_cases hcov : covered id low high u = true
    · rw [filter_cons_of_neg (by simp [hcov]), ih]
      by_cases hrange : i = id ∧ low ≤ n ∧ n ≤ high
      · rw [if_pos hrange, if_pos hrange]
      rw [if_neg hrange, if_neg hrange, aoeOf, if_neg]
      intro hkey
      simp only [covered, Bool.and_eq_true, decide_eq_true_eq] at hcov
      rw [hkey.1, hkey.2] at hcov
      exact hrange ⟨hcov.1.1, hcov.1.2, hcov.2⟩
    · rw [filter_cons_of_pos (by simp [hcov]), aoeOf, aoeOf, ih]
      by_cases hkey : u.unId = i ∧ u.unNum = n
      · rw [if_pos hkey, if_pos hkey, if_neg]
        intro hrange
        apply hcov
        simp only [covered, Bool.and_eq_true, decide_eq_true_eq]
        rw [hkey.1, hkey.2]
        exact ⟨⟨hrange.1, hrange.2.1⟩, hrange.2.2⟩
      · rw [if_neg hkey, if_neg hkey]

theorem semunrm_adj (h : Sound info s) (hundo : s'.undo = semunrm info id low high s.undo) (q : Nat)
    (i : Int) (n : Nat) :
    s'.ledger.adj q i n = if i = id ∧ low ≤ n ∧ n ≤ high then 0 else s.ledger.adj q i n := by
  obtain ⟨act, free, hok⟩ := h.undo
  have hentries := (semunrm_ok hok id low high).2.2 q
  change aoeOf i n (s'.undo.entries q) = _
  rw [hundo, hentries]
  exact aoeOf_filter id low high i n _

theorem clear_other (hk : q ≠ k) : ((clear k s).sem q).semval = (s.sem q).semval := by
  unfold clear
  rw [wakeWaiters_semval, wakeWaiters_semval, setVal_semval, if_neg hk]

theorem clear_undo : (clear k s).undo = s.undo := by
  unfold clear
  rw [wakeWaiters_undo, wakeWaiters_undo]
  rfl

theorem clearAll_other (n : Nat) : ∀ {s : State} (k : Nat),
    (∀ q, q < k ∨ k + n ≤ q → ((clearAll n k s).sem q).semval = (s.sem q).semval) ∧
      (clearAll n k s).undo = s.undo := by
  induction n with
  | zero => exact fun k => ⟨fun _ _ => rfl, rfl⟩
  | succ n ih =>
    intro s k
    obtain ⟨hvalue, hundo⟩ := ih (s := clear k s) (k + 1)
    exact ⟨fun q hq => (hvalue q (by omega)).trans (clear_other (by omega)), hundo.trans clear_undo⟩

theorem assign_semval (v : Nat) : ((assign k v s).sem q).semval =
    if q = k then v else (s.sem q).semval := by
  unfold assign
  split <;> rw [wakeWaiters_semval, setVal_semval]

theorem assign_undo (v : Nat) : (assign k v s).undo = s.undo := by
  unfold assign
  split <;> rw [wakeWaiters_undo] <;> rfl

theorem assignAll_other (vals : List Nat) : ∀ {s : State} (k : Nat), (∀ q, q < k ∨ k + vals.length ≤ q →
      ((assignAll vals k s).sem q).semval = (s.sem q).semval) ∧
      (assignAll vals k s).undo = s.undo := by
  induction vals with
  | nil => exact fun k => ⟨fun _ _ => rfl, rfl⟩
  | cons v vals ih =>
    intro s k
    obtain ⟨hvalue, hundo⟩ := ih (s := assign k v s) (k + 1)
    refine ⟨fun q hq => ?_, hundo.trans (assign_undo v)⟩
    rw [length_cons] at hq
    have hassign : ((assign k v s).sem q).semval = (s.sem q).semval := by
      rw [assign_semval, if_neg (by omega)]
    exact (hvalue q (by omega)).trans hassign

/-- The values but for those of one set, and the entries but for those of a range in it. -/
structure Reset (info : Seminfo) (s : State) (id : Int) (low high first count : Nat) (s' : State) :
    Prop where
  value : ∀ q, q < first ∨ first + count ≤ q → s'.ledger.value q = s.ledger.value q
  adj : ∀ q i n, s'.ledger.adj q i n =
    if i = id ∧ low ≤ n ∧ n ≤ high then 0 else s.ledger.adj q i n

theorem rmid_reset (h : Sound info s) {old : Bool} (hrmid : rmid info old id i s = some s') :
    Reset info s id 0 (s.sema i).semNsems (s.sema i).semBase (s.sema i).semNsems s' := by
  obtain ⟨semmap, -, heq⟩ := map_eq_some_iff.mp hrmid
  obtain ⟨hvalue, hundo⟩ := clearAll_other (s.sema i).semNsems
    (s := { s with undo := semunrm info id 0 (s.sema i).semNsems s.undo }) (s.sema i).semBase
  rw [← heq]
  refine ⟨fun q hq => ?_, semunrm_adj h hundo⟩
  exact congrArg ofNat (hvalue q hq)

theorem setval_reset (h : Sound info s) (id : Int) (i num arg : Nat) :
    (∃ e, setval info id i num arg s = (s, some e)) ∨
      ((setval info id i num arg s).2 = none ∧ num < (s.sema i).semNsems ∧
        Reset info s id num num ((s.sema i).semBase + num) 1 (setval info id i num arg s).1) := by
  unfold setval
  dsimp only
  split
  · exact .inl ⟨_, rfl⟩
  · rename_i hnum
    split
    · exact .inl ⟨_, rfl⟩
    · refine .inr ⟨rfl, not_le.mp hnum, fun q hq => ?_, semunrm_adj h ?_⟩
      · refine congrArg ofNat ?_
        rw [assign_semval, if_neg (by omega)]
      · exact congrArg (semunrm info id num num) (assign_undo arg)

theorem setall_reset (h : Sound info s) (id : Int) {semvals : List Nat}
    (hlength : semvals.length = (s.sema i).semNsems) : (∃ e, setall info id i semvals s = (s, some e)) ∨
      ((setall info id i semvals s).2 = none ∧
        Reset info s id 0 (s.sema i).semNsems (s.sema i).semBase (s.sema i).semNsems
          (setall info id i semvals s).1) := by
  unfold setall
  split
  · exact .inl ⟨_, rfl⟩
  · obtain ⟨hvalue, hundo⟩ := assignAll_other semvals
      (s := { s with undo := semunrm info id 0 (s.sema i).semNsems s.undo }) (s.sema i).semBase
    refine .inr ⟨rfl, fun q hq => ?_, semunrm_adj h hundo⟩
    exact congrArg ofNat (hvalue q (by rw [hlength]; exact hq))

/-! ### Exits -/

/-- The value after an adjustment on exit: one that would take it out of its range is dropped. -/
def settle (info : Seminfo) (value aoe : Int) : Int :=
  if value + aoe < 0 ∨ info.semvmx < value + aoe then value else value + aoe

theorem exitEntry_sema (u : Undo) : (exitEntry info u s).sema = s.sema := by
  have hwake : ∀ {s : State} {c : Chan}, (wakeWaiters c s).sema = s.sema := by
    intro s c
    unfold wakeWaiters
    split
    · exact setCnt_sema 0
    · rfl
  unfold exitEntry
  cases semconv info s u.unId with
  | none => rfl
  | some i =>
    dsimp only
    split
    · rfl
    · split <;> split <;> simp [hwake, State.setVal]

theorem exitEntry_value {u : Undo} (hconv : semconv info s u.unId = some i)
    (k : Nat) : (((exitEntry info u s).sem k).semval : Int) =
      if k = (s.sema i).semBase + u.unNum then settle info (s.sem k).semval u.unAoe
      else (s.sem k).semval := by
  unfold exitEntry
  rw [hconv]
  dsimp only
  by_cases hout : ((s.sem ((s.sema i).semBase + u.unNum)).semval : Int) + u.unAoe < 0 ∨
      info.semvmx < ((s.sem ((s.sema i).semBase + u.unNum)).semval : Int) + u.unAoe
  · rw [if_pos hout]
    by_cases hk : k = (s.sema i).semBase + u.unNum
    · rw [if_pos hk, hk, settle, if_pos hout]
    · rw [if_neg hk]
  · rw [if_neg hout]
    have hvmx := info.semvmxLe
    have hexact := ushort_eq (v := (s.sem ((s.sema i).semBase + u.unNum)).semval + u.unAoe)
      (by omega) (by omega)
    generalize ushort ((s.sem ((s.sema i).semBase + u.unNum)).semval + u.unAoe) = w at hexact ⊢
    have hval : ∀ s' : State, (∀ q, (s'.sem q).semval =
        ((s.setVal ((s.sema i).semBase + u.unNum) w).sem q).semval) →
        ((s'.sem k).semval : Int) = if k = (s.sema i).semBase + u.unNum then
          settle info (s.sem k).semval u.unAoe else (s.sem k).semval := by
      intro s' hs'
      rw [hs', setVal_semval]
      by_cases hk : k = (s.sema i).semBase + u.unNum
      · rw [if_pos hk, if_pos hk, hexact, hk, settle, if_neg hout]
      · rw [if_neg hk, if_neg hk]
    refine hval _ fun q => ?_
    split <;> split <;> simp

/-- What an exit makes of a semaphore: its own entry, if it has one, is settled. -/
theorem exitEntries_value (h : Sound info s) (hplaced : Placed cap s)
    (hconv : semconv info s id = some i) (hnum : num < (s.sema i).semNsems)
    (hsorted : ents.Pairwise Undo.lt)
    (hrefers : ∀ u ∈ ents, ∃ j, semconv info s u.unId = some j ∧ u.unNum < (s.sema j).semNsems) :
    (ents.foldr (exitEntry info) s).sema = s.sema ∧
      (((ents.foldr (exitEntry info) s).sem ((s.sema i).semBase + num)).semval : Int) =
        settle info (s.sem ((s.sema i).semBase + num)).semval (aoeOf id num ents) := by
  have hlimit := h.value ((s.sema i).semBase + num)
  have hidle : settle info (s.sem ((s.sema i).semBase + num)).semval 0 =
      (s.sem ((s.sema i).semBase + num)).semval := by
    rw [settle, if_neg (by omega), Int.add_zero]
  induction ents with
  | nil => exact ⟨rfl, hidle.symm⟩
  | cons u ents ih =>
    obtain ⟨hfirst, hrest⟩ := pairwise_cons.mp hsorted
    obtain ⟨hsema, hvalue⟩ := ih hrest fun v hv => hrefers v (.tail _ hv)
    obtain ⟨j, hj, hunum⟩ := hrefers u (.head _)
    have hj' : semconv info (ents.foldr (exitEntry info) s) u.unId = some j :=
      semconv_congr hj (congrFun hsema j)
    rw [foldr_cons]
    refine ⟨(exitEntry_sema u).trans hsema, ?_⟩
    rw [exitEntry_value hj', hsema, aoeOf, hvalue]
    by_cases hkey : u.unId = id ∧ u.unNum = num
    · have hij : j = i := some.inj (hj.symm.trans (hkey.1 ▸ hconv))
      have hnone : aoeOf id num ents = 0 := by
        apply aoeOf_none
        intro v hv hsame
        have hlt := hfirst v hv
        unfold Undo.lt at hlt
        omega
      rw [if_pos (by rw [hij, hkey.2]), if_pos hkey, hnone, hidle]
    · have hother : (s.sema i).semBase + num ≠ (s.sema j).semBase + u.unNum := by
        intro heq
        obtain ⟨hij, hnums⟩ := hplaced.eq_of_addr (semconv_alloc hconv) (semconv_alloc hj) hnum hunum heq
        rw [← hij] at hj
        exact hkey ⟨semconv_inj hconv hj, hnums.symm⟩
      rw [if_neg hother, if_neg hkey]

end Svr42.Sem

import Svr42.RunExec
import Svr42.SemUndo

/-! `semop` does all of its operations or none: what is rolled back leaves the values and the undo
entries as they were, and what succeeds has done every operation in order. -/

namespace Svr42.Sem
open Function List

variable {info : Seminfo} {s s' s₀ s₁ s₂ : State} {p q k num base : Nat} {id val : Int}
  {op : Sembuf} {ops done rest : List Sembuf} {c : Chan}

/-! ### Values and entries -/

/-- The same values and the same entries. -/
structure Same (s s' : State) : Prop where
  value : ∀ k, (s'.sem k).semval = (s.sem k).semval
  entries : ∀ q, s'.undo.entries q = s.undo.entries q

def Owned (s s' : State) : Prop := ∀ q, s.undo.semUndo q ≠ none → s'.undo.semUndo q ≠ none

/-- The values are within the limit and the undo table is in order. -/
structure Sound (info : Seminfo) (s : State) : Prop where
  value : ∀ k, ((s.sem k).semval : Int) ≤ info.semvmx
  undo : ∃ act free, s.undo.Ok info act free

theorem Same.rfl : Same s s := ⟨fun _ => Eq.refl _, fun _ => Eq.refl _⟩

theorem Same.trans (h : Same s s₁) (h' : Same s₁ s₂) : Same s s₂ :=
  ⟨fun k => (h'.value k).trans (h.value k), fun q => (h'.entries q).trans (h.entries q)⟩

theorem Sound.same (h : Sound info s) (hvalue : ∀ k, (s'.sem k).semval = (s.sem k).semval)
    (hundo : s'.undo = s.undo) : Sound info s' where
  value k := by
    rw [hvalue]
    exact h.value k
  undo := by
    rw [hundo]
    exact h.undo

theorem Sound.entsOk (h : Sound info s) (q : Nat) : EntsOk info (s.undo.entries q) := by
  obtain ⟨act, free, hok⟩ := h.undo
  unfold UndoTab.entries
  cases s.undo.semUndo q with
  | none => exact EntsOk.nil
  | some up => exact hok.ents up

/-! ### Counts and wakeups -/

@[simp]
theorem setCnt_semval (v : Nat) : ((s.setCnt c v).sem k).semval = (s.sem k).semval := by
  cases c with
  | ncnt j =>
    by_cases hk : k = j
    · simp [State.setCnt, hk]
    · simp [State.setCnt, update_of_ne hk]
  | zcnt j =>
    by_cases hk : k = j
    · simp [State.setCnt, hk]
    · simp [State.setCnt, update_of_ne hk]

@[simp]
theorem setCnt_undo (v : Nat) : (s.setCnt c v).undo = s.undo := by
  cases c <;> rfl

@[simp]
theorem wakeWaiters_semval : ((wakeWaiters c s).sem k).semval = (s.sem k).semval := by
  unfold wakeWaiters
  split
  · exact setCnt_semval 0
  · rfl

@[simp]
theorem wakeWaiters_undo : (wakeWaiters c s).undo = s.undo := by
  unfold wakeWaiters
  split
  · exact setCnt_undo 0
  · rfl

theorem setVal_semval (v : Nat) : ((s.setVal k v).sem q).semval =
    if q = k then v else (s.sem q).semval := by
  by_cases hq : q = k
  · simp [State.setVal, hq]
  · simp [State.setVal, hq]

theorem ushort_eq {v : Int} (hlow : 0 ≤ v) (hhigh : v < 65536) : (ushort v : Int) = v := by
  unfold ushort
  omega

@[simp]
theorem change_undo (v : Int) : (change k v s).undo = s.undo := by
  unfold change
  dsimp only
  split <;> split <;> simp [State.setVal]

theorem change_semval (v : Int) : ((change k v s).sem q).semval =
    if q = k then ushort ((s.sem k).semval + v) else (s.sem q).semval := by
  unfold change
  dsimp only
  split <;> split <;> simp [setVal_semval]

/-! ### One operation, and its undoing -/

def InLimit (info : Seminfo) (val : Int) : Prop := val ≤ info.semaem ∧ -info.semaem ≤ val

/-- What the SEM_UNDO part of an operation has done when it succeeds. -/
structure Undone (info : Seminfo) (p : Nat) (op : Sembuf) (val id : Int) (s s' : State) : Prop where
  sem : s'.sem = s.sem
  sound : Sound info s'
  owned : Owned s s'
  other : ∀ q, q ≠ p → s'.undo.entries q = s.undo.entries q
  plain : op.semUndo = false → s'.undo.entries p = s.undo.entries p
  marked : op.semUndo = true → val ≠ 0 → InLimit info val ∧ s'.undo.semUndo p ≠ none ∧
    adjusted info val id op.semNum (s.undo.entries p) = .ok (s'.undo.entries p)

theorem undoOp_ok (h : Sound info s) (p : Nat) (op : Sembuf) (val id : Int) :
    (∃ e, (undoOp info p op val id s).2 = some e ∧ Same s (undoOp info p op val id s).1 ∧
      Sound info (undoOp info p op val id s).1 ∧ Owned s (undoOp info p op val id s).1 ∧
      (s.undo.semUndo p ≠ none → InLimit info val → op.semUndo = true ∧
        adjusted info val id op.semNum (s.undo.entries p) = .error e)) ∨
    ((undoOp info p op val id s).2 = none ∧
      Undone info p op val id s (undoOp info p op val id s).1) := by
  obtain ⟨act, free, hundo⟩ := h.undo
  unfold undoOp
  split_ifs with hflag
  · have hentries : ∀ {ents : List Undo} {t : UndoTab}, Stored info s.undo p ents t →
        ents = s.undo.entries p → ∀ q, t.entries q = s.undo.entries q := by
      intro ents t hstored hents q
      by_cases hq : q = p
      · rw [hq, hstored.here, hents]
      · exact hstored.other q hq
    rcases semaoe_ok hundo p val id op.semNum with ⟨e, he, herror, hstored⟩ | ⟨hzero, heq⟩ |
      ⟨ents, hnone, hval, hin, hadjusted, howned, hstored⟩
    · exact .inl ⟨e, he, ⟨fun _ => rfl, hentries hstored rfl⟩, ⟨h.value, hstored.ok⟩,
        hstored.owned, fun hown hlimit => ⟨hflag, herror hown hlimit⟩⟩
    · simp only [heq]
      exact .inr ⟨trivial, rfl, h, fun _ hq => hq, fun _ _ => rfl, fun _ => rfl,
        fun _ hval => absurd hzero hval⟩
    · refine .inr ⟨hnone, rfl, ⟨h.value, hstored.ok⟩, hstored.owned, hstored.other,
        fun hplain => ?_, fun _ _ => ⟨hin, howned, ?_⟩⟩
      · rw [hflag] at hplain
        cases hplain
      · simp only [hstored.here]
        exact hadjusted
  · exact .inr ⟨rfl, rfl, h, fun _ hq => hq, fun _ _ => rfl, fun _ => rfl, fun hset => absurd hset hflag⟩

/-- The operation `op` of the set at `base` has been done from `s` to `s₁`. -/
structure Did (info : Seminfo) (p : Nat) (id : Int) (base : Nat) (op : Sembuf) (s s₁ : State) :
    Prop where
  ne : op.semOp ≠ 0
  value : ∀ q, ((s₁.sem q).semval : Int) =
    (s.sem q).semval + if q = base + op.semNum then op.semOp else 0
  undone : ∃ s', Undone info p op op.semOp id s s' ∧ s₁.undo = s'.undo

theorem Did.entries (h : Did info p id base op s s₁) (hq : q ≠ p ∨ op.semUndo = false) :
    s₁.undo.entries q = s.undo.entries q := by
  obtain ⟨s', hundone, hundo⟩ := h.undone
  rw [hundo]
  by_cases hqp : q = p
  · rw [hqp]
    exact hundone.plain (hq.resolve_left fun hne => hne hqp)
  · exact hundone.other q hqp

/-- Undoing an operation, from any state with the values and entries that it left. -/
theorem undo_one (h : Sound info s) (hdid : Did info p id base op s s₁) (hsame : Same s₁ s₂)
    (hsound : Sound info s₂) (howned : Owned s₁ s₂) :
    ∃ s₃, (undoOp info p op (short (-op.semOp)) id (s₂.setVal (base + op.semNum)
        (ushort ((s₂.sem (base + op.semNum)).semval - op.semOp)))).1 = s₃ ∧
      Same s s₃ ∧ Sound info s₃ ∧ Owned s₂ s₃ := by
  have hvmx := info.semvmxLe
  -- the values are those of `s` again
  have hvalue : ∀ q, ((s₂.setVal (base + op.semNum)
      (ushort ((s₂.sem (base + op.semNum)).semval - op.semOp))).sem q).semval =
      (s.sem q).semval := by
    intro q
    have hs := h.value q
    have hq := hdid.value q
    rw [← hsame.value q] at hq
    rw [setVal_semval]
    by_cases hk : q = base + op.semNum
    · rw [if_pos hk] at hq ⊢
      rw [← hk]
      have hback : ((s₂.sem q).semval : Int) - op.semOp = (s.sem q).semval := by omega
      have hexact := ushort_eq (v := (s.sem q).semval) (by omega) (by omega)
      rw [hback]
      exact_mod_cast hexact
    · rw [if_neg hk] at hq ⊢
      omega
  generalize hset : s₂.setVal (base + op.semNum)
    (ushort ((s₂.sem (base + op.semNum)).semval - op.semOp)) = s₂' at hvalue ⊢
  have hundo : s₂'.undo = s₂.undo := by
    rw [← hset]
    rfl
  have hsound' : Sound info s₂' := by
    refine ⟨fun q => ?_, ?_⟩
    · rw [hvalue]
      exact h.value q
    · rw [hundo]
      exact hsound.undo
  by_cases hflag : op.semUndo = true
  · obtain ⟨s', hundone, hs₁⟩ := hdid.undone
    obtain ⟨hlimit, hsome, hadjusted⟩ := hundone.marked hflag hdid.ne
    have hback := adjusted_back (h.entsOk p) hlimit hadjusted
    rw [← hs₁] at hback hsome
    rw [← hsame.entries p] at hback
    have hown : s₂'.undo.semUndo p ≠ none := by
      rw [hundo]
      exact howned p hsome
    have hneg : InLimit info (-op.semOp) := by
      unfold InLimit at hlimit ⊢
      omega
    rw [val_short info hlimit]
    rcases undoOp_ok hsound' p op (-op.semOp) id with ⟨e, -, -, -, -, herror⟩ | ⟨-, hundone'⟩
    · have hcontra := (herror hown hneg).2
      rw [hundo, hback] at hcontra
      cases hcontra
    obtain ⟨-, -, hadjusted'⟩ := hundone'.marked hflag (by have hne := hdid.ne; omega)
    rw [hundo, hback] at hadjusted'
    refine ⟨_, rfl, ⟨fun q => ?_, fun q => ?_⟩, hundone'.sound, fun q hq => ?_⟩
    · rw [hundone'.sem, hvalue]
    · by_cases hqp : q = p
      · rw [hqp]
        exact (Except.ok.inj hadjusted').symm
      · rw [hundone'.other q hqp, hundo, hsame.entries, hdid.entries (.inl hqp)]
    · exact hundone'.owned q (by rw [hundo]; exact hq)
  · have hplain : op.semUndo = false := Bool.eq_false_iff.mpr hflag
    refine ⟨s₂', by rw [undoOp, if_neg hflag], ⟨hvalue, fun q => ?_⟩, hsound', fun q hq => ?_⟩
    · rw [hundo, hsame.entries, hdid.entries (.inr hplain)]
    · rw [hundo]
      exact hq

/-- From any state with the values and entries of `s`, undoing `done` leads to those of `s₀`. -/
def RollsBack (info : Seminfo) (p : Nat) (id : Int) (base : Nat) (done : List Sembuf) (s₀ s : State) :
    Prop :=
  ∀ s₂, Same s s₂ → Sound info s₂ → Owned s s₂ →
    Same s₀ (semundo info p id base done s₂) ∧ Sound info (semundo info p id base done s₂)

theorem RollsBack.start : RollsBack info p id base [] s s :=
  fun _ hsame hsound _ => ⟨hsame, hsound⟩

theorem RollsBack.did (h : RollsBack info p id base done s₀ s) (hsound : Sound info s)
    (hdid : Did info p id base op s s₁) : RollsBack info p id base (op :: done) s₀ s₁ := by
  intro s₂ hsame hsound₂ howned
  obtain ⟨s₃, heq, hsame₃, hsound₃, howned₃⟩ := undo_one hsound hdid hsame hsound₂ howned
  obtain ⟨s', hundone, hundo⟩ := hdid.undone
  rw [semundo, if_neg hdid.ne]
  simp only [heq]
  refine h s₃ hsame₃ hsound₃ fun q hq => howned₃ q (howned q ?_)
  rw [hundo]
  exact hundone.owned q hq

theorem RollsBack.zero (h : RollsBack info p id base done s₀ s) (hzero : op.semOp = 0) :
    RollsBack info p id base (op :: done) s₀ s := by
  intro s₂ hsame hsound howned
  rw [semundo, if_pos hzero]
  exact h s₂ hsame hsound howned

/-! ### The operations as they are meant -/

def aoeOf (id : Int) (num : Nat) : List Undo → Int
  | [] => 0
  | u :: rest => if u.unId = id ∧ u.unNum = num then u.unAoe else aoeOf id num rest

/-- The values, and the adjustments of every process. -/
structure Ledger where
  value : Nat → Int
  adj : Nat → Int → Nat → Int

def State.ledger (s : State) : Ledger where
  value k := (s.sem k).semval
  adj q id num := aoeOf id num (s.undo.entries q)

/-- The operation can be done at the value: it stays between 0 and the limit, and is 0 for a wait for
zero. -/
def CanDo (info : Seminfo) (op : Sembuf) (value : Int) : Prop :=
  if 0 < op.semOp then op.semOp + value ≤ info.semvmx
  else if op.semOp < 0 then -op.semOp ≤ value
  else value = 0

instance {value : Int} : Decidable (CanDo info op value) := by
  unfold CanDo
  infer_instance

/-- One operation, of process `p` on the set at `base`: the value changes, and with SEM_UNDO the
adjustment the other way. -/
def applyOp (info : Seminfo) (p : Nat) (id : Int) (base : Nat) (l : Ledger) (op : Sembuf) :
    Option Ledger :=
  let k := base + op.semNum
  if CanDo info op (l.value k) then
    some
      { value := fun q => l.value q + if q = k then op.semOp else 0
        adj := fun q i n => l.adj q i n -
          if q = p ∧ i = id ∧ n = op.semNum ∧ op.semUndo = true then op.semOp else 0 }
  else none

variable {ents ents' front back : List Undo} {u : Undo} {i : Int} {n : Nat}

theorem aoeOf_front (back : List Undo) (h : ∀ v ∈ front, ¬ (v.unId = i ∧ v.unNum = n)) :
    aoeOf i n (front ++ back) = aoeOf i n back := by
  induction front with
  | nil => rfl
  | cons v front ih =>
    rw [cons_append, aoeOf, if_neg (h v (.head _))]
    exact ih fun w hw => h w (.tail _ hw)

theorem aoeOf_none (h : ∀ v ∈ ents, ¬ (v.unId = i ∧ v.unNum = n)) : aoeOf i n ents = 0 := by
  have hfront := aoeOf_front [] h
  rw [append_nil] at hfront
  exact hfront

theorem aoeOf_here (hu : u.unId = i ∧ u.unNum = n) (h : ∀ v ∈ front, ¬ (v.unId = i ∧ v.unNum = n)) :
    aoeOf i n (front ++ u :: back) = u.unAoe := by
  rw [aoeOf_front _ h, aoeOf, if_pos hu]

theorem aoeOf_skip (hu : ¬ (u.unId = i ∧ u.unNum = n)) :
    aoeOf i n (front ++ u :: back) = aoeOf i n (front ++ back) := by
  induction front with
  | nil => rw [nil_append, aoeOf, if_neg hu, nil_append]
  | cons v front ih =>
    rw [cons_append, aoeOf, cons_append, aoeOf, ih]

theorem not_key (hfront : ∀ v ∈ front, precedes id num v = true) :
    ∀ v ∈ front, ¬ (v.unId = id ∧ v.unNum = num) := by
  intro v hv heq
  have hpre := precedes_iff.mp (hfront v hv)
  omega

theorem short_exact {v : Int} (info : Seminfo) (hlow : -32768 ≤ v) (hhigh : v ≤ 32768)
    (hin : ¬ (info.semaem < short v ∨ short v < -info.semaem)) : short v = v := by
  have haem := info.semaemLe
  by_cases hmax : v = 32768
  · rw [hmax] at hin
    have hwrap : short 32768 = -32768 := by decide
    omega
  · exact short_eq hlow (by omega)

theorem aoeOf_adjusted (h : EntsOk info ents) (hlimit : InLimit info val)
    (heq : adjusted info val id num ents = .ok ents') :
    aoeOf i n ents' = aoeOf i n ents - if i = id ∧ n = num then val else 0 := by
  have haem := info.semaemLe
  cases h.place id num with
  | @found front back uup hfront hu =>
    rw [adjusted_found hfront hu] at heq
    have haoe := h.aoe uup (by simp)
    split at heq
    · cases heq
    · rename_i hin
      unfold InLimit at hlimit
      have hexact := short_exact info (v := uup.unAoe - val) (by omega) (by omega) hin
      have hafter : ∀ v ∈ back, ¬ (v.unId = id ∧ v.unNum = num) := fun v hv =>
        ((key_lt hu).mp ((pairwise_cons.mp (pairwise_append.mp h.sorted).2.1).1 v hv)).2
      by_cases hkey : i = id ∧ n = num
      · rw [hkey.1, hkey.2, if_pos ⟨rfl, rfl⟩, aoeOf_here hu (not_key hfront)]
        split at heq
        · cases heq
          rw [aoeOf_front _ (not_key hfront), aoeOf_none hafter]
          omega
        · cases heq
          obtain ⟨w, hw, hwu⟩ : ∃ w : Undo, w = { uup with unAoe := short (uup.unAoe - val) } ∧
            w.unId = id ∧ w.unNum = num := ⟨_, rfl, hu⟩
          rw [← hw, aoeOf_here hwu (not_key hfront), hw]
          exact hexact
      · rw [if_neg hkey, Int.sub_zero]
        have hother : ¬ (uup.unId = i ∧ uup.unNum = n) := by omega
        split at heq
        · cases heq
          exact (aoeOf_skip hother).symm
        · cases heq
          obtain ⟨w, hw, hwu⟩ : ∃ w : Undo, w = { uup with unAoe := short (uup.unAoe - val) } ∧
            ¬ (w.unId = i ∧ w.unNum = n) := ⟨_, rfl, hother⟩
          rw [← hw, aoeOf_skip hwu, aoeOf_skip hother]
  | @absent front rest hfront hrest =>
    rw [adjusted_absent hfront hrest] at heq
    split at heq
    · cases heq
    · cases heq
      rw [val_short info hlimit]
      by_cases hkey : i = id ∧ n = num
      · obtain ⟨w, hw, hwu⟩ : ∃ w : Undo, w = ⟨-val, num, id⟩ ∧ w.unId = id ∧ w.unNum = num :=
          ⟨_, rfl, rfl, rfl⟩
        rw [hkey.1, hkey.2, if_pos ⟨rfl, rfl⟩, ← hw, aoeOf_here hwu (not_key hfront),
          aoeOf_front _ (not_key hfront), aoeOf_none fun v hv => (hrest v hv).2, hw]
        exact (Int.zero_sub val).symm
      · rw [if_neg hkey, Int.sub_zero]
        exact aoeOf_skip fun hmatch => hkey ⟨hmatch.1.symm, hmatch.2.symm⟩

theorem Did.ledger (h : Sound info s) (hdid : Did info p id base op s s₁) :
    s₁.ledger = { value := fun q => s.ledger.value q + if q = base + op.semNum then op.semOp else 0
                  adj := fun q i n => s.ledger.adj q i n -
                    if q = p ∧ i = id ∧ n = op.semNum ∧ op.semUndo = true then op.semOp else 0 } := by
  obtain ⟨s', hundone, hundo⟩ := hdid.undone
  unfold State.ledger
  congr 1
  · funext q
    exact hdid.value q
  · funext q i n
    by_cases hq : q ≠ p ∨ op.semUndo = false
    · rw [hdid.entries hq, if_neg, Int.sub_zero]
      intro hall
      rcases hq with hne | hplain
      · exact hne hall.1
      · rw [hall.2.2.2] at hplain
        cases hplain
    · rw [not_or, not_not, Bool.not_eq_false] at hq
      obtain ⟨hlimit, -, hadjusted⟩ := hundone.marked hq.2 hdid.ne
      rw [hq.1, hundo]
      rw [aoeOf_adjusted (h.entsOk p) hlimit hadjusted]
      simp [hq.2]

/-! ### The loop of `semop` -/

/-- A change of value after the SEM_UNDO part. -/
theorem did_change (h : Sound info s) (hne : op.semOp ≠ 0)
    (hcan : CanDo info op (s.sem (base + op.semNum)).semval)
    (hundone : Undone info p op op.semOp id s s') :
    Did info p id base op s (change (base + op.semNum) op.semOp s') ∧
      Sound info (change (base + op.semNum) op.semOp s') := by
  have hvmx := info.semvmxLe
  have hval := h.value (base + op.semNum)
  have hrange : 0 ≤ ((s.sem (base + op.semNum)).semval : Int) + op.semOp ∧
      ((s.sem (base + op.semNum)).semval : Int) + op.semOp ≤ info.semvmx := by
    unfold CanDo at hcan
    split at hcan
    · omega
    · split at hcan <;> omega
  have hexact := ushort_eq hrange.1 (by omega)
  have hvalue : ∀ q, (((change (base + op.semNum) op.semOp s').sem q).semval : Int) =
      (s.sem q).semval + if q = base + op.semNum then op.semOp else 0 := by
    intro q
    rw [change_semval, hundone.sem]
    by_cases hq : q = base + op.semNum
    · rw [if_pos hq, if_pos hq, hexact, hq]
    · rw [if_neg hq, if_neg hq, Int.add_zero]
  refine ⟨⟨hne, hvalue, s', hundone, change_undo _⟩, fun q => ?_, ?_⟩
  · have hq := hvalue q
    have hold := h.value q
    by_cases hqk : q = base + op.semNum
    · rw [if_pos hqk, hqk] at hq
      rw [hqk, hq]
      exact hrange.2
    · rw [if_neg hqk, Int.add_zero] at hq
      rw [hq]
      exact hold
  · rw [change_undo]
    exact hundone.sound.undo

/-- What the loop comes to: all operations done, or the state rolled back to `s₀`. -/
structure Performed (info : Seminfo) (p : Nat) (id : Int) (base : Nat) (rest : List Sembuf)
    (s₀ s : State) (r : State × Outcome) : Prop where
  sound : Sound info r.1
  all : r.2 = .ret none → rest.foldlM (applyOp info p id base) s.ledger = some r.1.ledger
  nothing : r.2 ≠ .ret none → Same s₀ r.1

theorem performed_back {outcome : Outcome} (h : RollsBack info p id base done s₀ s) (hsame : Same s s₁)
    (hsound : Sound info s₁) (howned : Owned s s₁) (hne : outcome ≠ .ret none) :
    Performed info p id base rest s₀ s (semundo info p id base done s₁, outcome) where
  sound := (h s₁ hsame hsound howned).2
  all heq := absurd heq hne
  nothing _ := (h s₁ hsame hsound howned).1

theorem apply_did (h : Sound info s) (hdid : Did info p id base op s s₁)
    (hcan : CanDo info op (s.sem (base + op.semNum)).semval) :
    applyOp info p id base s.ledger op = some s₁.ledger := by
  unfold applyOp
  have hcan' : CanDo info op (s.ledger.value (base + op.semNum)) := hcan
  rw [hdid.ledger h, if_pos hcan']

/-- The operation cannot be done, and a process sleeps on `c` for it. -/
structure Blocks (info : Seminfo) (base : Nat) (op : Sembuf) (s : State) (c : Chan) : Prop where
  cannot : ¬ CanDo info op (s.sem (base + op.semNum)).semval
  waits : op.ipcNowait = false
  chan : op.semOp < 0 ∧ c = .ncnt (base + op.semNum) ∨ op.semOp = 0 ∧ c = .zcnt (base + op.semNum)

/-- What the loop comes to at the operation `op`. -/
inductive Turn (info : Seminfo) (p : Nat) (id : Int) (base : Nat) (done : List Sembuf) (op : Sembuf)
    (rest : List Sembuf) (s : State) : State × Outcome → Prop
  | stop {outcome : Outcome} : outcome ≠ .ret none →
      (∀ c, outcome = .sleep c → Blocks info base op s c) →
      Turn info p id base done op rest s (semundo info p id base done s, outcome)
  | fail {s' : State} {e : Errno} : undoOp info p op op.semOp id s = (s', some e) →
      Turn info p id base done op rest s (semundo info p id base done s', .ret (some e))
  | zero : op.semOp = 0 → CanDo info op (s.sem (base + op.semNum)).semval →
      Turn info p id base done op rest s (perform info p id base (op :: done) rest s)
  | go {s' : State} : undoOp info p op op.semOp id s = (s', none) → op.semOp ≠ 0 →
      CanDo info op (s.sem (base + op.semNum)).semval →
      Turn info p id base done op rest s (perform info p id base (op :: done) rest
        (change (base + op.semNum) op.semOp s'))

theorem perform_turn (info : Seminfo) (p : Nat) (id : Int) (base : Nat) (done : List Sembuf)
    (op : Sembuf) (rest : List Sembuf) (s : State) :
    Turn info p id base done op rest s (perform info p id base done (op :: rest) s) := by
  rw [perform]
  by_cases hpos : 0 < op.semOp
  · rw [if_pos hpos]
    split_ifs with hlimit
    · exact Turn.stop (by simp) fun c heq => (by cases heq)
    · have hcan : CanDo info op (s.sem (base + op.semNum)).semval := by
        rw [CanDo, if_pos hpos]
        exact not_lt.mp hlimit
      cases hundo : undoOp info p op op.semOp id s with
      | mk s' error =>
        cases error with
        | some e => exact Turn.fail hundo
        | none => exact Turn.go hundo (by omega) hcan
  rw [if_neg hpos]
  by_cases hneg : op.semOp < 0
  · rw [if_pos hneg]
    by_cases henough : -op.semOp ≤ ((s.sem (base + op.semNum)).semval : Int)
    · rw [if_pos henough]
      have hcan : CanDo info op (s.sem (base + op.semNum)).semval := by
        rw [CanDo, if_neg hpos, if_pos hneg]
        exact henough
      cases hundo : undoOp info p op op.semOp id s with
      | mk s' error =>
        cases error with
        | some e => exact Turn.fail hundo
        | none => exact Turn.go hundo (by omega) hcan
    · have hcannot : ¬ CanDo info op (s.sem (base + op.semNum)).semval := by
        rw [CanDo, if_neg hpos, if_pos hneg]
        exact henough
      rw [if_neg henough]
      split_ifs with hnowait
      · exact Turn.stop (by simp) fun c heq => (by cases heq)
      · refine Turn.stop (by simp) fun c heq => ⟨hcannot, Bool.eq_false_iff.mpr hnowait, ?_⟩
        exact .inl ⟨hneg, (Outcome.sleep.inj heq).symm⟩
  rw [if_neg hneg]
  have hzero : op.semOp = 0 := by omega
  by_cases hval : ((s.sem (base + op.semNum)).semval : Int) = 0
  · rw [if_neg (not_not.mpr hval)]
    refine Turn.zero hzero ?_
    rw [CanDo, if_neg hpos, if_neg hneg]
    exact hval
  have hcannot : ¬ CanDo info op (s.sem (base + op.semNum)).semval := by
    rw [CanDo, if_neg hpos, if_neg hneg]
    exact hval
  rw [if_pos hval]
  split_ifs with hnowait
  · exact Turn.stop (by simp) fun c heq => (by cases heq)
  · refine Turn.stop (by simp) fun c heq => ⟨hcannot, Bool.eq_false_iff.mpr hnowait, ?_⟩
    exact .inr ⟨hzero, (Outcome.sleep.inj heq).symm⟩

theorem apply_zero (hzero : op.semOp = 0) (hcan : CanDo info op (s.sem (base + op.semNum)).semval) :
    applyOp info p id base s.ledger op = some s.ledger := by
  have hcan' : CanDo info op (s.ledger.value (base + op.semNum)) := hcan
  rw [applyOp, if_pos hcan', hzero]
  simp

theorem undoOp_failed {e : Errno} (h : Sound info s) (heq : undoOp info p op val id s = (s', some e)) :
    Same s s' ∧ Sound info s' ∧ Owned s s' := by
  rcases undoOp_ok h p op val id with ⟨e', -, hsame, hsound, howned, -⟩ | ⟨hnone, -⟩
  · rw [heq] at hsame hsound howned
    exact ⟨hsame, hsound, howned⟩
  · rw [heq] at hnone
    cases hnone

theorem undoOp_done (h : Sound info s) (heq : undoOp info p op val id s = (s', none)) :
    Undone info p op val id s s' := by
  rcases undoOp_ok h p op val id with ⟨e, hsome, -⟩ | ⟨-, hundone⟩
  · rw [heq] at hsome
    cases hsome
  · rw [heq] at hundone
    exact hundone

theorem perform_ok (rest : List Sembuf) : ∀ {done : List Sembuf} {s : State}, Sound info s →
    RollsBack info p id base done s₀ s →
    Performed info p id base rest s₀ s (perform info p id base done rest s) := by
  induction rest with
  | nil => exact fun h _ => ⟨h, fun _ => rfl, fun hne => absurd rfl hne⟩
  | cons op rest ih =>
    intro done s h hback
    have hturn := perform_turn info p id base done op rest s
    generalize perform info p id base done (op :: rest) s = r at hturn ⊢
    cases hturn with
    | stop hne _ => exact performed_back hback Same.rfl h (fun _ hq => hq) hne
    | fail heq =>
      obtain ⟨hsame, hsound, howned⟩ := undoOp_failed h heq
      exact performed_back hback hsame hsound howned (by simp)
    | zero hzero hcan =>
      obtain ⟨hok, hall, hnothing⟩ := ih h (hback.zero hzero)
      refine ⟨hok, fun hret => ?_, hnothing⟩
      rw [foldlM_cons, apply_zero hzero hcan]
      exact hall hret
    | go heq hne hcan =>
      obtain ⟨hdid, hsound⟩ := did_change h hne hcan (undoOp_done h heq)
      obtain ⟨hok, hall, hnothing⟩ := ih hsound (hback.did h hdid)
      refine ⟨hok, fun hret => ?_, hnothing⟩
      rw [foldlM_cons, apply_did h hdid hcan]
      exact hall hret

/-! ### Calls -/

variable {i : Nat} {id' : Int}

section

variable (h : semconv info s id = some i)
include h

theorem semconv_index : id.toNat % info.semmni = i := by
  unfold semconv at h
  split at h
  · cases h
  · dsimp only at h
    split at h
    · cases h
    · exact Option.some.inj h

theorem semconv_alloc : (s.sema i).alloc = true := by
  have hi := semconv_index h
  unfold semconv at h
  split at h
  · cases h
  · dsimp only at h
    split at h
    · cases h
    · rename_i hok
      rw [hi] at hok
      cases halloc : (s.sema i).alloc with
      | true => rfl
      | false => exact absurd (.inl halloc) hok

theorem semconv_congr (hsame : s'.sema i = s.sema i) : semconv info s' id = some i := by
  have hi := semconv_index h
  unfold semconv at h ⊢
  rw [hi] at h ⊢
  rw [hsame]
  exact h

theorem semconv_inj (h' : semconv info s id' = some i) : id' = id := by
  have hi := semconv_index h
  have hi' := semconv_index h'
  unfold semconv at h h'
  split at h
  · cases h
  · split at h'
    · cases h'
    · dsimp only at h h'
      split at h
      · cases h
      · split at h'
        · cases h'
        · rename_i hid hid' hok hok'
          rw [hi] at hok
          rw [hi'] at hok'
          rw [not_or, not_not] at hok hok'
          have hdiv : id.toNat / info.semmni = id'.toNat / info.semmni := hok.2.trans hok'.2.symm
          have hnat : id.toNat = id'.toNat := by
            rw [← Nat.div_add_mod id.toNat info.semmni, ← Nat.div_add_mod id'.toNat info.semmni,
              hdiv, hi, hi']
          omega

end

/-- What an attempt at the operation array comes to. -/
structure Attempted (info : Seminfo) (p : Nat) (id : Int) (base : Nat) (sops : List Sembuf)
    (s : State) (r : State × Outcome) : Prop where
  sound : Sound info r.1
  all : r.2 = .ret none → sops.foldlM (applyOp info p id base) s.ledger = some r.1.ledger
  nothing : r.2 ≠ .ret none → Same s r.1

theorem attempt_ok (h : Sound info s) (p i : Nat) (call : Call) :
    Attempted info p call.semid (s.sema i).semBase call.sops s (attempt info p i call s) := by
  have hperformed : Performed info p call.semid (s.sema i).semBase call.sops s s
      (perform info p call.semid (s.sema i).semBase [] call.sops s) :=
    perform_ok call.sops h RollsBack.start
  obtain ⟨hsound, hall, hnothing⟩ := hperformed
  unfold attempt
  generalize perform info p call.semid (s.sema i).semBase [] call.sops s = r at hsound hall hnothing
  obtain ⟨s', outcome⟩ := r
  cases outcome with
  | ret error =>
    exact ⟨hsound.same (fun _ => rfl) rfl, hall, fun hne => (hnothing hne).trans
      ⟨fun _ => rfl, fun _ => rfl⟩⟩
  | sleep c =>
    refine ⟨hsound.same (fun _ => setCnt_semval _) (setCnt_undo _), fun hret => (by cases hret),
      fun _ => (hnothing (by simp)).trans ⟨fun _ => setCnt_semval _, fun q => ?_⟩⟩
    change (s'.setCnt c _).undo.entries q = s'.undo.entries q
    rw [setCnt_undo]

theorem Attempted.nothing_done (hsame : Same s s') (hsound : Sound info s')
    (sops : List Sembuf) {error : Errno} : Attempted info p id base sops s (s', .ret (some error)) :=
  ⟨hsound, fun heq => (by cases heq), fun _ => hsame⟩

theorem setProc_same {v : Proc} : Same s (s.setProc p v) := ⟨fun _ => rfl, fun _ => rfl⟩

theorem Sound.setProc (h : Sound info s) (p : Nat) (v : Proc) : Sound info (s.setProc p v) :=
  h.same (fun _ => rfl) rfl

def InRange (info : Seminfo) (s : State) (call : Call) : Prop :=
  ∀ i, semconv info s call.semid = some i → ∀ op ∈ call.sops, op.semNum < (s.sema i).semNsems

/-- The base of the set that `id` names; no use is made of it when there is none. -/
def baseOf (info : Seminfo) (s : State) (id : Int) : Nat :=
  ((semconv info s id).map fun i => (s.sema i).semBase).getD 0

theorem semop_ok (h : Sound info s) (p : Nat) (call : Call) :
    Attempted info p call.semid (baseOf info s call.semid) call.sops s (semop info p call s) := by
  unfold semop baseOf
  cases semconv info s call.semid with
  | none => exact Attempted.nothing_done Same.rfl h _
  | some i =>
    dsimp only
    split
    · exact Attempted.nothing_done Same.rfl h _
    · split
      · exact Attempted.nothing_done Same.rfl h _
      · split
        · exact Attempted.nothing_done Same.rfl h _
        · exact attempt_ok h p i call

theorem resume_ok (h : Sound info s) (p : Nat) (call : Call) (sops : Option (List Sembuf)) :
    Attempted info p call.semid (baseOf info s call.semid) (sops.getD call.sops) s
      (resume info p call sops s) := by
  unfold resume baseOf
  cases semconv info s call.semid with
  | none => exact Attempted.nothing_done setProc_same (h.setProc p _) _
  | some i =>
    cases sops with
    | none => exact Attempted.nothing_done setProc_same (h.setProc p _) _
    | some sops => exact attempt_ok h p i { call with sops := sops }

theorem wakeprocs_same : Same s (wakeprocs c s) := ⟨fun _ => rfl, fun _ => rfl⟩

theorem setCnt_same (v : Nat) : Same s (s.setCnt c v) :=
  ⟨fun _ => setCnt_semval v, fun q => by rw [setCnt_undo]⟩

theorem interrupt_ok (h : Sound info s) (p : Nat) (c : Chan) :
    Same s (interrupt p c s) ∧ Sound info (interrupt p c s) := by
  unfold interrupt
  split
  · exact ⟨((setCnt_same 0).trans wakeprocs_same).trans setProc_same,
      h.same (fun _ => setCnt_semval 0) (setCnt_undo 0)⟩
  · exact ⟨(setCnt_same _).trans setProc_same, h.same (fun _ => setCnt_semval _) (setCnt_undo _)⟩

/-! ### What keeps the state sound -/

theorem Sound.wakeWaiters (h : Sound info s) (c : Chan) : Sound info (wakeWaiters c s) :=
  h.same (fun _ => wakeWaiters_semval) wakeWaiters_undo

theorem Sound.setVal (h : Sound info s) (k : Nat) {v : Nat} (hv : (v : Int) ≤ info.semvmx) :
    Sound info (s.setVal k v) where
  value q := by
    rw [setVal_semval]
    split
    · exact hv
    · exact h.value q
  undo := h.undo

theorem Sound.clear (h : Sound info s) (k : Nat) : Sound info (clear k s) :=
  ((h.setVal k info.semvmxPos).wakeWaiters _).wakeWaiters _

theorem Sound.clearAll (n : Nat) (h : Sound info s) (k : Nat) : Sound info (clearAll n k s) := by
  induction n generalizing k s with
  | zero => exact h
  | succ n ih => exact ih (h.clear k) (k + 1)

section

variable (h : Sound info s)
include h

theorem Sound.assign (k : Nat) {v : Nat} (hv : (v : Int) ≤ info.semvmx) :
    Sound info (assign k v s) := by
  unfold Sem.assign
  split
  · exact (h.setVal k hv).wakeWaiters _
  · exact (h.setVal k hv).wakeWaiters _

theorem Sound.assignAll {vals : List Nat} (k : Nat)
    (hvals : ∀ v ∈ vals, (v : Int) ≤ info.semvmx) : Sound info (assignAll vals k s) := by
  induction vals generalizing k s with
  | nil => exact h
  | cons v vals ih =>
    exact ih (h.assign k (hvals v (.head _))) (k + 1) fun w hw => hvals w (.tail _ hw)

theorem Sound.semunrm (id : Int) (low high : Nat) :
    Sound info { s with undo := semunrm info id low high s.undo } where
  value := h.value
  undo := by
    obtain ⟨act, free, hok⟩ := h.undo
    obtain ⟨⟨act', hok'⟩, -⟩ := semunrm_ok hok id low high
    exact ⟨act', free, hok'⟩

theorem Sound.exitEntry (u : Undo) : Sound info (exitEntry info u s) := by
  unfold Sem.exitEntry
  cases semconv info s u.unId with
  | none => exact h
  | some i =>
    dsimp only
    split
    · exact h
    · rename_i hin
      have hvmx := info.semvmxLe
      have hset : (ushort (((s.sem ((s.sema i).semBase + u.unNum)).semval : Int) + u.unAoe) : Int) ≤
          info.semvmx := by
        rw [ushort_eq (by omega) (by omega)]
        omega
      split <;> split
      · exact ((h.setVal _ hset).wakeWaiters _).wakeWaiters _
      · exact (h.setVal _ hset).wakeWaiters _
      · exact (h.setVal _ hset).wakeWaiters _
      · exact h.setVal _ hset

end

theorem exitEntry_undo (u : Undo) : (exitEntry info u s).undo = s.undo := by
  unfold exitEntry
  cases semconv info s u.unId with
  | none => rfl
  | some i =>
    dsimp only
    split
    · rfl
    · split <;> split <;> simp [State.setVal]

theorem exitEntries_ok (h : Sound info s) (ents : List Undo) :
    Sound info (ents.foldr (exitEntry info) s) ∧ (ents.foldr (exitEntry info) s).undo = s.undo := by
  induction ents with
  | nil => exact ⟨h, rfl⟩
  | cons u ents ih => exact ⟨ih.1.exitEntry u, (exitEntry_undo u).trans ih.2⟩

theorem Sound.semexit (h : Sound info s) (p : Nat) : Sound info (semexit info p s) := by
  obtain ⟨act, free, hok⟩ := h.undo
  unfold Sem.semexit
  cases hp : s.undo.semUndo p with
  | none => exact h
  | some up =>
    dsimp only
    split
    · rename_i hzero
      exact ⟨h.value, act, up :: free, (cleanup_ok hok hp (length_eq_zero_iff.mp hzero)).1⟩
    · rename_i hsome
      obtain ⟨hsound, hundo⟩ := exitEntries_ok h (s.undo.semu up).unEnt
      refine ⟨hsound.value, ?_⟩
      rw [hundo]
      exact (release_ok hok hp fun hnil => hsome (by rw [hnil]; rfl)).1

theorem step_sound {event : Event} (h : Sound info s) (hstep : Step info s event s') : Sound info s' := by
  cases hstep with
  | semget _ _ _ _ _ _ => exact h.same (fun _ => rfl) rfl
  | rmid _ hrmid =>
    obtain ⟨semmap, -, heq⟩ := Option.map_eq_some_iff.mp hrmid
    rw [← heq]
    exact ((h.semunrm _ _ _).clearAll _ _).same (fun _ => rfl) rfl
  | setval _ =>
    unfold setval
    dsimp only
    split
    · exact h
    · split
      · exact h
      · rename_i hin
        exact (h.assign _ (not_lt.mp hin)).semunrm _ _ _
  | setall _ _ =>
    unfold setall
    split
    · exact h
    · rename_i hin
      refine (h.semunrm _ _ _).assignAll _ fun v hv => ?_
      exact not_lt.mp fun hlt => hin ⟨v, hv, hlt⟩
  | semop _ _ => exact (semop_ok h _ _).sound
  | signal _ => exact h.setProc _ _
  | resume _ _ => exact (resume_ok h _ _ _).sound
  | interrupt _ => exact (interrupt_ok h _ _).2
  | semexit _ _ => exact h.semexit _

/-! ### Runs -/

variable {semmap : Resmap.RMap} {event : Event} {events : List Event}

theorem boot_chain (info : Seminfo) (semmap : Resmap.RMap) (n : Nat) (hle : n ≤ info.semmnu) :
    Linked (boot info semmap).undo.next
      (if info.semmnu - n < info.semmnu then some (info.semmnu - n) else none)
      (range' (info.semmnu - n) n) := by
  induction n with
  | zero =>
    rw [if_neg (by omega)]
    rfl
  | succ n ih =>
    have hnext : info.semmnu - (n + 1) + 1 = info.semmnu - n := by omega
    rw [if_pos (by omega), range'_succ, hnext]
    refine ⟨rfl, ?_⟩
    have hlink : (boot info semmap).undo.next (info.semmnu - (n + 1)) =
        if info.semmnu - n < info.semmnu then some (info.semmnu - n) else none := by
      rw [← hnext]
      rfl
    rw [hlink]
    exact ih (by omega)

theorem boot_sound : Sound info (boot info semmap) where
  value _ := info.semvmxPos
  undo := by
    have hpos := info.semmnuPos
    refine ⟨[], range' 0 info.semmnu, rfl, ?_, fun up => ?_, fun up => ?_, fun up hup => ?_,
      fun p q up hp => ?_, fun p up hp => ?_, fun _ => EntsOk.nil⟩
    · have hchain := boot_chain info semmap info.semmnu (Nat.le_refl _)
      rw [Nat.sub_self, if_pos hpos] at hchain
      exact hchain
    · exact ⟨fun hmem => absurd hmem not_mem_nil, fun hne => absurd rfl hne⟩
    · rw [mem_range'_1]
      refine ⟨fun hin => ⟨by omega, fun p hp => ?_⟩, fun hin => ⟨Nat.zero_le _, by omega⟩⟩
      cases hp
    · exact absurd rfl hup
    · cases hp
    · cases hp

theorem run_sound (hrun : Exec (Step info) (boot info semmap) events s) : Sound info s :=
  hrun.keeps (Sound info) (fun _ _ _ h hstep => step_sound h hstep) boot_sound

/-- A stretch of a `semop`, from its start or the end of a sleep to its return or the next sleep:
either the whole array has been done, in order, or nothing has. -/
def AllOrNothing (info : Seminfo) (p : Nat) (call : Call) (r : Outcome) (s s' : State) : Prop :=
  (r = .ret none →
    call.sops.foldlM (applyOp info p call.semid (baseOf info s call.semid)) s.ledger =
      some s'.ledger) ∧
  (r ≠ .ret none → Same s s')

/-- In every run, every stretch of a `semop` is all or nothing, and a sleep that ends by a signal
changes neither values nor entries. -/
theorem semop_atomic (hrun : Exec (Step info) (boot info semmap) events s)
    (hstep : Step info s event s') : (∀ p call r, event = .semop p call r ∨ event = .resume p call r →
      AllOrNothing info p call r s s') ∧ ∀ p, event = .interrupt p → Same s s' := by
  have h := run_sound hrun
  refine ⟨fun p call r hevent => ?_, fun p hevent => ?_⟩
  · rcases hevent with heq | heq
    · rw [heq] at hstep
      cases hstep with
      | semop _ _ =>
        obtain ⟨-, hall, hnothing⟩ := semop_ok h p call
        exact ⟨hall, hnothing⟩
    · rw [heq] at hstep
      cases hstep with
      | resume _ _ =>
        rename_i call₀ c counted sops _ _
        obtain ⟨-, hall, hnothing⟩ := resume_ok h p call₀ sops
        exact ⟨hall, hnothing⟩
  · rw [hevent] at hstep
    cases hstep with
    | interrupt _ => exact (interrupt_ok h _ _).1

/-- A small system: one set of two semaphores can be made of its map. -/
def smallInfo : Seminfo where
  semmni := 2
  semmnu := 3
  semmsl := 4
  semopm := 5
  semume := 2
  semvmx := 32767
  semaem := 16384
  nproc := 4
  semmnuPos := by decide
  semvmxPos := by decide
  semvmxLe := by decide
  semaemLe := by decide
  nprocLt := by decide

def smallMap : Resmap.RMap := ⟨2, 0, [⟨2, 1⟩, ⟨0, 0⟩, ⟨0, 0⟩, ⟨0, 0⟩]⟩

/-- An increase of a new semaphore to 3 with SEM_UNDO and a decrease by 1, and an array whose second
operation has to wait. -/
theorem semop_atomic_small : ∃ s, Exec (Step smallInfo) (boot smallInfo smallMap) [.semget 0] s ∧
    (∃ s', AllOrNothing smallInfo 0 ⟨0, [⟨0, 3, true, false⟩, ⟨0, -1, false, false⟩]⟩ (.ret none) s s') ∧
    ∃ s', AllOrNothing smallInfo 0 ⟨0, [⟨0, 3, true, false⟩, ⟨1, -1, false, false⟩]⟩
      (.sleep (.ncnt 1)) s s' := by
  have hget : Step smallInfo (boot smallInfo smallMap) (.semget 0) _ :=
    @Step.semget smallInfo (boot smallInfo smallMap) 0 2 1 _ (by decide) rfl (by decide)
      (by decide) rfl (by decide)
  refine ⟨_, Exec.single hget, ⟨_, (semop_atomic (Exec.single hget)
    (@Step.semop smallInfo _ 0 ⟨0, [⟨0, 3, true, false⟩, ⟨0, -1, false, false⟩]⟩ (by decide) rfl)).1
      _ _ _ (.inl ?_)⟩, ⟨_, (semop_atomic (Exec.single hget)
    (@Step.semop smallInfo _ 0 ⟨0, [⟨0, 3, true, false⟩, ⟨1, -1, false, false⟩]⟩ (by decide) rfl)).1
      _ _ _ (.inl ?_)⟩⟩
  · rfl
  · rfl

end Svr42.Sem

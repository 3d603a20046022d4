import Mathlib.Data.List.TakeWhile
import Mathlib.Data.List.Perm.Subperm
import Svr42.SemModel

/-! The undo table in order: what `semaoe` and `semunrm` do to the entries of the processes, and that
the two chains hold the structures they should. -/

namespace Svr42.Sem
open Function List Option

variable {info : Seminfo} {t : UndoTab} {act free : List Nat} {p q up num low high : Nat}
  {val id : Int} {u v uup : Undo} {ents front rest back : List Undo}

def UndoTab.entries (t : UndoTab) (p : Nat) : List Undo :=
  match t.semUndo p with
  | none => []
  | some up => (t.semu up).unEnt

def Undo.lt (u v : Undo) : Prop := u.unId < v.unId ∨ (u.unId = v.unId ∧ u.unNum < v.unNum)

/-- Sorted, no semaphore twice, no entry for nothing or beyond the limit. -/
structure EntsOk (info : Seminfo) (ents : List Undo) : Prop where
  sorted : ents.Pairwise Undo.lt
  aoe : ∀ u ∈ ents, u.unAoe ≠ 0 ∧ u.unAoe ≤ info.semaem ∧ -info.semaem ≤ u.unAoe
  length : ents.length ≤ info.semume

/-- `act` is the undo chain and `free` the free one. -/
structure UndoTab.Ok (info : Seminfo) (t : UndoTab) (act free : List Nat) : Prop where
  active : Linked t.next t.semunp act
  freed : Linked t.next t.semfup free
  memActive : ∀ up, up ∈ act ↔ (t.semu up).unEnt ≠ []
  memFree : ∀ up, up ∈ free ↔ up < info.semmnu ∧ ∀ p, t.semUndo p ≠ some up
  owner : ∀ up, (t.semu up).unEnt ≠ [] → ∃ p, t.semUndo p = some up
  inj : ∀ p q up, t.semUndo p = some up → t.semUndo q = some up → p = q
  bound : ∀ p up, t.semUndo p = some up → up < info.semmnu
  ents : ∀ up, EntsOk info (t.semu up).unEnt

/-! ### Entries -/

theorem EntsOk.sub (h : EntsOk info ents) (hsub : rest.Sublist ents) : EntsOk info rest where
  sorted := h.sorted.sublist hsub
  aoe u hu := h.aoe u (hsub.subset hu)
  length := le_trans hsub.length_le h.length

theorem EntsOk.nil : EntsOk info [] := ⟨List.Pairwise.nil, by simp, Nat.zero_le _⟩

theorem precedes_iff : precedes id num u = true ↔ u.unId < id ∨ (u.unId = id ∧ u.unNum < num) := by
  simp [precedes]

theorem seek_ok (hfront : ∀ u ∈ front, precedes id num u = true)
    (hrest : ∀ u ∈ rest.head?, precedes id num u = false) :
    (front ++ rest).takeWhile (precedes id num) = front ∧
      (front ++ rest).dropWhile (precedes id num) = rest := by
  have htake : rest.takeWhile (precedes id num) = [] ∧ rest.dropWhile (precedes id num) = rest := by
    cases rest with
    | nil => exact ⟨rfl, rfl⟩
    | cons u back =>
      have hu := hrest u rfl
      exact ⟨by rw [takeWhile_cons, hu]; rfl, by rw [dropWhile_cons, hu]; rfl⟩
  constructor
  · rw [takeWhile_append_of_pos hfront, htake.1, append_nil]
  · rw [dropWhile_append_of_pos hfront, htake.2]

theorem seek_parts (ents : List Undo) (id : Int) (num : Nat) : ∃ front rest, ents = front ++ rest ∧
    ents.takeWhile (precedes id num) = front ∧ ents.dropWhile (precedes id num) = rest ∧
    (∀ u ∈ front, precedes id num u = true) ∧ ∀ u ∈ rest.head?, precedes id num u = false := by
  refine ⟨_, _, (takeWhile_append_dropWhile).symm, rfl, rfl,
    fun u hu => mem_takeWhile_imp hu, fun u hu => ?_⟩
  have hne : ents.dropWhile (precedes id num) ≠ [] := by
    intro hnil
    rw [hnil] at hu
    cases hu
  have hhead := head_dropWhile_not (precedes id num) hne
  rw [head?_eq_some_head hne] at hu
  rw [← some.inj hu]
  exact hhead

/-! ### The chains -/

theorem setEnt_next (e : List Undo) : (t.setEnt up e).next = t.next := by
  funext q
  by_cases hq : q = up
  · simp [UndoTab.next, UndoTab.setEnt, hq]
  · simp [UndoTab.next, UndoTab.setEnt, update_of_ne hq]

theorem setNp_next (np : Option Nat) : (t.setNp up np).next = update t.next up np := by
  funext q
  by_cases hq : q = up
  · simp [UndoTab.next, UndoTab.setNp, hq]
  · simp [UndoTab.next, UndoTab.setNp, update_of_ne hq]

theorem setNp_ent (np : Option Nat) (q : Nat) : ((t.setNp up np).semu q).unEnt = (t.semu q).unEnt := by
  by_cases hq : q = up
  · simp [UndoTab.setNp, hq]
  · simp [UndoTab.setNp, update_of_ne hq]

theorem setEnt_ent (e : List Undo) (q : Nat) :
    ((t.setEnt up e).semu q).unEnt = if q = up then e else (t.semu q).unEnt := by
  by_cases hq : q = up
  · simp [UndoTab.setEnt, hq]
  · simp [UndoTab.setEnt, hq]

theorem UndoTab.Ok.apart (h : t.Ok info act free) (hup : up ∈ act) : up ∉ free := by
  intro hfree
  obtain ⟨p, hp⟩ := h.owner up ((h.memActive up).mp hup)
  exact ((h.memFree up).mp hfree).2 p hp

theorem UndoTab.Ok.length_act (h : t.Ok info act free) : act.length ≤ info.semmnu := by
  have hsub : act ⊆ range info.semmnu := by
    intro up hup
    obtain ⟨p, hp⟩ := h.owner up ((h.memActive up).mp hup)
    exact mem_range.mpr (h.bound p up hp)
  have hperm := h.active.nodup.subperm hsub
  simpa using hperm.length_le

/-- `delist` takes the structure from the undo chain and touches no other. -/
theorem delist_ok (hchain : Linked t.next t.semunp act) (hlen : act.length ≤ info.semmnu)
    (hup : up ∈ act) : Linked (delist info up t).next (delist info up t).semunp (act.erase up) ∧
      (delist info up t).semfup = t.semfup ∧ (delist info up t).semUndo = t.semUndo ∧
      (∀ q, ((delist info up t).semu q).unEnt = (t.semu q).unEnt) ∧
      ∀ q, q ∉ act → (delist info up t).next q = t.next q := by
  obtain ⟨front, back, hact⟩ := append_of_mem hup
  rw [hact] at hchain hlen ⊢
  have hnodup := hchain.nodup
  have hout : up ∉ front := fun hmem =>
    (nodup_append.mp hnodup).2.2 up hmem up (.head _) rfl
  rw [erase_append_right _ hout, erase_cons_head]
  unfold delist
  cases hfront : front.getLast? with
  | none =>
    have hnil : front = [] := getLast?_eq_none_iff.mp hfront
    rw [hnil] at hchain ⊢
    rw [if_pos hchain.1]
    exact ⟨hchain.2, rfl, rfl, fun _ => rfl, fun _ _ => rfl⟩
  | some q =>
    obtain ⟨front', hfront'⟩ := getLast?_eq_some_iff.mp hfront
    rw [hfront', append_assoc, singleton_append] at hchain hlen hnodup ⊢
    have hhead : t.semunp ≠ some up := by
      intro hhead
      rw [hfront'] at hout
      cases front' with
      | nil => exact hout (by simpa using (some.inj (hhead.symm.trans hchain.1)))
      | cons x front' => exact hout (by simp [some.inj (hhead.symm.trans hchain.1)])
    have hprev : findPrev t.next up info.semmnu t.semunp = some q :=
      findPrev_ok hchain (by simp only [length_append, length_cons] at hlen; omega)
    rw [if_neg hhead, hprev]
    change Linked (t.setNp q (t.next up)).next t.semunp _ ∧ _
    rw [setNp_next]
    refine ⟨hchain.unlink, rfl, rfl, fun r => setNp_ent _ r, fun r hr => ?_⟩
    rw [setNp_next]
    exact update_of_ne (fun heq => hr (by simp [heq])) _ _

/-! ### Storing the entries of a process -/

variable {t' : UndoTab}

/-- The table `t'` is in order, with `ents` for process `p` and the entries of `t` for the others. -/
structure Stored (info : Seminfo) (t : UndoTab) (p : Nat) (ents : List Undo) (t' : UndoTab) :
    Prop where
  ok : ∃ act free, t'.Ok info act free
  here : t'.entries p = ents
  other : ∀ q, q ≠ p → t'.entries q = t.entries q
  owned : ∀ q, t.semUndo q ≠ none → t'.semUndo q ≠ none

theorem entries_eq (hp : t.semUndo p = some up) : t.entries p = (t.semu up).unEnt := by
  rw [UndoTab.entries, hp]

theorem UndoTab.Ok.stored (h : t.Ok info act free) (act' : List Nat) (hp : t.semUndo p = some up)
    (hundo : t'.semUndo = t.semUndo)
    (hent : ∀ q, (t'.semu q).unEnt = if q = up then ents else (t.semu q).unEnt)
    (hents : EntsOk info ents) (hact : Linked t'.next t'.semunp act')
    (hmem : ∀ q, q ∈ act' ↔ if q = up then ents ≠ [] else q ∈ act)
    (hfree : Linked t'.next t'.semfup free) : Stored info t p ents t' where
  ok := by
    refine ⟨act', free, hact, hfree, fun q => ?_, fun q => ?_, fun q hq => ?_, ?_, ?_, fun q => ?_⟩
    · rw [hmem, hent]
      by_cases hq : q = up
      · rw [if_pos hq, if_pos hq]
      · rw [if_neg hq, if_neg hq, h.memActive]
    · rw [hundo]
      exact h.memFree q
    · rw [hent] at hq
      rw [hundo]
      by_cases hq' : q = up
      · exact ⟨p, hq' ▸ hp⟩
      · rw [if_neg hq'] at hq
        exact h.owner q hq
    · rw [hundo]
      exact h.inj
    · rw [hundo]
      exact h.bound
    · rw [hent]
      by_cases hq : q = up
      · rw [if_pos hq]
        exact hents
      · rw [if_neg hq]
        exact h.ents q
  here := by
    rw [entries_eq (by rw [hundo]; exact hp), hent, if_pos rfl]
  other q hq := by
    cases hsome : t.semUndo q with
    | none => rw [UndoTab.entries, UndoTab.entries, hundo, hsome]
    | some up' =>
      have hne : up' ≠ up := fun heq => hq (h.inj q p up (heq ▸ hsome) hp)
      rw [entries_eq (by rw [hundo]; exact hsome), entries_eq hsome, hent, if_neg hne]
  owned q hq := by
    rw [hundo]
    exact hq

section

variable (h : t.Ok info act free) (hp : t.semUndo p = some up)
include h hp

theorem store_more (hents : EntsOk info ents) (hold : (t.semu up).unEnt ≠ []) (hnew : ents ≠ []) :
    Stored info t p ents (t.setEnt up ents) := by
  refine h.stored act hp rfl (setEnt_ent ents) hents ?_ (fun q => ?_) ?_
  · rw [setEnt_next]
    exact h.active
  · by_cases hq : q = up
    · rw [if_pos hq, hq, h.memActive]
      exact ⟨fun _ => hnew, fun _ => hold⟩
    · rw [if_neg hq]
  · rw [setEnt_next]
    exact h.freed

theorem store_first (hents : EntsOk info ents) (hold : (t.semu up).unEnt = []) (hnew : ents ≠ []) :
    Stored info t p ents ((enlist up t).setEnt up ents) := by
  have hout : up ∉ act := fun hmem => (h.memActive up).mp hmem hold
  have hfree : up ∉ free := fun hmem => ((h.memFree up).mp hmem).2 p hp
  have hnext : ((enlist up t).setEnt up ents).next = update t.next up t.semunp := by
    rw [setEnt_next]
    exact setNp_next t.semunp
  have hent : ∀ q, (((enlist up t).setEnt up ents).semu q).unEnt =
      if q = up then ents else (t.semu q).unEnt := by
    intro q
    rw [setEnt_ent]
    exact if_congr .rfl rfl (setNp_ent t.semunp q)
  refine h.stored (up :: act) hp rfl hent hents ?_ (fun q => ?_) ?_
  · rw [hnext]
    exact h.active.push hout
  · split_ifs with hq
    · rw [hq]
      exact ⟨fun _ => hnew, fun _ => (.head _)⟩
    · rw [mem_cons, or_iff_right hq]
  · rw [hnext]
    exact h.freed.update_of_notMem hfree _

theorem store_last (hold : (t.semu up).unEnt ≠ []) (np : Option Nat) :
    Stored info t p [] ((delist info up (t.setEnt up [])).setNp up np) := by
  have hin : up ∈ act := (h.memActive up).mpr hold
  have hchain : Linked (t.setEnt up []).next (t.setEnt up []).semunp act := by
    rw [setEnt_next]
    exact h.active
  obtain ⟨hact, hfup, hundo, hent, hframe⟩ := delist_ok hchain h.length_act hin
  have hfree : up ∉ free := h.apart hin
  have hent' : ∀ q, (((delist info up (t.setEnt up [])).setNp up np).semu q).unEnt =
      if q = up then [] else (t.semu q).unEnt := by
    intro q
    rw [setNp_ent, hent, setEnt_ent]
  refine h.stored (act.erase up) hp hundo hent' EntsOk.nil ?_ (fun q => ?_) ?_
  · rw [setNp_next]
    exact hact.update_of_notMem (h.active.nodup.not_mem_erase) _
  · split_ifs with hq
    · rw [hq]
      exact ⟨fun hmem => absurd hmem h.active.nodup.not_mem_erase, fun hne => absurd rfl hne⟩
    · rw [mem_erase_of_ne hq]
  · rw [setNp_next]
    change Linked _ (delist info up (t.setEnt up [])).semfup free
    rw [hfup]
    refine (h.freed.congr fun q hq => ?_).update_of_notMem hfree _
    rw [hframe q fun hmem => h.apart hmem hq, setEnt_next]

end

/-- A process gets an undo structure, or has one. -/
theorem claim_ok (h : t.Ok info act free) (hclaim : claim p t = some (t', up)) :
    Stored info t p (t.entries p) t' ∧ t'.semUndo p = some up := by
  unfold claim at hclaim
  cases hp : t.semUndo p with
  | some up' =>
    rw [hp] at hclaim
    cases hclaim
    exact ⟨⟨⟨act, free, h⟩, rfl, fun _ _ => rfl, fun _ hq => hq⟩, hp⟩
  | none =>
    rw [hp] at hclaim
    obtain ⟨up', hfup, heq⟩ := map_eq_some_iff.mp hclaim
    rw [Prod.mk.injEq] at heq
    obtain ⟨ht', hup⟩ := heq
    rw [hup] at hfup ht'
    have hfreed := h.freed
    cases hfree : free with
    | nil =>
      rw [hfree] at hfreed
      cases hfreed.symm.trans hfup
    | cons x free' =>
      rw [hfree] at hfreed
      have hx : x = up := some.inj (hfreed.1.symm.trans hfup)
      rw [hx] at hfreed hfree
      have hin : up ∈ free := hfree ▸ (.head _)
      have hunowned := (h.memFree up).mp hin
      have hempty : (t.semu up).unEnt = [] := by
        by_contra hne
        obtain ⟨q, hq⟩ := h.owner up hne
        exact hunowned.2 q hq
      have hout : up ∉ act := fun hmem => (h.memActive up).mp hmem hempty
      have hnext : t'.next = update t.next up none := by
        rw [← ht']
        exact setNp_next none
      have hent : ∀ q, (t'.semu q).unEnt = (t.semu q).unEnt := by
        intro q
        rw [← ht']
        exact setNp_ent none q
      have hundo : t'.semUndo = update t.semUndo p (some up) := by rw [← ht']
      have hunp : t'.semunp = t.semunp := by
        rw [← ht']
        rfl
      have hfup' : t'.semfup = t.next up := by
        rw [← ht']
        rfl
      have hother : ∀ q, q ≠ p → t'.semUndo q = t.semUndo q := fun q hq => by
        rw [hundo, update_of_ne hq]
      have hself : t'.semUndo p = some up := by rw [hundo, update_self]
      have hnodup : up ∉ free' := by
        have hnodup := h.freed.nodup
        rw [hfree] at hnodup
        exact (nodup_cons.mp hnodup).1
      refine ⟨⟨⟨act, free', ?_, ?_, fun q => ?_, fun q => ?_, fun q hq => ?_, fun q r x hq hr => ?_,
        fun q x hq => ?_, fun q => ?_⟩, ?_, fun q hq => ?_, fun q hq => ?_⟩, hself⟩
      · rw [hnext, hunp]
        exact h.active.update_of_notMem hout _
      · rw [hnext, hfup']
        exact hfreed.2.update_of_notMem hnodup _
      · rw [hent]
        exact h.memActive q
      · have hold := h.memFree q
        rw [hfree, mem_cons] at hold
        constructor
        · intro hmem
          obtain ⟨hlt, hnone⟩ := hold.mp (.inr hmem)
          refine ⟨hlt, fun r hr => ?_⟩
          by_cases hrp : r = p
          · rw [hrp, hself] at hr
            exact hnodup (some.inj hr ▸ hmem)
          · rw [hother r hrp] at hr
            exact hnone r hr
        · intro ⟨hlt, hnone⟩
          have hne : q ≠ up := fun heq => hnone p (heq ▸ hself)
          refine (hold.mpr ⟨hlt, fun r hr => ?_⟩).resolve_left hne
          by_cases hrp : r = p
          · rw [hrp, hp] at hr
            cases hr
          · exact hnone r (by rw [hother r hrp]; exact hr)
      · rw [hent] at hq
        obtain ⟨r, hr⟩ := h.owner q hq
        have hrp : r ≠ p := fun heq => by
          rw [heq, hp] at hr
          cases hr
        exact ⟨r, by rw [hother r hrp]; exact hr⟩
      · by_cases hqp : q = p
        · by_cases hrp : r = p
          · rw [hqp, hrp]
          · rw [hqp, hself] at hq
            rw [hother r hrp, ← some.inj hq] at hr
            exact absurd hr (hunowned.2 r)
        · rw [hother q hqp] at hq
          by_cases hrp : r = p
          · rw [hrp, hself] at hr
            rw [← some.inj hr] at hq
            exact absurd hq (hunowned.2 q)
          · rw [hother r hrp] at hr
            exact h.inj q r x hq hr
      · by_cases hqp : q = p
        · rw [hqp, hself] at hq
          rw [← some.inj hq]
          exact hunowned.1
        · rw [hother q hqp] at hq
          exact h.bound q x hq
      · rw [hent]
        exact h.ents q
      · rw [entries_eq hself, hent, hempty, UndoTab.entries, hp]
      · unfold UndoTab.entries
        rw [hother q hq]
        cases t.semUndo q with
        | none => rfl
        | some x => exact hent x
      · by_cases hqp : q = p
        · rw [hqp, hself]
          exact some_ne_none up
        · rw [hother q hqp]
          exact hq

/-! ### `semaoe` -/

theorem short_eq {v : Int} (hlow : -32768 ≤ v) (hhigh : v < 32768) : short v = v :=
  Int.bmod_eq_of_le (by omega) (by omega)

theorem short_back {v w : Int} (hlow : -32768 ≤ v) (hhigh : v < 32768) :
    short (short (v - w) + w) = v := by
  unfold short
  rw [Int.bmod_add_bmod, Int.sub_add_cancel]
  exact short_eq hlow hhigh

/-- What `semaoe` makes of the entries of a process. -/
def adjusted (info : Seminfo) (val id : Int) (num : Nat) (ents : List Undo) : Except Errno (List Undo) :=
  let front := ents.takeWhile (precedes id num)
  let insert (rest : List Undo) : Except Errno (List Undo) :=
    if info.semume ≤ ents.length then .error .einval
    else .ok (front ++ ⟨short (-val), num, id⟩ :: rest)
  match ents.dropWhile (precedes id num) with
  | [] => insert []
  | uup :: back =>
      if uup.unId = id ∧ uup.unNum = num then
        let aoe := short (uup.unAoe - val)
        if info.semaem < aoe ∨ aoe < -info.semaem then .error .erange
        else if aoe = 0 then .ok (front ++ back)
        else .ok (front ++ { uup with unAoe := aoe } :: back)
      else insert (uup :: back)

theorem EntsOk.insert (h : EntsOk info (front ++ rest)) (id : Int) (num : Nat)
    (hu : u.unId = id ∧ u.unNum = num)
    (haoe : u.unAoe ≠ 0 ∧ u.unAoe ≤ info.semaem ∧ -info.semaem ≤ u.unAoe)
    (hfront : ∀ v ∈ front, precedes id num v = true) (hrest : ∀ v ∈ rest, u.lt v)
    (hlength : (front ++ rest).length < info.semume) : EntsOk info (front ++ u :: rest) where
  sorted := by
    have hsorted := pairwise_append.mp h.sorted
    refine pairwise_append.mpr ⟨hsorted.1, pairwise_cons.mpr ⟨hrest, hsorted.2.1⟩, fun v hv w hw => ?_⟩
    rcases mem_cons.mp hw with heq | hmem
    · rw [heq]
      unfold Undo.lt
      rw [hu.1, hu.2]
      exact precedes_iff.mp (hfront v hv)
    · exact hsorted.2.2 v hv w hmem
  aoe v hv := by
    rcases mem_append.mp hv with hin | hin
    · exact h.aoe v (mem_append_left _ hin)
    rcases mem_cons.mp hin with heq | hmem
    · rw [heq]
      exact haoe
    · exact h.aoe v (mem_append_right _ hmem)
  length := by
    simp only [length_append, length_cons] at hlength ⊢
    omega

theorem Undo.lt.trans {w : Undo} (h : u.lt v) (h' : v.lt w) : u.lt w := by
  unfold Undo.lt at *
  omega

theorem after_stop (h : (uup :: back).Pairwise Undo.lt) {uup' : Undo}
    (hstop : precedes id num uup = false) (hne : ¬ (uup.unId = id ∧ uup.unNum = num))
    (hu : uup'.unId = id ∧ uup'.unNum = num) : ∀ v ∈ uup :: back, uup'.lt v := by
  have hfirst : uup'.lt uup := by
    have hnot : ¬ (uup.unId < id ∨ (uup.unId = id ∧ uup.unNum < num)) := by
      rw [← precedes_iff, hstop]
      exact Bool.false_ne_true
    unfold Undo.lt
    omega
  intro v hv
  rcases mem_cons.mp hv with heq | hmem
  · rw [heq]
    exact hfirst
  · exact hfirst.trans ((pairwise_cons.mp h).1 v hmem)

/-- Where the semaphore's entry is, or would be. -/
inductive Place (id : Int) (num : Nat) : List Undo → Prop
  | found {front back : List Undo} {uup : Undo} : (∀ v ∈ front, precedes id num v = true) →
      uup.unId = id ∧ uup.unNum = num → Place id num (front ++ uup :: back)
  | absent {front rest : List Undo} : (∀ v ∈ front, precedes id num v = true) →
      (∀ v ∈ rest, precedes id num v = false ∧ ¬ (v.unId = id ∧ v.unNum = num)) →
      Place id num (front ++ rest)

theorem key_lt (hu : u.unId = id ∧ u.unNum = num) :
    u.lt v ↔ precedes id num v = false ∧ ¬ (v.unId = id ∧ v.unNum = num) := by
  rw [← Bool.not_eq_true, precedes_iff, Undo.lt]
  omega

theorem EntsOk.place (h : EntsOk info ents) (id : Int) (num : Nat) : Place id num ents := by
  obtain ⟨front, rest, hents, -, -, hfront, hrest⟩ := seek_parts ents id num
  rw [hents] at h ⊢
  have hsorted := (pairwise_append.mp h.sorted).2.1
  cases rest with
  | nil => exact Place.absent hfront (by simp)
  | cons uup back =>
    by_cases hmatch : uup.unId = id ∧ uup.unNum = num
    · exact Place.found hfront hmatch
    · refine Place.absent hfront fun v hv => ?_
      have hkey : (⟨0, num, id⟩ : Undo).unId = id ∧ (⟨0, num, id⟩ : Undo).unNum = num := ⟨rfl, rfl⟩
      exact (key_lt hkey).mp (after_stop hsorted (hrest uup rfl) hmatch hkey v hv)

theorem seek_found (back : List Undo) (hfront : ∀ v ∈ front, precedes id num v = true)
    (hu : uup.unId = id ∧ uup.unNum = num) : (front ++ uup :: back).takeWhile (precedes id num) = front ∧
      (front ++ uup :: back).dropWhile (precedes id num) = uup :: back := by
  refine seek_ok hfront fun v hv => ?_
  cases hv
  rw [← Bool.not_eq_true, precedes_iff, hu.1, hu.2]
  omega

section

variable (hfront : ∀ v ∈ front, precedes id num v = true)
include hfront

theorem seek_absent (hrest : ∀ v ∈ rest, precedes id num v = false ∧ ¬ (v.unId = id ∧ v.unNum = num)) :
    (front ++ rest).takeWhile (precedes id num) = front ∧
      (front ++ rest).dropWhile (precedes id num) = rest :=
  seek_ok hfront fun v hv => (hrest v (mem_of_mem_head? hv)).1

theorem adjusted_found (hu : uup.unId = id ∧ uup.unNum = num) :
    adjusted info val id num (front ++ uup :: back) =
      if info.semaem < short (uup.unAoe - val) ∨ short (uup.unAoe - val) < -info.semaem then
        .error .erange
      else if short (uup.unAoe - val) = 0 then .ok (front ++ back)
      else .ok (front ++ { uup with unAoe := short (uup.unAoe - val) } :: back) := by
  unfold adjusted
  rw [(seek_found back hfront hu).1, (seek_found back hfront hu).2]
  simp only [if_pos hu]

theorem adjusted_absent
    (hrest : ∀ v ∈ rest, precedes id num v = false ∧ ¬ (v.unId = id ∧ v.unNum = num)) :
    adjusted info val id num (front ++ rest) =
      if info.semume ≤ (front ++ rest).length then .error .einval
      else .ok (front ++ ⟨short (-val), num, id⟩ :: rest) := by
  unfold adjusted
  rw [(seek_absent hfront hrest).1, (seek_absent hfront hrest).2]
  cases rest with
  | nil => rfl
  | cons v back => simp only [if_neg (hrest v (.head _)).2]

end

theorem val_short (info : Seminfo) (hlimit : val ≤ info.semaem ∧ -info.semaem ≤ val) :
    short (-val) = -val := by
  have haem := info.semaemLe
  exact short_eq (by omega) (by omega)

variable {ents' : List Undo}

section

variable (h : EntsOk info ents) (hval : val ≠ 0) (hlimit : val ≤ info.semaem ∧ -info.semaem ≤ val)
  (heq : adjusted info val id num ents = .ok ents')
include h hval hlimit heq

/-- The entries `semaoe` makes are in order. -/
theorem adjusted_ok : EntsOk info ents' := by
  cases h.place id num with
  | @found front back uup hfront hu =>
    rw [adjusted_found hfront hu] at heq
    have hsub : (front ++ back).Sublist (front ++ uup :: back) :=
      (sublist_cons_self _ _).append_left front
    have hlength := h.length
    split at heq
    · cases heq
    · rename_i hin
      split at heq
      · cases heq
        exact h.sub hsub
      · rename_i hne
        cases heq
        have hsorted := (pairwise_append.mp h.sorted).2.1
        refine (h.sub hsub).insert id num hu ⟨hne, ?_, ?_⟩ hfront ?_ ?_
        · exact not_lt.mp fun hlt => hin (.inl hlt)
        · exact not_lt.mp fun hlt => hin (.inr hlt)
        · exact (pairwise_cons.mp hsorted).1
        · simp only [length_append, length_cons] at hlength ⊢
          omega
  | @absent front rest hfront hrest =>
    rw [adjusted_absent hfront hrest] at heq
    split at heq
    · cases heq
    · rename_i hroom
      cases heq
      rw [val_short info hlimit]
      have haoe : -val ≠ 0 ∧ -val ≤ info.semaem ∧ -info.semaem ≤ -val := ⟨by omega, by omega, by omega⟩
      exact h.insert id num ⟨rfl, rfl⟩ haoe hfront
        (fun v hv => (key_lt ⟨rfl, rfl⟩).mpr (hrest v hv)) (not_le.mp hroom)

omit hval in
/-- An adjustment taken back. -/
theorem adjusted_back : adjusted info (-val) id num ents' = .ok ents := by
  have haem := info.semaemLe
  cases h.place id num with
  | @found front back uup hfront hu =>
    have haoe := h.aoe uup (by simp)
    have hlength := h.length
    rw [adjusted_found hfront hu] at heq
    split at heq
    · cases heq
    · split at heq
      · -- the entry was deleted and comes back
        rename_i hzero
        cases heq
        have hsorted := (pairwise_append.mp h.sorted).2.1
        have hafter : ∀ v ∈ back, precedes id num v = false ∧
            ¬ (v.unId = id ∧ v.unNum = num) := fun v hv =>
          (key_lt hu).mp ((pairwise_cons.mp hsorted).1 v hv)
        have hsame : uup.unAoe = val := by
          have hback := short_back (v := uup.unAoe) (w := val) (by omega) (by omega)
          rw [hzero, Int.zero_add, short_eq (by omega) (by omega)] at hback
          exact hback.symm
        rw [adjusted_absent hfront hafter, if_neg]
        · rw [Int.neg_neg, short_eq (by omega) (by omega), ← hsame, ← hu.1, ← hu.2]
        · simp only [length_append, length_cons] at hlength ⊢
          omega
      · cases heq
        have hu' : ({ uup with unAoe := short (uup.unAoe - val) } : Undo).unId = id ∧
          ({ uup with unAoe := short (uup.unAoe - val) } : Undo).unNum = num := hu
        rw [adjusted_found hfront hu']
        simp only [Int.sub_neg]
        rw [short_back (by omega) (by omega), if_neg (by omega), if_neg haoe.1]
  | @absent front rest hfront hrest =>
    rw [adjusted_absent hfront hrest] at heq
    split at heq
    · cases heq
    · cases heq
      rw [adjusted_found hfront ⟨rfl, rfl⟩, val_short info hlimit]
      have hzero : short (-val - -val) = 0 := by
        rw [Int.sub_self]
        rfl
      have hpos : ¬ (info.semaem < 0 ∨ 0 < -info.semaem) := by omega
      simp only [hzero]
      rw [if_neg hpos]
      rfl

end

theorem Stored.trans {t₁ t₂ : UndoTab} {ents₁ ents₂ : List Undo} (h : Stored info t p ents₁ t₁)
    (h' : Stored info t₁ p ents₂ t₂) : Stored info t p ents₂ t₂ where
  ok := h'.ok
  here := h'.here
  other q hq := (h'.other q hq).trans (h.other q hq)
  owned q hq := h'.owned q (h.owned q hq)

theorem store_same (h : t.Ok info act free) (hp : t.semUndo p = some up)
    (hents : ents = (t.semu up).unEnt) : Stored info t p ents (t.setEnt up ents) := by
  refine h.stored act hp rfl (fun q => ?_) (hents ▸ h.ents up) ?_ (fun q => ?_) ?_
  · exact setEnt_ent ents q
  · rw [setEnt_next]
    exact h.active
  · by_cases hq : q = up
    · rw [if_pos hq, hq, h.memActive, hents]
    · rw [if_neg hq]
  · rw [setEnt_next]
    exact h.freed

theorem insertEntry_ok (h : t.Ok info act free) (hp : t.semUndo p = some up)
    (hsplit : (t.semu up).unEnt = front ++ rest) (hok : ¬ info.semume ≤ (front ++ rest).length →
      EntsOk info (front ++ ⟨short (-val), num, id⟩ :: rest)) :
    if info.semume ≤ (front ++ rest).length then
      insertEntry info up front rest val id num t = (t, some .einval)
    else (insertEntry info up front rest val id num t).2 = none ∧
      Stored info t p (front ++ ⟨short (-val), num, id⟩ :: rest)
        (insertEntry info up front rest val id num t).1 := by
  unfold insertEntry
  rw [hsplit]
  by_cases hroom : info.semume ≤ (front ++ rest).length
  · simp only [if_pos hroom]
  simp only [if_neg hroom]
  refine ⟨trivial, ?_⟩
  by_cases hzero : (front ++ rest).length = 0
  · simp only [if_pos hzero]
    have hnil : (t.semu up).unEnt = [] := by
      rw [hsplit]
      exact length_eq_zero_iff.mp hzero
    exact store_first h hp (hok hroom) hnil (by simp)
  · simp only [if_neg hzero]
    have hne : (t.semu up).unEnt ≠ [] := by
      rw [hsplit]
      exact fun hnil => hzero (length_eq_zero_iff.mpr hnil)
    exact store_more h hp (hok hroom) hne (by simp)

theorem updateEntry_ok (val : Int) (h : t.Ok info act free) (hp : t.semUndo p = some up)
    (hsplit : (t.semu up).unEnt = front ++ uup :: back)
    (hok : ∀ ents, (if short (uup.unAoe - val) = 0 then front ++ back
      else front ++ { uup with unAoe := short (uup.unAoe - val) } :: back) = ents →
      ¬ (info.semaem < short (uup.unAoe - val) ∨ short (uup.unAoe - val) < -info.semaem) →
      EntsOk info ents) :
    if info.semaem < short (uup.unAoe - val) ∨ short (uup.unAoe - val) < -info.semaem then
      (updateEntry info up front uup back val t).2 = some .erange ∧
        Stored info t p (t.entries p) (updateEntry info up front uup back val t).1
    else (updateEntry info up front uup back val t).2 = none ∧
      Stored info t p (if short (uup.unAoe - val) = 0 then front ++ back
        else front ++ { uup with unAoe := short (uup.unAoe - val) } :: back)
        (updateEntry info up front uup back val t).1 := by
  have haem := info.semaemLe
  have haoe := (h.ents up).aoe uup (by rw [hsplit]; simp)
  unfold updateEntry
  by_cases hin : info.semaem < short (uup.unAoe - val) ∨ short (uup.unAoe - val) < -info.semaem
  · simp only [if_pos hin]
    refine ⟨trivial, ?_⟩
    have hsame : front ++ { uup with unAoe := short (short (uup.unAoe - val) + val) } :: back =
        (t.semu up).unEnt := by
      rw [hsplit, short_back (by omega) (by omega)]
    rw [entries_eq hp, ← hsame]
    exact store_same h hp hsame
  simp only [if_neg hin]
  by_cases hzero : short (uup.unAoe - val) = 0
  · simp only [if_pos hzero]
    have hne : (t.semu up).unEnt ≠ [] := by
      rw [hsplit]
      simp
    split_ifs with hlast
    · refine ⟨rfl, ?_⟩
      have hnil := length_eq_zero_iff.mp hlast
      rw [hnil]
      exact store_last h hp hne none
    · refine ⟨rfl, ?_⟩
      have hok' := hok _ (if_pos hzero) hin
      exact store_more h hp hok' hne fun hnil => hlast (length_eq_zero_iff.mpr hnil)
  · simp only [if_neg hzero]
    refine ⟨trivial, ?_⟩
    have hok' := hok _ (if_neg hzero) hin
    exact store_more h hp hok' (by rw [hsplit]; simp) (by simp)

theorem seekEntry_absent (hsplit : (t.semu up).unEnt = front ++ rest)
    (hfront : ∀ v ∈ front, precedes id num v = true)
    (hrest : ∀ v ∈ rest, precedes id num v = false ∧ ¬ (v.unId = id ∧ v.unNum = num)) :
    seekEntry info up val id num t = insertEntry info up front rest val id num t := by
  have hseek := seek_absent hfront hrest
  simp only [seekEntry, hsplit, hseek.1, hseek.2]
  cases rest with
  | nil => rfl
  | cons v back => simp only [if_neg (hrest v (.head _)).2]

theorem seekEntry_found (hsplit : (t.semu up).unEnt = front ++ uup :: back)
    (hfront : ∀ v ∈ front, precedes id num v = true) (hu : uup.unId = id ∧ uup.unNum = num) :
    seekEntry info up val id num t = updateEntry info up front uup back val t := by
  have hseek := seek_found back hfront hu
  simp only [seekEntry, hsplit, hseek.1, hseek.2]
  rw [if_pos hu]

theorem seekEntry_ok (id : Int) (num : Nat) (h : t.Ok info act free) (hp : t.semUndo p = some up)
    (hval : val ≠ 0) (hin : val ≤ info.semaem ∧ -info.semaem ≤ val) :
    (∃ e, (seekEntry info up val id num t).2 = some e ∧
      adjusted info val id num (t.entries p) = .error e ∧
      Stored info t p (t.entries p) (seekEntry info up val id num t).1) ∨
    ∃ ents, (seekEntry info up val id num t).2 = none ∧
      adjusted info val id num (t.entries p) = .ok ents ∧
      Stored info t p ents (seekEntry info up val id num t).1 := by
  have hself : Stored info t p (t.entries p) t := ⟨⟨act, free, h⟩, rfl, fun _ _ => rfl, fun _ hq => hq⟩
  have hok := h.ents up
  have hplace := hok.place id num
  rw [entries_eq hp] at hself ⊢
  generalize hsplit : (t.semu up).unEnt = ents at hplace hok hself ⊢
  cases hplace with
  | @absent front rest hfront hrest =>
    rw [seekEntry_absent hsplit hfront hrest, adjusted_absent hfront hrest]
    have hinsert := insertEntry_ok h hp hsplit fun hroom =>
      adjusted_ok hok hval hin (by rw [adjusted_absent hfront hrest, if_neg hroom])
    by_cases hroom : info.semume ≤ (front ++ rest).length
    · rw [if_pos hroom] at hinsert ⊢
      rw [hinsert]
      exact .inl ⟨_, rfl, rfl, hself⟩
    · rw [if_neg hroom] at hinsert ⊢
      exact .inr ⟨_, hinsert.1, rfl, hinsert.2⟩
  | @found front back uup hfront hu =>
    rw [seekEntry_found hsplit hfront hu, adjusted_found hfront hu]
    have hupdate := updateEntry_ok val h hp hsplit fun ents heq hout => by
      have hadjusted : adjusted info val id num (front ++ uup :: back) = .ok ents := by
        rw [adjusted_found hfront hu, if_neg hout, ← heq]
        split <;> rfl
      exact adjusted_ok hok hval hin hadjusted
    by_cases hout : info.semaem < short (uup.unAoe - val) ∨ short (uup.unAoe - val) < -info.semaem
    · rw [if_pos hout] at hupdate ⊢
      rw [entries_eq hp, hsplit] at hupdate
      exact .inl ⟨_, hupdate.1, rfl, hupdate.2⟩
    · rw [if_neg hout] at hupdate ⊢
      refine .inr ⟨_, hupdate.1, ?_, hupdate.2⟩
      split <;> rfl

/-- What `semaoe` does: with an error the entries stay; else those of the process are adjusted, and
it has an undo structure from then on. -/
theorem semaoe_ok (h : t.Ok info act free) (p : Nat) (val id : Int) (num : Nat) :
    (∃ e, (semaoe info p val id num t).2 = some e ∧
      (t.semUndo p ≠ none → val ≤ info.semaem ∧ -info.semaem ≤ val →
        adjusted info val id num (t.entries p) = .error e) ∧
      Stored info t p (t.entries p) (semaoe info p val id num t).1) ∨
    (val = 0 ∧ semaoe info p val id num t = (t, none)) ∨
    ∃ ents, (semaoe info p val id num t).2 = none ∧ val ≠ 0 ∧
      (val ≤ info.semaem ∧ -info.semaem ≤ val) ∧ adjusted info val id num (t.entries p) = .ok ents ∧
      (semaoe info p val id num t).1.semUndo p ≠ none ∧
      Stored info t p ents (semaoe info p val id num t).1 := by
  have hself : Stored info t p (t.entries p) t := ⟨⟨act, free, h⟩, rfl, fun _ _ => rfl, fun _ hq => hq⟩
  unfold semaoe
  by_cases hval : val = 0
  · rw [if_pos hval]
    exact .inr (.inl ⟨hval, rfl⟩)
  rw [if_neg hval]
  by_cases hlimit : info.semaem < val ∨ val < -info.semaem
  · rw [if_pos hlimit]
    exact .inl ⟨_, rfl, fun _ hin => by omega, hself⟩
  rw [if_neg hlimit]
  cases hclaim : claim p t with
  | none =>
    refine .inl ⟨_, rfl, fun howned => ?_, hself⟩
    obtain ⟨up, hup⟩ := ne_none_iff_exists'.mp howned
    rw [claim, hup] at hclaim
    cases hclaim
  | some r =>
    obtain ⟨t₁, up⟩ := r
    obtain ⟨hstored, hup⟩ := claim_ok h hclaim
    obtain ⟨act₁, free₁, h₁⟩ := hstored.ok
    have hin : val ≤ info.semaem ∧ -info.semaem ≤ val := by omega
    have howned : t₁.semUndo p ≠ none := by
      rw [hup]
      exact some_ne_none up
    rcases seekEntry_ok id num h₁ hup hval hin with ⟨e, he, herror, h₂⟩ | ⟨ents, hnone, hadjusted, h₂⟩
    · rw [hstored.here] at h₂ herror
      exact .inl ⟨e, he, fun _ _ => herror, hstored.trans h₂⟩
    · rw [hstored.here] at hadjusted
      exact .inr (.inr ⟨ents, hnone, hval, hin, hadjusted, h₂.owned p howned, hstored.trans h₂⟩)

/-! ### `semunrm` -/

/-- The entry is for one of the semaphores `low` to `high` of the set. -/
def covered (id : Int) (low high : Nat) (u : Undo) : Bool :=
  u.unId = id && low ≤ u.unNum && u.unNum ≤ high

/-- The loop over the entries stops early, but past all that are covered. -/
theorem purge_eq (h : ents.Pairwise Undo.lt) :
    purge id low high ents = ents.filter fun u => !covered id low high u := by
  induction ents with
  | nil => rfl
  | cons u rest ih =>
    obtain ⟨hfirst, hrest⟩ := pairwise_cons.mp h
    -- past `u` nothing is covered when `u` is beyond the range
    have hpast : id < u.unId ∨ (u.unId = id ∧ high < u.unNum) →
        (u :: rest).filter (fun u => !covered id low high u) = u :: rest := by
      intro hbeyond
      refine filter_eq_self.mpr fun v hv => ?_
      have hv' : id < v.unId ∨ (v.unId = id ∧ high < v.unNum) := by
        rcases mem_cons.mp hv with heq | hmem
        · rw [heq]
          exact hbeyond
        · have hlt := hfirst v hmem
          unfold Undo.lt at hlt
          omega
      simp only [covered, Bool.not_eq_true', Bool.and_eq_false_iff, decide_eq_false_iff_not]
      omega
    rw [purge]
    by_cases hid : id < u.unId
    · rw [if_pos hid, hpast (.inl hid)]
    rw [if_neg hid]
    by_cases hlow : u.unId < id ∨ u.unNum < low
    · have hout : covered id low high u = false := by
        simp only [covered, Bool.and_eq_false_iff, decide_eq_false_iff_not]
        omega
      rw [if_pos hlow, ih hrest, filter_cons, hout]
      rfl
    rw [if_neg hlow]
    by_cases hhigh : high < u.unNum
    · rw [if_pos hhigh, hpast (.inr ⟨by omega, hhigh⟩)]
    have hin : covered id low high u = true := by
      simp only [covered, Bool.and_eq_true, decide_eq_true_eq]
      omega
    rw [if_neg hhigh, ih hrest, filter_cons, hin]
    rfl

theorem unchain_ok {kept tail : List Nat} (hchain : Linked t.next t.semunp (kept ++ p :: tail)) :
    Linked (unchain kept.getLast? p t).next (unchain kept.getLast? p t).semunp (kept ++ tail) ∧
      (unchain kept.getLast? p t).semUndo = t.semUndo ∧
      (unchain kept.getLast? p t).semfup = t.semfup ∧
      (∀ q, ((unchain kept.getLast? p t).semu q).unEnt = (t.semu q).unEnt) ∧
      ∀ q, q ∉ kept ++ p :: tail → (unchain kept.getLast? p t).next q = t.next q := by
  have hparts := nodup_append.mp hchain.nodup
  have hout : p ∉ kept ++ tail := by
    rw [mem_append, not_or]
    exact ⟨fun hmem => hparts.2.2 p hmem p (.head _) rfl, (nodup_cons.mp hparts.2.1).1⟩
  cases hlast : kept.getLast? with
  | none =>
    have hnil := getLast?_eq_none_iff.mp hlast
    rw [hnil] at hchain hout ⊢
    refine ⟨?_, rfl, rfl, fun q => setNp_ent none q, fun q hq => ?_⟩
    · unfold unchain
      rw [setNp_next]
      exact hchain.2.update_of_notMem hout _
    · unfold unchain
      rw [setNp_next, update_of_ne (fun heq => hq (by simp [heq]))]
      rfl
  | some pp =>
    obtain ⟨front, hfront⟩ := getLast?_eq_some_iff.mp hlast
    rw [hfront] at hchain hout ⊢
    rw [append_assoc, singleton_append] at hchain hout ⊢
    have hunlink : Linked (t.setNp pp (t.next p)).next t.semunp (front ++ pp :: tail) := by
      rw [setNp_next]
      exact hchain.unlink
    refine ⟨?_, rfl, rfl, fun q => ?_, fun q hq => ?_⟩
    · unfold unchain
      rw [setNp_next]
      exact hunlink.update_of_notMem hout _
    · unfold unchain
      rw [setNp_ent, setNp_ent]
    · unfold unchain
      rw [setNp_next, setNp_next, update_of_ne (fun heq => hq (by simp [heq])),
        update_of_ne (fun heq => hq (by simp [heq]))]

/-- The loop over the chain, with `kept` before it: `todo` is purged, and what is left empty is
linked out. -/
theorem semunrmLoop_ok (todo kept : List Nat) {fuel : Nat} (hfuel : todo.length < fuel)
    (hchain : Linked t.next t.semunp (kept ++ todo))
    (heq : semunrmLoop id low high fuel kept.getLast? todo.head? t = t') :
    (∃ act', Linked t'.next t'.semunp act' ∧ ∀ q, q ∈ act' ↔
      q ∈ kept ∨ (q ∈ todo ∧ purge id low high (t.semu q).unEnt ≠ [])) ∧
    t'.semUndo = t.semUndo ∧ t'.semfup = t.semfup ∧ (∀ q, (t'.semu q).unEnt =
      if q ∈ todo then purge id low high (t.semu q).unEnt else (t.semu q).unEnt) ∧
    ∀ q, q ∉ kept ++ todo → t'.next q = t.next q := by
  induction todo generalizing fuel kept t with
  | nil =>
    obtain ⟨fuel, rfl⟩ : ∃ n, fuel = n + 1 := ⟨fuel - 1, by omega⟩
    rw [← heq]
    rw [append_nil] at hchain
    exact ⟨⟨kept, hchain, by simp⟩, rfl, rfl, fun q => (if_neg not_mem_nil).symm,
      fun _ _ => rfl⟩
  | cons p rest ih =>
    obtain ⟨fuel, rfl⟩ : ∃ n, fuel = n + 1 := ⟨fuel - 1, by omega⟩
    have hfuel' : rest.length < fuel := by simpa using hfuel
    have hnodup := hchain.nodup
    have hparts := nodup_append.mp hnodup
    have hprest : p ∉ rest := (nodup_cons.mp hparts.2.1).1
    have hnp : t.next p = rest.head? := hchain.drop.start_eq
    rw [head?_cons] at heq
    simp only [semunrmLoop, setEnt_ent, if_true, length_eq_zero_iff] at heq
    have hnp' : ((t.setEnt p (purge id low high (t.semu p).unEnt)).semu p).unNp = rest.head? := by
      rw [← hnp]
      exact congrFun (setEnt_next _) p
    rw [hnp'] at heq
    by_cases hempty : purge id low high (t.semu p).unEnt = []
    · rw [if_pos hempty] at heq
      have hchain' : Linked (t.setEnt p (purge id low high (t.semu p).unEnt)).next
          (t.setEnt p (purge id low high (t.semu p).unEnt)).semunp (kept ++ p :: rest) := by
        rw [setEnt_next]
        exact hchain
      obtain ⟨hchain₂, hundo₂, hfup₂, hent₂, hframe₂⟩ := unchain_ok hchain'
      obtain ⟨⟨act', hact', hmem⟩, hundo, hfup, hent, hframe⟩ := ih kept hfuel' hchain₂ heq
      simp only [hent₂, setEnt_ent] at hmem hent
      refine ⟨⟨act', hact', fun q => ?_⟩, hundo.trans hundo₂, hfup.trans hfup₂, fun q => ?_,
        fun q hq => ?_⟩
      · rw [hmem, mem_cons]
        by_cases hqp : q = p
        · rw [hqp]
          tauto
        · rw [if_neg hqp]
          tauto
      · rw [hent]
        by_cases hqp : q = p
        · rw [hqp, if_neg hprest, if_pos mem_cons_self, if_pos rfl]
        · rw [if_neg hqp]
          exact if_congr (by simp [hqp]) rfl rfl
      · have hq' : q ∉ kept ++ rest := fun hmem => hq (by
          rcases mem_append.mp hmem with hin | hin
          · exact mem_append_left _ hin
          · exact mem_append_right _ (mem_cons_of_mem _ hin))
        rw [hframe q hq', hframe₂ q hq, setEnt_next]
    · rw [if_neg hempty] at heq
      have hlast : (kept ++ [p]).getLast? = some p := getLast?_concat
      rw [← hlast] at heq
      have hassoc : kept ++ p :: rest = (kept ++ [p]) ++ rest := by simp
      have hchain' : Linked (t.setEnt p (purge id low high (t.semu p).unEnt)).next
          (t.setEnt p (purge id low high (t.semu p).unEnt)).semunp ((kept ++ [p]) ++ rest) := by
        rw [setEnt_next, ← hassoc]
        exact hchain
      obtain ⟨⟨act', hact', hmem⟩, hundo, hfup, hent, hframe⟩ := ih (kept ++ [p]) hfuel' hchain' heq
      have hother : ∀ q ∈ rest, ((t.setEnt p (purge id low high (t.semu p).unEnt)).semu q).unEnt =
          (t.semu q).unEnt := fun q hq => by
        rw [setEnt_ent, if_neg (ne_of_mem_of_not_mem hq hprest)]
      refine ⟨⟨act', hact', fun q => ?_⟩, hundo, hfup, fun q => ?_, fun q hq => ?_⟩
      · rw [hmem, mem_append, mem_singleton, mem_cons]
        by_cases hqp : q = p
        · rw [hqp]
          tauto
        by_cases hq : q ∈ rest
        · rw [hother q hq]
          tauto
        · tauto
      · rw [hent]
        by_cases hqp : q = p
        · rw [hqp, if_neg hprest, if_pos mem_cons_self, setEnt_ent, if_pos rfl]
        · by_cases hq : q ∈ rest
          · rw [if_pos hq, if_pos (mem_cons_of_mem _ hq), hother q hq]
          · rw [if_neg hq, if_neg (by simp [hqp, hq]), setEnt_ent, if_neg hqp]
      · rw [hframe q (by rw [← hassoc]; exact hq), setEnt_next]

/-- `semunrm` removes the entries that are covered, of every process. -/
theorem semunrm_ok (h : t.Ok info act free) (id : Int) (low high : Nat) :
    (∃ act', (semunrm info id low high t).Ok info act' free) ∧
      (semunrm info id low high t).semUndo = t.semUndo ∧
      ∀ q, (semunrm info id low high t).entries q =
        (t.entries q).filter fun u => !covered id low high u := by
  have hstart : semunrmLoop id low high (info.semmnu + 1) (([] : List Nat)).getLast? act.head? t =
      semunrm info id low high t := by
    rw [← h.active.start_eq]
    rfl
  obtain ⟨⟨act', hact', hmem⟩, hundo, hfup, hent, hframe⟩ :=
    semunrmLoop_ok act [] (Nat.lt_succ_of_le h.length_act) h.active hstart
  -- outside the chain there is nothing to purge
  have hent' : ∀ q, ((semunrm info id low high t).semu q).unEnt =
      (t.semu q).unEnt.filter fun u => !covered id low high u := by
    intro q
    rw [hent, ← purge_eq (h.ents q).sorted]
    by_cases hq : q ∈ act
    · rw [if_pos hq]
    rw [if_neg hq]
    have hnil : (t.semu q).unEnt = [] := by
      by_contra hne
      exact hq ((h.memActive q).mpr hne)
    rw [hnil]
    rfl
  refine ⟨⟨act', hact', ?_, fun q => ?_, ?_, fun q hq => ?_, ?_, ?_, fun q => ?_⟩, hundo, fun q => ?_⟩
  · rw [hfup]
    refine h.freed.congr fun q hq => hframe q fun hin => h.apart (by simpa using hin) hq
  · rw [hmem, hent', ← purge_eq (h.ents q).sorted]
    constructor
    · intro hin
      exact (hin.resolve_left not_mem_nil).2
    · intro hne
      refine .inr ⟨(h.memActive q).mpr fun hnil => hne ?_, hne⟩
      rw [hnil]
      rfl
  · rw [hundo]
    exact h.memFree
  · rw [hundo]
    refine h.owner q fun hnil => hq ?_
    rw [hent', hnil]
    rfl
  · rw [hundo]
    exact h.inj
  · rw [hundo]
    exact h.bound
  · rw [hent']
    exact (h.ents q).sub filter_sublist
  · unfold UndoTab.entries
    rw [hundo]
    cases t.semUndo q with
    | none => rfl
    | some up => exact hent' up

/-- A structure without entries goes back to the free chain. -/
theorem cleanup_ok (h : t.Ok info act free) (hp : t.semUndo p = some up)
    (hempty : (t.semu up).unEnt = []) : (cleanup p up t).Ok info act (up :: free) ∧
      (cleanup p up t).semUndo p = none ∧
      ∀ q, (cleanup p up t).entries q = if q = p then [] else t.entries q := by
  have hnext : (cleanup p up t).next = update t.next up t.semfup := setNp_next t.semfup
  have hent : ∀ q, ((cleanup p up t).semu q).unEnt = (t.semu q).unEnt := setNp_ent t.semfup
  have hself : (cleanup p up t).semUndo p = none := update_self _ _ _
  have hother : ∀ q, q ≠ p → (cleanup p up t).semUndo q = t.semUndo q := fun q hq =>
    update_of_ne hq _ _
  have hact : up ∉ act := fun hmem => (h.memActive up).mp hmem hempty
  have hfree : up ∉ free := fun hmem => ((h.memFree up).mp hmem).2 p hp
  -- who owns a structure afterwards owned it before, and it is not `up`
  have howner : ∀ q x, (cleanup p up t).semUndo q = some x → t.semUndo q = some x ∧ q ≠ p := by
    intro q x hq
    have hqp : q ≠ p := fun heq => by
      rw [heq, hself] at hq
      cases hq
    rw [hother q hqp] at hq
    exact ⟨hq, hqp⟩
  refine ⟨⟨?_, ?_, fun q => ?_, fun q => ?_, fun q hq => ?_, fun q r x hq hr => ?_,
    fun q x hq => ?_, fun q => ?_⟩, hself, fun q => ?_⟩
  · rw [hnext]
    exact h.active.update_of_notMem hact _
  · rw [hnext]
    exact h.freed.push hfree
  · rw [hent]
    exact h.memActive q
  · rw [mem_cons, h.memFree]
    constructor
    · rintro (hq | ⟨hlt, hnone⟩)
      · rw [hq]
        refine ⟨h.bound p up hp, fun r hr => ?_⟩
        obtain ⟨hr', hrp⟩ := howner r up hr
        exact hrp (h.inj r p up hr' hp)
      · exact ⟨hlt, fun r hr => hnone r (howner r q hr).1⟩
    · intro ⟨hlt, hnone⟩
      by_cases hq : q = up
      · exact .inl hq
      refine .inr ⟨hlt, fun r hr => ?_⟩
      have hrp : r ≠ p := fun heq => by
        rw [heq, hp] at hr
        exact hq (some.inj hr).symm
      exact hnone r (by rw [hother r hrp]; exact hr)
  · rw [hent] at hq
    obtain ⟨r, hr⟩ := h.owner q hq
    have hrp : r ≠ p := fun heq => by
      rw [heq, hp] at hr
      rw [← some.inj hr] at hq
      exact hq hempty
    exact ⟨r, by rw [hother r hrp]; exact hr⟩
  · exact h.inj q r x (howner q x hq).1 (howner r x hr).1
  · exact h.bound q x (howner q x hq).1
  · rw [hent]
    exact h.ents q
  · split_ifs with hq
    · rw [hq, UndoTab.entries, hself]
    · rw [UndoTab.entries, UndoTab.entries, hother q hq]
      cases t.semUndo q with
      | none => rfl
      | some x => exact hent x

/-- The entries of a process that exits are dropped and its structure is free again. -/
theorem release_ok (h : t.Ok info act free) (hp : t.semUndo p = some up) (hne : (t.semu up).unEnt ≠ []) :
    (∃ act free, (cleanup p up (delist info up (t.setEnt up []))).Ok info act free) ∧
      (cleanup p up (delist info up (t.setEnt up []))).semUndo p = none ∧
      ∀ q, (cleanup p up (delist info up (t.setEnt up []))).entries q =
        if q = p then [] else t.entries q := by
  have hin : up ∈ act := (h.memActive up).mpr hne
  have hchain : Linked (t.setEnt up []).next (t.setEnt up []).semunp act := by
    rw [setEnt_next]
    exact h.active
  have hundo := (delist_ok hchain h.length_act hin).2.2.1
  have hp' : ((delist info up (t.setEnt up [])).setNp up none).semUndo p = some up := by
    change (delist info up (t.setEnt up [])).semUndo p = some up
    rw [hundo]
    exact hp
  have hstored := store_last h hp hne none
  obtain ⟨act', free', h'⟩ := hstored.ok
  have hempty : (((delist info up (t.setEnt up [])).setNp up none).semu up).unEnt = [] := by
    rw [← entries_eq hp']
    exact hstored.here
  -- the link that `cleanup` writes is the only one that matters
  have hsame : cleanup p up ((delist info up (t.setEnt up [])).setNp up none) =
      cleanup p up (delist info up (t.setEnt up [])) := by
    simp [cleanup, UndoTab.setNp]
  obtain ⟨hok, hnone, hentries⟩ := cleanup_ok h' hp' hempty
  rw [hsame] at hok hnone hentries
  refine ⟨⟨act', up :: free', hok⟩, hnone, fun q => ?_⟩
  rw [hentries]
  by_cases hq : q = p
  · rw [if_pos hq, if_pos hq]
  · rw [if_neg hq, if_neg hq, hstored.other q hq]

end Svr42.Sem

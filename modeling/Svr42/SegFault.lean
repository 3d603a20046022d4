import Svr42.SegRuns

/-! `as_fault` and `as_faulta`: a range of pages is passed to the fault routines of the segments that
have them, and what has been locked is unlocked when a later part fails. -/

namespace Svr42.Seg
open List Nat

inductive FaultType where
  | fInval
  | fProt
  | fSoftlock
  | fSoftunlock
  deriving DecidableEq, Repr

inductive SegRw where
  | sOther
  | sRead
  | sWrite
  | sExec
  deriving DecidableEq, Repr

def FC_NOMAP : Nat := 3

def PAGESIZE : Nat := 0x1000

/-- What a call of a segment's fault routine is about. -/
structure Part (Ptr : Type) where
  seg : Ptr
  addr : Nat
  len : Nat
  deriving DecidableEq

structure FaultCall (Ptr : Type) extends Part Ptr where
  type : FaultType
  rw : SegRw

/-- What a loop over a range leaves: the calls it has made, and whether `rsize` has gone below zero. -/
structure Faulted (Ptr : Type) where
  res : Nat
  raddr : Nat
  parts : List (Part Ptr)
  below : Bool

def later (answer : Nat → Nat) : Nat → Nat := fun k => answer (k + 1)

def Faulted.behind {Ptr : Type} (part : Part Ptr) (below : Bool) (r : Faulted Ptr) : Faulted Ptr :=
  { r with parts := part :: r.parts, below := below || r.below }

section

variable {Ptr : Type} [DecidableEq Ptr]

/-- The segment for `raddr`: the same or the next one, if it begins there. -/
def nextSeg (s : As Ptr) (seg : Ptr) (raddr : Nat) : Option Ptr :=
  if s.sEnd seg ≤ raddr then
    if raddr ≠ s.sBase (s.sNext seg) then none else some (s.sNext seg)
  else some seg

def partSize (s : As Ptr) (seg : Ptr) (raddr rsize : Nat) : Nat :=
  if s.sEnd seg < add raddr rsize then sub (s.sEnd seg) raddr else rsize

/-- The loop of `as_fault`. -/
def faultLoop (s : As Ptr) : Nat → (Nat → Nat) → Ptr → Nat → Nat → Option (Faulted Ptr)
  | 0, _, _, _, _ => none
  | fuel + 1, answer, seg, raddr, rsize =>
      match nextSeg s seg raddr with
      | none => some ⟨FC_NOMAP, raddr, [], false⟩
      | some seg =>
          let ssize := partSize s seg raddr rsize
          let below := decide (rsize < ssize)
          if answer 0 ≠ 0 then some ⟨answer 0, raddr, [⟨seg, raddr, ssize⟩], false⟩
          else if sub rsize ssize = 0 then some ⟨0, add raddr ssize, [⟨seg, raddr, ssize⟩], below⟩
          else
            (faultLoop s fuel (later answer) seg (add raddr ssize) (sub rsize ssize)).map
              (Faulted.behind ⟨seg, raddr, ssize⟩ below)

/-- The loop that unlocks what is in front of `raddr`. -/
def undoLoop (s : As Ptr) (raddr : Nat) : Nat → Ptr → Nat → Option (List (Part Ptr))
  | 0, _, _ => none
  | fuel + 1, seg, addrsav =>
      if raddr ≤ addrsav then some []
      else
        let seg := if s.sEnd seg ≤ addrsav then s.sNext seg else seg
        let ssize := if s.sEnd seg < raddr then sub (s.sEnd seg) addrsav else sub raddr addrsav
        (undoLoop s raddr fuel seg (add addrsav ssize)).map (⟨seg, addrsav, ssize⟩ :: ·)

/-- `calls` are those that `as_fault` makes first, `undone` those that unlock. -/
structure FaultRun (Ptr : Type) where
  res : Nat
  calls : List (FaultCall Ptr)
  undone : List (FaultCall Ptr)
  below : Bool

def FaultRun.of {Ptr : Type} (type : FaultType) (rw : SegRw) (r : Faulted Ptr)
    (undone : List (Part Ptr)) : FaultRun Ptr :=
  { res := r.res
    calls := r.parts.map fun part => ⟨part, type, rw⟩
    undone := undone.map fun part => ⟨part, .fSoftunlock, .sOther⟩
    below := r.below }

def rangeSize (addr size : Nat) : Nat := sub (pageRound (add addr size)) (pageMask addr)

def asFault [Fintype Ptr] (s : As Ptr) (answer : Nat → Nat) (addr size : Nat) (type : FaultType)
    (rw : SegRw) : Option (FaultRun Ptr × As Ptr) :=
  match asSegat s (pageMask addr) with
  | (none, t) => some (⟨FC_NOMAP, [], [], false⟩, t)
  | (some seg, t) =>
      (faultLoop t (Fintype.card Ptr + 1) answer seg (pageMask addr) (rangeSize addr size)).bind
        fun r =>
          if r.res ≠ 0 ∧ type = .fSoftlock then
            (undoLoop t r.raddr (Fintype.card Ptr + 2) seg (pageMask addr)).map fun undone =>
              (FaultRun.of type rw r undone, t)
          else some (FaultRun.of type rw r [], t)

/-- The loop of `as_faulta`; a call is about a page. -/
def faultaLoop (s : As Ptr) : Nat → (Nat → Nat) → Ptr → Nat → Nat → Option (Faulted Ptr)
  | 0, _, _, _, _ => none
  | fuel + 1, answer, seg, raddr, rsize =>
      match nextSeg s seg raddr with
      | none => some ⟨FC_NOMAP, raddr, [], false⟩
      | some seg =>
          let below := decide (rsize < PAGESIZE)
          if answer 0 ≠ 0 then some ⟨answer 0, raddr, [⟨seg, raddr, PAGESIZE⟩], false⟩
          else if sub rsize PAGESIZE = 0 then
            some ⟨0, add raddr PAGESIZE, [⟨seg, raddr, PAGESIZE⟩], below⟩
          else
            (faultaLoop s fuel (later answer) seg (add raddr PAGESIZE) (sub rsize PAGESIZE)).map
              (Faulted.behind ⟨seg, raddr, PAGESIZE⟩ below)

/-- There are fewer than `0x100001` pages. -/
def asFaulta [Fintype Ptr] (s : As Ptr) (answer : Nat → Nat) (addr size : Nat) :
    Option (Faulted Ptr × As Ptr) :=
  match asSegat s (pageMask addr) with
  | (none, t) => some (⟨FC_NOMAP, pageMask addr, [], false⟩, t)
  | (some seg, t) =>
      (faultaLoop t 0x100001 answer seg (pageMask addr) (rangeSize addr size)).map fun r => (r, t)

end

variable {Ptr : Type} {s t : As Ptr} {kernel : Bool} {cells front back : List Ptr}
  {answer : Nat → Nat} {seg p q : Ptr} {part : Part Ptr} {parts : List (Part Ptr)}
  {addr size start stop raddr rsize res a n fuel : Nat} {r : Faulted Ptr}

/-! ### What is to be done with a range -/

def Part.has (part : Part Ptr) (x : Nat) : Bool := decide (part.addr ≤ x ∧ x < part.addr + part.len)

/-- How far the calls for a range have come: to its end, to an address that nobody has, or to a call
that fails. -/
inductive Outcome (s : As Ptr) (cells : List Ptr) (stop : Nat) (answer : Nat → Nat)
    (parts : List (Part Ptr)) : Nat → Nat → Prop
  | done : (∀ k < parts.length, answer k = 0) → Outcome s cells stop answer parts stop 0
  | nomap {reached : Nat} : (∀ k < parts.length, answer k = 0) →
      (∀ p ∈ cells, ¬ Contains s reached p) → Outcome s cells stop answer parts reached FC_NOMAP
  | failed {reached k : Nat} : parts.length = k + 1 → (∀ j < k, answer j = 0) → answer k ≠ 0 →
      Outcome s cells stop answer parts reached (answer k)

/-- The calls for the range from `start` to `stop`: every address up to where they come is passed to
one call and no other is, and each call is about addresses of its segment. -/
structure Handled (s : As Ptr) (cells : List Ptr) (start stop : Nat) (answer : Nat → Nat)
    (parts : List (Part Ptr)) (res reached : Nat) : Prop where
  from_start : start ≤ reached
  to_stop : reached ≤ stop
  once : ∀ x, parts.countP (fun part => part.has x) = if start ≤ x ∧ x < reached then 1 else 0
  within : ∀ part ∈ parts, part.seg ∈ cells ∧ s.sBase part.seg ≤ part.addr ∧
    part.addr + part.len ≤ s.sEnd part.seg
  outcome : Outcome s cells stop answer parts reached res

def granted (answer : Nat → Nat) : List (Part Ptr) → List (Part Ptr)
  | [] => []
  | part :: parts =>
      if answer 0 = 0 then part :: granted (later answer) parts else granted (later answer) parts

/-- The first page of the range, and the end of the last; there is no more than can be counted. -/
def firstPage (addr : Nat) : Nat := addr / 0x1000 * 0x1000

def pastLast (addr size : Nat) : Nat := (addr + size + 0xfff) / 0x1000 * 0x1000

/-- What `as_fault` is to do. Each call is about all that its segment has of the range. -/
structure FaultOk (s : As Ptr) (cells : List Ptr) (answer : Nat → Nat) (addr size : Nat)
    (type : FaultType) (rw : SegRw) (r : FaultRun Ptr) : Prop where
  handled : ∃ reached, Handled s cells (firstPage addr) (pastLast addr size) answer
    (r.calls.map FaultCall.toPart) r.res reached
  whole : ∀ call ∈ r.calls, call.addr + call.len = s.sEnd call.seg ∨
    call.addr + call.len = pastLast addr size
  kinds : ∀ call ∈ r.calls, call.type = type ∧ call.rw = rw
  counted : r.below = false
  undone : r.undone = if r.res ≠ 0 ∧ type = .fSoftlock then
    (granted answer (r.calls.map FaultCall.toPart)).map fun part => ⟨part, .fSoftunlock, .sOther⟩
    else []

/-- What `as_faulta` is to do. -/
structure FaultaOk (s : As Ptr) (cells : List Ptr) (answer : Nat → Nat) (addr size : Nat)
    (r : Faulted Ptr) : Prop where
  handled : ∃ reached, Handled s cells (firstPage addr) (pastLast addr size) answer r.parts r.res
    reached
  pages : ∀ part ∈ r.parts, part.len = PAGESIZE
  counted : r.below = false

/-- An address space whose segments all have pages. -/
structure Populated (kernel : Bool) (s : As Ptr) (cells : List Ptr) : Prop
    extends Good kernel s cells where
  bytes : ∀ p ∈ cells, 0 < s.sSize p

/-! ### From segment to segment -/

section

variable (h : Populated kernel s cells) (hp : p ∈ cells)
include h hp

theorem Populated.base_lt : s.sBase p < s.sEnd p := by
  have hbytes := h.bytes p hp
  rw [h.sEnd_eq hp]
  omega

theorem Populated.sEnd_lt : s.sEnd p < word := by
  rw [h.sEnd_eq hp]
  exact h.fits p hp

theorem Populated.one (hq : q ∈ cells) (hinp : Contains s raddr p) (hinq : Contains s raddr q) :
    p = q := by
  by_contra hne
  have hapart := h.apart hp hq hne
  unfold Contains at hinp hinq
  rw [h.sEnd_eq hp] at hinp
  rw [h.sEnd_eq hq] at hinq
  omega

end

theorem nextSeg_same (h : raddr < s.sEnd p) : nextSeg s p raddr = some p :=
  if_neg (not_le.mpr h)

section

variable (h : Populated kernel s cells) (hp : p ∈ cells) (hlow : s.sBase p ≤ raddr)
  (hhigh : raddr ≤ s.sEnd p)
include h hp hlow hhigh

/-- From a segment that the range has come to, the one that has the next address is found. -/
theorem Populated.nextSeg_iff : nextSeg s p raddr = some q ↔ q ∈ cells ∧ Contains s raddr q := by
  by_cases hin : raddr < s.sEnd p
  · rw [nextSeg_same hin]
    constructor
    · intro heq
      rw [← Option.some.inj heq]
      exact ⟨hp, hlow, hin⟩
    · rintro ⟨hq, hhas⟩
      rw [h.one hp hq ⟨hlow, hin⟩ hhas]
  have hend : raddr = s.sEnd p := by omega
  have hnot : ∀ q ∈ cells, Contains s raddr q → s.sEnd p ≤ s.sBase q := by
    intro q hq hhas
    have hne : p ≠ q := by
      rintro rfl
      exact hin hhas.2
    have hapart := h.apart hp hq hne
    have hqlow := hhas.1
    have hqhigh := hhas.2
    rw [h.sEnd_eq hq] at hqhigh
    rw [h.sEnd_eq hp] at hend ⊢
    omega
  have hstart : ∀ q ∈ cells, Contains s raddr q → s.sBase q = raddr := by
    intro q hq hhas
    have hle := hnot q hq hhas
    have hqlow := hhas.1
    omega
  have hnext : s.sNext p ∈ cells := h.circle.next_mem hp
  have hbehind : ∀ q ∈ cells, Contains s raddr q → q = s.sNext p := by
    intro q hq hhas
    obtain ⟨front, back, rfl⟩ := append_of_mem hp
    have hbase := hstart q hq hhas
    have hlt := h.base_lt hp
    have hnextp := h.circle.next_eq
    rcases mem_append.mp hq with hfront | hback
    · have hbefore := h.around.1 q hfront
      omega
    rcases mem_cons.mp hback with rfl | hback
    · omega
    cases back with
    | nil => cases hback
    | cons c rest =>
      rw [hnextp, cons_append, headD_cons]
      rcases mem_cons.mp hback with heq | hrest
      · exact heq
      have hc : c ∈ front ++ p :: c :: rest := by simp
      have hclow := h.around.2 c (.head _)
      have hsplit : front ++ p :: c :: rest = (front ++ [p]) ++ c :: rest := by simp
      have hlater := (show Good kernel s ((front ++ [p]) ++ c :: rest) from
        hsplit ▸ h.toGood).around.2 q hrest
      have hbytes := h.bytes c hc
      rw [h.sEnd_eq hp] at hend
      omega
  unfold nextSeg
  rw [if_pos (by omega)]
  by_cases hbase : raddr = s.sBase (s.sNext p)
  · rw [if_neg (not_not.mpr hbase)]
    constructor
    · intro heq
      rw [← Option.some.inj heq]
      exact ⟨hnext, hbase.ge, hbase ▸ h.base_lt hnext⟩
    · rintro ⟨hq, hhas⟩
      rw [hbehind q hq hhas]
  · rw [if_pos hbase]
    constructor
    · intro heq
      exact absurd heq (by simp)
    · rintro ⟨hq, hhas⟩
      have heq := hstart q hq hhas
      rw [hbehind q hq hhas] at heq
      exact absurd heq.symm hbase

theorem Populated.nextSeg_none (hnone : nextSeg s p raddr = none) :
    ∀ q ∈ cells, ¬ Contains s raddr q := by
  intro q hq hhas
  have hsome := (h.nextSeg_iff hp hlow hhigh).mpr ⟨hq, hhas⟩
  rw [hnone] at hsome
  exact absurd hsome (by simp)

end

/-! ### Calls one behind the other -/

theorem later_of {k : Nat} (h : ∀ j < k, later answer j = 0) (hzero : answer 0 = 0) :
    ∀ j < k + 1, answer j = 0 := by
  intro j hj
  cases j with
  | zero => exact hzero
  | succ j => exact h j (by omega)

theorem Handled.nowhere (hnone : ∀ p ∈ cells, ¬ Contains s start p) (hle : start ≤ stop) :
    Handled s cells start stop answer [] FC_NOMAP start where
  from_start := le_rfl
  to_stop := hle
  once x := by
    rw [if_neg (by omega)]
    rfl
  within _ hpart := absurd hpart not_mem_nil
  outcome := .nomap (fun k hk => absurd hk (not_lt_zero k)) hnone

theorem has_count (part : Part Ptr) (x : Nat) : [part].countP (fun part => part.has x) =
    if part.addr ≤ x ∧ x < part.addr + part.len then 1 else 0 := by
  rw [countP_singleton, Part.has]
  simp only [decide_eq_true_eq]

theorem Handled.single (hp : p ∈ cells) (hlow : s.sBase p ≤ start) (hhigh : start + n ≤ s.sEnd p)
    (hstop : start + n ≤ stop) (houtcome : Outcome s cells stop answer [⟨p, start, n⟩] (start + n) res) :
    Handled s cells start stop answer [⟨p, start, n⟩] res (start + n) where
  from_start := le_add_right start n
  to_stop := hstop
  once x := has_count ⟨p, start, n⟩ x
  within _ hpart := by
    rw [mem_singleton.mp hpart]
    exact ⟨hp, hlow, hhigh⟩
  outcome := houtcome

theorem Outcome.behind {reached : Nat} (hzero : answer 0 = 0)
    (h : Outcome s cells stop (later answer) parts reached res) :
    Outcome s cells stop answer (part :: parts) reached res := by
  cases h with
  | done hall => exact .done (later_of hall hzero)
  | nomap hall hnone => exact .nomap (later_of hall hzero) hnone
  | failed hlength hall hfails =>
    exact Outcome.failed (k := _ + 1) (by rw [length_cons, hlength]) (later_of hall hzero)
      hfails

theorem Handled.behind {reached : Nat} (hp : p ∈ cells) (hlow : s.sBase p ≤ start)
    (hhigh : start + n ≤ s.sEnd p) (hzero : answer 0 = 0)
    (h : Handled s cells (start + n) stop (later answer) parts res reached) :
    Handled s cells start stop answer (⟨p, start, n⟩ :: parts) res reached where
  from_start := (le_add_right start n).trans h.from_start
  to_stop := h.to_stop
  once x := by
    have hfrom := h.from_start
    have hrest := h.once x
    have hcount : ∀ part : Part Ptr, (part :: parts).countP (fun part => part.has x) =
        parts.countP (fun part => part.has x) + [part].countP (fun part => part.has x) := by
      intro part
      rw [countP_cons, countP_singleton]
    rw [hcount, hrest, has_count]
    dsimp only
    split_ifs
    all_goals omega
  within part hpart := by
    rcases mem_cons.mp hpart with rfl | hpart
    · exact ⟨hp, hlow, hhigh⟩
    · exact h.within part hpart
  outcome := h.outcome.behind hzero

/-- One call is no answer to a range that goes on behind it. -/
theorem Handled.not_whole {reached : Nat} (h : Handled s cells start stop answer [part] 0 reached)
    (hpart : start ≤ part.addr + part.len) (hstop : part.addr + part.len < stop) : False := by
  have honce := h.once (part.addr + part.len)
  generalize hres : (0 : Nat) = res at h
  cases h.outcome with
  | done _ =>
    rw [has_count, if_neg (by omega), if_pos ⟨hpart, hstop⟩] at honce
    exact absurd honce (by decide)
  | nomap _ _ => exact absurd hres (by decide)
  | failed _ _ hfails => exact hfails hres.symm

/-- How the range from `raddr` to `stop` is split: the parts are as the loop of `as_fault` leaves
them. -/
inductive Splits (s : As Ptr) (cells : List Ptr) (stop : Nat) :
    (Nat → Nat) → Nat → Faulted Ptr → Prop
  | nomap {answer : Nat → Nat} {raddr : Nat} : raddr ≤ stop →
      (∀ p ∈ cells, ¬ Contains s raddr p) → Splits s cells stop answer raddr ⟨FC_NOMAP, raddr, [], false⟩
  | fails {answer : Nat → Nat} {raddr n : Nat} {p : Ptr} : p ∈ cells → Contains s raddr p →
      answer 0 ≠ 0 → (raddr + n = s.sEnd p ∧ s.sEnd p ≤ stop ∨ raddr + n = stop ∧ stop ≤ s.sEnd p) →
      Splits s cells stop answer raddr ⟨answer 0, raddr, [⟨p, raddr, n⟩], false⟩
  | ends {answer : Nat → Nat} {raddr n : Nat} {p : Ptr} : p ∈ cells → Contains s raddr p →
      answer 0 = 0 → raddr + n = stop → stop ≤ s.sEnd p →
      Splits s cells stop answer raddr ⟨0, raddr + n, [⟨p, raddr, n⟩], false⟩
  | goes {answer : Nat → Nat} {raddr n : Nat} {p : Ptr} {r : Faulted Ptr} : p ∈ cells →
      Contains s raddr p → answer 0 = 0 → raddr + n = s.sEnd p → s.sEnd p < stop →
      Splits s cells stop (later answer) (raddr + n) r →
      Splits s cells stop answer raddr (r.behind ⟨p, raddr, n⟩ false)

section

variable (h : Splits s cells stop answer raddr r)
include h

theorem Splits.handled : ∃ reached, Handled s cells raddr stop answer r.parts r.res reached := by
  induction h with
  | nomap hle hnone => exact ⟨_, Handled.nowhere hnone hle⟩
  | fails hp hin hfails hcut =>
    exact ⟨_, Handled.single hp hin.1 (by omega) (by omega)
      (.failed (k := 0) rfl (fun j hj => absurd hj (not_lt_zero j)) hfails)⟩
  | @ends answer raddr n p hp hin hzero hstop hle =>
    refine ⟨_, Handled.single hp hin.1 (by omega) (by omega) ?_⟩
    rw [hstop]
    exact .done fun k hk => by
      rw [lt_one_iff.mp hk]
      exact hzero
  | goes hp hin hzero hcut hmore _ ih =>
    obtain ⟨reached, hrest⟩ := ih
    exact ⟨reached, hrest.behind hp hin.1 hcut.le hzero⟩

theorem Splits.whole :
    ∀ part ∈ r.parts, part.addr + part.len = s.sEnd part.seg ∨ part.addr + part.len = stop := by
  induction h with
  | nomap _ _ => exact nofun
  | fails hp hin hfails hcut =>
    intro part hpart
    rw [mem_singleton.mp hpart]
    exact hcut.imp And.left And.left
  | ends hp hin hzero hstop hle =>
    intro part hpart
    rw [mem_singleton.mp hpart]
    exact .inr hstop
  | goes hp hin hzero hcut hmore _ ih =>
    intro part hpart
    rcases mem_cons.mp hpart with rfl | hpart
    · exact .inl hcut
    · exact ih part hpart

theorem Splits.counted : r.below = false := by
  induction h with
  | nomap _ _ => rfl
  | fails _ _ _ _ => rfl
  | ends _ _ _ _ _ => rfl
  | goes _ _ _ _ _ _ ih => exact ih

theorem Splits.raddr_le : raddr ≤ r.raddr := by
  induction h with
  | nomap _ _ => exact le_rfl
  | fails _ _ _ _ => exact le_rfl
  | ends _ _ _ _ _ => exact le_add_right _ _
  | goes _ _ _ _ _ _ ih => exact (le_add_right _ _).trans ih

end

/-! ### The loops -/

/-- One turn of the loop, in the segment that has the address. -/
theorem faultLoop_turn (hnext : nextSeg s seg raddr = some p) (hin : Contains s raddr p)
    (hend : s.sEnd p < word) (hrange : raddr + rsize = stop) (hstop : stop < word) (hp : p ∈ cells)
    (hgoes : s.sEnd p < stop → ∃ r, faultLoop s fuel (later answer) p (s.sEnd p) (stop - s.sEnd p) =
      some r ∧ Splits s cells stop (later answer) (s.sEnd p) r) :
    ∃ r, faultLoop s (fuel + 1) answer seg raddr rsize = some r ∧ Splits s cells stop answer raddr r := by
  have hlow := hin.2
  have hadd : add raddr rsize = stop := by rw [add_eq (by omega), hrange]
  rw [faultLoop, hnext]
  by_cases hmore : s.sEnd p < stop
  · have hsize : partSize s p raddr rsize = s.sEnd p - raddr := by
      rw [partSize, hadd, if_pos hmore, sub_eq hlow.le hend]
    have hcut : raddr + (s.sEnd p - raddr) = s.sEnd p := by omega
    have hnot : ¬ rsize < s.sEnd p - raddr := by omega
    have hleft : sub rsize (s.sEnd p - raddr) = stop - s.sEnd p := by
      rw [sub_eq (by omega) (by omega)]
      omega
    have hstep : add raddr (s.sEnd p - raddr) = s.sEnd p := by rw [add_eq (by omega), hcut]
    simp only [hsize, hstep, hleft, decide_eq_false hnot]
    by_cases hzero : answer 0 = 0
    · obtain ⟨r, hrun, hsplits⟩ := hgoes hmore
      refine ⟨_, ?_, .goes hp hin hzero hcut hmore (by rw [hcut]; exact hsplits)⟩
      rw [if_neg (not_not.mpr hzero), if_neg (by omega), hrun]
      rfl
    · exact ⟨_, if_pos hzero, .fails hp hin hzero (.inl ⟨hcut, hmore.le⟩)⟩
  · have hsize : partSize s p raddr rsize = rsize := by rw [partSize, hadd, if_neg hmore]
    have hleft : sub rsize rsize = 0 := by rw [sub_eq le_rfl (by omega), Nat.sub_self]
    simp only [hsize, hleft, hadd, decide_eq_false (lt_irrefl rsize)]
    by_cases hzero : answer 0 = 0
    · refine ⟨_, ?_, .ends hp hin hzero hrange (not_lt.mp hmore)⟩
      rw [if_neg (not_not.mpr hzero), if_pos trivial, hrange]
    · exact ⟨_, if_pos hzero, .fails hp hin hzero (.inr ⟨hrange, not_lt.mp hmore⟩)⟩

theorem Populated.mem_back (h : Populated kernel s (front ++ seg :: back))
    (hq : q ∈ front ++ seg :: back) (hin : Contains s (s.sEnd seg) q) : q ∈ back := by
  have hseg : seg ∈ front ++ seg :: back := mem_append_right _ (.head _)
  have hlt := h.base_lt hseg
  have hhigh := hin.2
  rcases mem_append.mp hq with hfront | hback
  · have hbefore := h.around.1 q hfront
    rw [h.sEnd_eq hq] at hhigh
    omega
  · rcases mem_cons.mp hback with rfl | hback
    · exact absurd hhigh (lt_irrefl _)
    · exact hback

theorem faultLoop_splits (h : Populated kernel s (front ++ seg :: back)) (hmore : s.sEnd seg < stop)
    (hstop : stop < word) (hfuel : back.length < fuel) :
    ∃ r, faultLoop s fuel answer seg (s.sEnd seg) (stop - s.sEnd seg) = some r ∧
      Splits s (front ++ seg :: back) stop answer (s.sEnd seg) r := by
  induction fuel generalizing front seg back answer with
  | zero => exact absurd hfuel (not_lt_zero _)
  | succ fuel ih =>
    have hseg : seg ∈ front ++ seg :: back := mem_append_right _ (.head _)
    have hlow := (h.base_lt hseg).le
    cases hnext : nextSeg s seg (s.sEnd seg) with
    | none =>
      rw [faultLoop, hnext]
      exact ⟨_, rfl, .nomap hmore.le (h.nextSeg_none hseg hlow le_rfl hnext)⟩
    | some q =>
      obtain ⟨hq, hin⟩ := (h.nextSeg_iff hseg hlow le_rfl).mp hnext
      obtain ⟨between, rest, hback⟩ := append_of_mem (h.mem_back hq hin)
      have hcells : front ++ seg :: back = (front ++ seg :: between) ++ q :: rest := by
        rw [hback, append_assoc, cons_append]
      refine faultLoop_turn hnext hin (h.sEnd_lt hq) (by omega) hstop hq fun hgoes => ?_
      rw [hback, length_append, length_cons] at hfuel
      rw [hcells] at h ⊢
      exact ih h hgoes (by omega)

theorem faultLoop_length (hrun : faultLoop s fuel answer seg raddr rsize = some r) :
    r.parts.length ≤ fuel := by
  induction fuel generalizing answer seg raddr rsize r with
  | zero => cases hrun
  | succ fuel ih =>
    rw [faultLoop] at hrun
    cases hnext : nextSeg s seg raddr with
    | none =>
      rw [hnext] at hrun
      rw [← Option.some.inj hrun]
      exact zero_le _
    | some p =>
      rw [hnext] at hrun
      dsimp only at hrun
      split_ifs at hrun
      · rw [← Option.some.inj hrun]
        exact le_add_left 1 fuel
      · rw [← Option.some.inj hrun]
        exact le_add_left 1 fuel
      · obtain ⟨rest, hrest, rfl⟩ := Option.map_eq_some_iff.mp hrun
        exact succ_le_succ (ih hrest)

/-- What has been locked is unlocked, part by part. -/
theorem undoLoop_granted (h : Populated kernel s cells) (hsplits : Splits s cells stop answer raddr r)
    (hres : r.res ≠ 0) (hseg : seg ∈ cells) (hlow : s.sBase seg ≤ raddr) (hhigh : raddr ≤ s.sEnd seg)
    (hfuel : r.parts.length < fuel) :
    undoLoop s r.raddr fuel seg raddr = some (granted answer r.parts) := by
  induction hsplits generalizing seg fuel with
  | nomap _ _ =>
    obtain ⟨fuel, rfl⟩ : ∃ n, fuel = n + 1 := ⟨fuel - 1, by omega⟩
    exact if_pos le_rfl
  | fails hp hin hfails hcut =>
    obtain ⟨fuel, rfl⟩ : ∃ n, fuel = n + 1 := ⟨fuel - 1, by omega⟩
    rw [granted, if_neg hfails, granted]
    exact if_pos le_rfl
  | ends _ _ _ _ _ => exact absurd rfl hres
  | @goes answer raddr n p r hp hin hzero hcut hmore hrest ih =>
    obtain ⟨fuel, rfl⟩ : ∃ n, fuel = n + 1 := ⟨fuel - 1, by omega⟩
    have hle := hrest.raddr_le
    have hraddr := hin.2
    have hend := h.sEnd_lt hp
    have hgoes : ¬ r.raddr ≤ raddr := by omega
    have hwhich : (if s.sEnd seg ≤ raddr then s.sNext seg else seg) = p := by
      have hnext := (h.nextSeg_iff hseg hlow hhigh).mpr ⟨hp, hin⟩
      unfold nextSeg at hnext
      split_ifs at hnext
      · rw [if_pos (by assumption)]
        exact Option.some.inj hnext
      · rw [if_neg (by assumption)]
        exact Option.some.inj hnext
    have hsize : (if s.sEnd p < r.raddr then sub (s.sEnd p) raddr else sub r.raddr raddr) = n := by
      split_ifs
      · rw [sub_eq hraddr.le hend]
        omega
      · rw [show r.raddr = s.sEnd p by omega, sub_eq hraddr.le hend]
        omega
    have hstep : add raddr n = raddr + n := add_eq (by omega)
    have hbase := h.base_lt hp
    have hgranted : granted answer (r.behind ⟨p, raddr, n⟩ false).parts =
        ⟨p, raddr, n⟩ :: granted (later answer) r.parts := if_pos hzero
    rw [hgranted]
    show undoLoop s r.raddr (fuel + 1) seg raddr = _
    refine (if_neg hgoes).trans ?_
    dsimp only
    rw [hwhich, hsize, hstep, ih hres hp (by omega) (by omega)
      (by rw [Faulted.behind, length_cons] at hfuel; omega)]
    rfl

/-! ### The calls -/

theorem pageMask_eq : pageMask addr = firstPage addr := rfl

theorem rangeSize_fits (hstop : pastLast addr size < word) :
    rangeSize addr size = pastLast addr size - firstPage addr := by
  unfold rangeSize pageRound pageMask sub add pastLast firstPage word at *
  omega

theorem rangeSize_eq (haddr : addr < word) (hsize : size < word) :
    rangeSize addr size = (pastLast addr size - firstPage addr) % word := by
  unfold rangeSize pageRound pageMask sub add pastLast firstPage word at *
  omega

/-- A range that reaches the end of the addresses is counted as one that ends at `e` only if it goes
all around to there. -/
theorem rangeSize_exact {e : Nat} (haddr : addr < word) (hsize : size < word)
    (hstop : word ≤ pastLast addr size) (hlow : firstPage addr < e) (he : e < word) :
    firstPage addr + rangeSize addr size = e ↔ pastLast addr size = word + e := by
  rw [rangeSize_eq haddr hsize]
  have hlong : pastLast addr size ≤ firstPage addr + word + 0x1000 := by
    unfold pastLast firstPage word at *
    omega
  generalize pastLast addr size = m at *
  generalize firstPage addr = b at *
  unfold word at *
  omega

theorem firstPage_le : firstPage addr ≤ pastLast addr size := by
  unfold firstPage pastLast
  omega

variable {type : FaultType} {rw : SegRw}

theorem FaultRun.of_parts (undone : List (Part Ptr)) :
    (FaultRun.of type rw r undone).calls.map FaultCall.toPart = r.parts := by
  rw [FaultRun.of, map_map]
  exact map_id _

theorem FaultOk.hint {hint : Option Ptr} {r : FaultRun Ptr}
    (h : FaultOk { s with aSeglast := hint } cells answer addr size type rw r) :
    FaultOk s cells answer addr size type rw r := by
  obtain ⟨reached, hfrom, hto, honce, hwithin, houtcome⟩ := h.handled
  refine ⟨⟨reached, hfrom, hto, honce, hwithin, ?_⟩, h.whole, h.kinds, h.counted, h.undone⟩
  generalize hres : r.res = res at houtcome
  cases houtcome with
  | done hall => exact .done hall
  | nomap hall hnone => exact .nomap hall hnone
  | failed hlength hall hfails => exact .failed hlength hall hfails

theorem FaultaOk.hint {hint : Option Ptr}
    (h : FaultaOk { s with aSeglast := hint } cells answer addr size r) :
    FaultaOk s cells answer addr size r := by
  obtain ⟨reached, hfrom, hto, honce, hwithin, houtcome⟩ := h.handled
  refine ⟨⟨reached, hfrom, hto, honce, hwithin, ?_⟩, h.pages, h.counted⟩
  generalize hres : r.res = res at houtcome
  cases houtcome with
  | done hall => exact .done hall
  | nomap hall hnone => exact .nomap hall hnone
  | failed hlength hall hfails => exact .failed hlength hall hfails

theorem FaultOk.of_nowhere (hnone : ∀ p ∈ cells, ¬ Contains s (firstPage addr) p) :
    FaultOk s cells answer addr size type rw ⟨FC_NOMAP, [], [], false⟩ := by
  refine ⟨⟨_, Handled.nowhere hnone firstPage_le⟩, nofun, nofun, rfl, ?_⟩
  split_ifs
  · rfl
  · rfl

/-- What the loop has split and what has been unlocked make up a call of `as_fault`. -/
theorem Splits.ok (h : Splits s cells (pastLast addr size) answer (firstPage addr) r) :
    FaultOk s cells answer addr size type rw
      (FaultRun.of type rw r (if r.res ≠ 0 ∧ type = .fSoftlock then granted answer r.parts else [])) := by
  refine ⟨?_, fun call hcall => ?_, fun call hcall => ?_, h.counted, ?_⟩
  · rw [FaultRun.of_parts]
    exact h.handled
  · obtain ⟨part, hpart, rfl⟩ := mem_map.mp hcall
    exact h.whole part hpart
  · obtain ⟨part, hpart, rfl⟩ := mem_map.mp hcall
    exact ⟨rfl, rfl⟩
  · rw [FaultRun.of_parts]
    unfold FaultRun.of
    split_ifs
    · rfl
    · rfl

/-- A page of a segment is all its own. -/
theorem Populated.page_le (h : Populated kernel s cells) (hp : p ∈ cells) (hin : Contains s raddr p)
    (haligned : raddr % 0x1000 = 0) : raddr + PAGESIZE ≤ s.sEnd p := by
  have hhigh := hin.2
  have hpages := h.aligned p hp
  rw [h.sEnd_eq hp] at hhigh ⊢
  unfold PAGESIZE
  omega

/-- Page by page, through a range that is counted rightly. -/
theorem faultaLoop_handled (h : Populated kernel s cells) (hseg : seg ∈ cells)
    (hlow : s.sBase seg ≤ raddr) (hhigh : raddr ≤ s.sEnd seg) (haligned : raddr % 0x1000 = 0)
    (hpos : 0 < n) (hsize : n * PAGESIZE < word) (hfuel : n ≤ fuel) :
    ∃ r, faultaLoop s fuel answer seg raddr (n * PAGESIZE) = some r ∧
      (∃ reached, Handled s cells raddr (raddr + n * PAGESIZE) answer r.parts r.res reached) ∧
      (∀ part ∈ r.parts, part.len = PAGESIZE) ∧ r.below = false := by
  induction fuel generalizing n seg raddr answer with
  | zero => omega
  | succ fuel ih =>
    obtain ⟨n, rfl⟩ : ∃ m, n = m + 1 := ⟨n - 1, by omega⟩
    have hcount : (n + 1) * PAGESIZE = n * PAGESIZE + PAGESIZE := succ_mul n PAGESIZE
    rw [faultaLoop]
    cases hnext : nextSeg s seg raddr with
    | none =>
      exact ⟨_, rfl, ⟨_, Handled.nowhere (h.nextSeg_none hseg hlow hhigh hnext)
        (le_add_right _ _)⟩, nofun, rfl⟩
    | some q =>
      obtain ⟨hq, hin⟩ := (h.nextSeg_iff hseg hlow hhigh).mp hnext
      have hpage := h.page_le hq hin haligned
      have hend := h.sEnd_lt hq
      have hstep : add raddr PAGESIZE = raddr + PAGESIZE := add_eq (by omega)
      have hleft : sub ((n + 1) * PAGESIZE) PAGESIZE = n * PAGESIZE := by
        rw [sub_eq (by omega) hsize, hcount, Nat.add_sub_cancel]
      dsimp only
      rw [hleft, hstep, decide_eq_false (by omega)]
      by_cases hzero : answer 0 = 0
      · rw [if_neg (not_not.mpr hzero)]
        by_cases hlast : n = 0
        · rw [hlast, Nat.zero_mul, if_pos rfl]
          refine ⟨_, rfl, ⟨_, Handled.single hq hin.1 hpage (by omega) ?_⟩,
            fun part hpart => ?_, rfl⟩
          · rw [Nat.zero_add, Nat.one_mul]
            exact .done fun k hk => by
              rw [lt_one_iff.mp hk]
              exact hzero
          · rw [mem_singleton.mp hpart]
        · have hmore : n * PAGESIZE ≠ 0 := by
            unfold PAGESIZE
            omega
          rw [if_neg hmore]
          obtain ⟨r, hrun, ⟨reached, hrest⟩, hpages, hbelow⟩ :=
            @ih (later answer) q (raddr + PAGESIZE) n hq
              (hin.1.trans (le_add_right raddr PAGESIZE)) hpage
              (by unfold PAGESIZE; omega) (by omega) (by omega) (by omega)
          rw [hrun]
          rw [Nat.add_assoc, Nat.add_comm PAGESIZE, ← hcount] at hrest
          refine ⟨_, rfl, ⟨reached, hrest.behind hq hin.1 hpage hzero⟩, fun part hpart => ?_, hbelow⟩
          rcases mem_cons.mp hpart with rfl | hpart
          · rfl
          · exact hpages part hpart
      · rw [if_pos hzero]
        refine ⟨_, rfl, ⟨_, Handled.single hq hin.1 hpage (by omega) (.failed (k := 0) rfl
          (fun j hj => absurd hj (not_lt_zero j)) hzero)⟩, fun part hpart => ?_, rfl⟩
        rw [mem_singleton.mp hpart]

theorem faultaLoop_first (hin : raddr < s.sEnd p) : faultaLoop s (fuel + 1) answer p raddr rsize =
      if answer 0 ≠ 0 then some ⟨answer 0, raddr, [⟨p, raddr, PAGESIZE⟩], false⟩
      else if sub rsize PAGESIZE = 0 then
        some ⟨0, add raddr PAGESIZE, [⟨p, raddr, PAGESIZE⟩], decide (rsize < PAGESIZE)⟩
      else
        (faultaLoop s fuel (later answer) p (add raddr PAGESIZE) (sub rsize PAGESIZE)).map
          (Faulted.behind ⟨p, raddr, PAGESIZE⟩ (decide (rsize < PAGESIZE))) := by
  rw [faultaLoop, nextSeg_same hin]

variable [DecidableEq Ptr] [Fintype Ptr]

theorem asSegat_hint (s : As Ptr) (addr : Nat) :
    ∃ hint, (asSegat s addr).2 = { s with aSeglast := hint } := by
  have hwith : ∃ hint, withHint s = { s with aSeglast := hint } := by
    unfold withHint
    split_ifs
    · exact ⟨_, rfl⟩
    · exact ⟨s.aSeglast, rfl⟩
  obtain ⟨hint, hwith⟩ := hwith
  unfold asSegat
  rw [hwith]
  cases hint with
  | none => exact ⟨none, rfl⟩
  | some sseg =>
    dsimp only
    cases segatLoop { s with aSeglast := some sseg } addr sseg (Fintype.card Ptr) sseg with
    | none => exact ⟨some sseg, rfl⟩
    | some seg => exact ⟨some seg, rfl⟩

section

variable (h : Populated kernel s cells)
include h

theorem Populated.segat_none (hnone : ∀ p ∈ cells, ¬ Contains s addr p) :
    ∃ t, asSegat s addr = (none, t) := by
  cases hsegat : (asSegat s addr).1 with
  | none => exact ⟨(asSegat s addr).2, Prod.ext hsegat rfl⟩
  | some p =>
    obtain ⟨hp, hlow, hhigh⟩ := (h.toGood.segat.1 p).mp hsegat
    rw [← h.sEnd_eq hp] at hhigh
    exact absurd ⟨hlow, hhigh⟩ (hnone p hp)

theorem Populated.segat_some (hp : p ∈ cells) (hin : Contains s addr p) :
    ∃ hint, asSegat s addr = (some p, { s with aSeglast := hint }) ∧
      Populated kernel { s with aSeglast := hint } cells := by
  obtain ⟨hint, hhint⟩ := asSegat_hint s addr
  have hhigh := hin.2
  rw [h.sEnd_eq hp] at hhigh
  have hfound := (h.toGood.segat.1 p).mpr ⟨hp, hin.1, hhigh⟩
  have hgood : Good kernel (asSegat s addr).2 cells := h.toGood.segat.2
  rw [hhint] at hgood
  exact ⟨hint, Prod.ext hfound hhint, hgood, h.bytes⟩

omit [DecidableEq Ptr] in
/-- The loop over a range that does not reach the end of the addresses, from its first segment on. -/
theorem faultLoop_range (hp : p ∈ cells)
    (hin : Contains s (firstPage addr) p) (hstop : pastLast addr size < word) :
    ∃ r, faultLoop s (Fintype.card Ptr + 1) answer p (firstPage addr) (rangeSize addr size) = some r ∧
      Splits s cells (pastLast addr size) answer (firstPage addr) r := by
  have hlength := h.length_le
  have hle : firstPage addr ≤ pastLast addr size := firstPage_le
  obtain ⟨front, back, rfl⟩ := append_of_mem hp
  rw [length_append, length_cons] at hlength
  exact faultLoop_turn (nextSeg_same hin.2) hin (h.sEnd_lt hp)
    (by rw [rangeSize_fits hstop]; omega) hstop hp
    fun hmore => faultLoop_splits h hmore hstop (by omega)

/-- A range that does not reach the end of the addresses is handled rightly. -/
theorem asFault_ok (hstop : pastLast addr size < word) :
    ∃ r t, asFault s answer addr size type rw = some (r, t) ∧
      FaultOk s cells answer addr size type rw r := by
  by_cases hfound : ∃ p ∈ cells, Contains s (firstPage addr) p
  · obtain ⟨p, hp, hin⟩ := hfound
    obtain ⟨hint, hsegat, ht⟩ := h.segat_some hp hin
    obtain ⟨r, hrun, hsplits⟩ := @faultLoop_range Ptr _ kernel cells answer p addr size _ ht hp hin hstop
    have hok : FaultOk { s with aSeglast := hint } cells answer addr size type rw _ := hsplits.ok
    refine ⟨_, { s with aSeglast := hint }, ?_, hok.hint⟩
    rw [asFault, pageMask_eq, hsegat]
    dsimp only
    rw [hrun, Option.bind_some]
    by_cases hundo : r.res ≠ 0 ∧ type = .fSoftlock
    · have hlength := faultLoop_length hrun
      rw [if_pos hundo, undoLoop_granted ht hsplits hundo.1 hp hin.1 hin.2.le (by omega), if_pos hundo]
      rfl
    · rw [if_neg hundo, if_neg hundo]
  · have hnone : ∀ p ∈ cells, ¬ Contains s (firstPage addr) p := fun p hp hin => hfound ⟨p, hp, hin⟩
    obtain ⟨t, hsegat⟩ := h.segat_none hnone
    refine ⟨_, t, ?_, FaultOk.of_nowhere hnone⟩
    rw [asFault, pageMask_eq, hsegat]

variable (hp : p ∈ cells) (hin : Contains s (firstPage addr) p)
  (haddr : addr < word) (hsize : size < word) (hstop : word ≤ pastLast addr size)
include hp hin haddr hsize hstop

omit [DecidableEq Ptr] [Fintype Ptr] in
/-- The first turn over a range that reaches the end of the addresses: everything is passed to the
first segment. -/
theorem faultLoop_wraps :
    faultLoop s (fuel + 1) answer p (firstPage addr) (rangeSize addr size) = some (if answer 0 ≠ 0 then
        ⟨answer 0, firstPage addr, [⟨p, firstPage addr, rangeSize addr size⟩], false⟩
      else ⟨0, add (firstPage addr) (rangeSize addr size),
        [⟨p, firstPage addr, rangeSize addr size⟩], false⟩) := by
  have haligned := h.aligned p hp
  have hend := h.sEnd_lt hp
  have hlt := hin.2
  have hnot : ¬ s.sEnd p < add (firstPage addr) (rangeSize addr size) := by
    rw [rangeSize_eq haddr hsize]
    rw [h.sEnd_eq hp] at hend hlt ⊢
    unfold pastLast firstPage add word at *
    omega
  have hpart : partSize s p (firstPage addr) (rangeSize addr size) = rangeSize addr size := if_neg hnot
  have hlow : rangeSize addr size < word := Nat.mod_lt _ (by decide)
  have hleft : sub (rangeSize addr size) (rangeSize addr size) = 0 := by
    rw [sub_eq le_rfl hlow, Nat.sub_self]
  rw [faultLoop, nextSeg_same hlt]
  dsimp only
  rw [hpart, hleft, decide_eq_false (lt_irrefl _)]
  by_cases hzero : answer 0 ≠ 0
  · rw [if_pos hzero, if_pos hzero]
  · rw [if_neg hzero, if_neg hzero, if_pos rfl]

theorem asFault_wraps : ∃ t, asFault s answer addr size type rw = some (if answer 0 ≠ 0 then
      FaultRun.of type rw ⟨answer 0, firstPage addr, [⟨p, firstPage addr, rangeSize addr size⟩], false⟩ []
    else FaultRun.of type rw ⟨0, add (firstPage addr) (rangeSize addr size),
      [⟨p, firstPage addr, rangeSize addr size⟩], false⟩ [], t) := by
  obtain ⟨hint, hsegat, ht⟩ := h.segat_some hp hin
  refine ⟨{ s with aSeglast := hint }, ?_⟩
  rw [asFault, pageMask_eq, hsegat]
  dsimp only
  rw [faultLoop_wraps ht hp hin haddr hsize hstop, Option.bind_some]
  by_cases hzero : answer 0 ≠ 0
  · rw [if_pos hzero, if_pos hzero]
    have hundo : undoLoop { s with aSeglast := hint } (firstPage addr) (Fintype.card Ptr + 2) p
        (firstPage addr) = some [] := if_pos le_rfl
    rw [hundo]
    split_ifs
    · rfl
    · rfl
  · rw [if_neg hzero, if_neg hzero]
    exact if_neg fun hundo => hundo.1 rfl

end

/-- `as_fault` handles a range rightly, unless it reaches the end of the addresses. -/
theorem asFault_iff (h : Populated kernel s cells) (haddr : addr < word) (hsize : size < word) :
    (∃ r t, asFault s answer addr size type rw = some (r, t) ∧
      FaultOk s cells answer addr size type rw r) ↔
    (pastLast addr size < word ∨ ∀ p ∈ cells, Contains s (firstPage addr) p →
      pastLast addr size = word + s.sEnd p ∧ answer 0 ≠ 0) := by
  by_cases hstop : pastLast addr size < word
  · exact iff_of_true (asFault_ok h hstop) (.inl hstop)
  by_cases hfound : ∃ p ∈ cells, Contains s (firstPage addr) p
  · obtain ⟨p, hp, hin⟩ := hfound
    have hwraps : word ≤ pastLast addr size := not_lt.mp hstop
    have hend := h.sEnd_lt hp
    have hlt := hin.2
    have hparts : ∀ r : Faulted Ptr, r.parts = [⟨p, firstPage addr, rangeSize addr size⟩] →
        FaultOk s cells answer addr size type rw (FaultRun.of type rw r []) →
        (∃ reached, Handled s cells (firstPage addr) (pastLast addr size) answer
          [⟨p, firstPage addr, rangeSize addr size⟩] r.res reached) ∧
        firstPage addr + rangeSize addr size = s.sEnd p := by
      intro r hr hok
      have hhandled := hok.handled
      rw [FaultRun.of_parts, hr] at hhandled
      obtain ⟨reached, hreached⟩ := hhandled
      have hwithin := (hreached.within _ (.head _)).2.2
      have hwhole := hok.whole ⟨⟨p, firstPage addr, rangeSize addr size⟩, type, rw⟩ (by
        rw [FaultRun.of, hr]
        exact (.head _))
      exact ⟨⟨reached, hreached⟩, hwhole.resolve_right (by dsimp only at hwithin ⊢; omega)⟩
    obtain ⟨t, hrun⟩ : ∃ t, asFault s answer addr size type rw = some (_, t) :=
      asFault_wraps h hp hin haddr hsize hwraps
    rw [hrun]
    split_ifs with hzero
    · constructor
      · rintro ⟨r, t', heq, hok⟩
        rw [← (Prod.mk.inj (Option.some.inj heq)).1] at hok
        obtain ⟨-, hexact⟩ := hparts _ rfl hok
        refine .inr fun q hq hinq => ?_
        rw [h.one hq hp hinq hin]
        refine ⟨?_, hzero⟩
        exact (rangeSize_exact haddr hsize hwraps hlt hend).mp hexact
      · rintro (hfits | hodd)
        · exact absurd hfits hstop
        · refine ⟨_, _, rfl, ?_⟩
          have hexact := (rangeSize_exact haddr hsize hwraps hlt hend).mpr (hodd p hp hin).1
          refine ⟨⟨firstPage addr + rangeSize addr size, ?_⟩, fun call hcall => ?_,
            fun call hcall => ?_, rfl, ?_⟩
          · exact Handled.single hp hin.1 hexact.le (by omega) (.failed (k := 0) rfl
              (fun j hj => absurd hj (not_lt_zero j)) hzero)
          · rw [mem_singleton.mp hcall]
            exact .inl hexact
          · rw [mem_singleton.mp hcall]
            exact ⟨rfl, rfl⟩
          · rw [FaultRun.of_parts, granted, if_neg hzero, granted]
            split_ifs
            · rfl
            · rfl
    · refine iff_of_false ?_ ?_
      · rintro ⟨r, t', heq, hok⟩
        rw [← (Prod.mk.inj (Option.some.inj heq)).1] at hok
        obtain ⟨⟨reached, hhandled⟩, hexact⟩ := hparts _ rfl hok
        exact hhandled.not_whole (le_add_right _ _) (by dsimp only; omega)
      · rintro (hfits | hodd)
        · exact hstop hfits
        · exact hzero (hodd p hp hin).2
  · have hnone : ∀ p ∈ cells, ¬ Contains s (firstPage addr) p := fun p hp hin => hfound ⟨p, hp, hin⟩
    obtain ⟨t, hsegat⟩ := h.segat_none hnone
    refine iff_of_true ⟨_, t, ?_, FaultOk.of_nowhere hnone⟩
      (.inr fun p hp hin => absurd hin (hnone p hp))
    rw [asFault, pageMask_eq, hsegat]

/-! ### `as_faulta` -/

/-- A range is counted as nothing, or as a page, when it is nothing or goes all around. -/
theorem rangeSize_short (haddr : addr < word) (hsize : size < word)
    (hcounted : ¬ (firstPage addr < pastLast addr size ∧ pastLast addr size - firstPage addr < word)) :
    (firstPage addr = pastLast addr size ∨ firstPage addr + word ≤ pastLast addr size) ∧
      (rangeSize addr size = 0 ∨ rangeSize addr size = PAGESIZE) ∧
      (rangeSize addr size = PAGESIZE → firstPage addr ≠ pastLast addr size) := by
  rw [rangeSize_eq haddr hsize]
  have hlong : pastLast addr size ≤ firstPage addr + word + 0x1000 := by
    unfold pastLast firstPage word at *
    omega
  have hpages : firstPage addr % 0x1000 = 0 ∧ pastLast addr size % 0x1000 = 0 :=
    ⟨mul_mod_left _ _, mul_mod_left _ _⟩
  have hle : firstPage addr ≤ pastLast addr size := firstPage_le
  generalize pastLast addr size = m at *
  generalize firstPage addr = b at *
  unfold PAGESIZE word at *
  omega

/-- `as_faulta` handles a range rightly, unless its size is counted as nothing, or the range goes all
around. -/
theorem asFaulta_iff (h : Populated kernel s cells) (haddr : addr < word) (hsize : size < word) :
    (∃ r t, asFaulta s answer addr size = some (r, t) ∧ FaultaOk s cells answer addr size r) ↔
    ∀ p ∈ cells, Contains s (firstPage addr) p → firstPage addr < pastLast addr size ∧
      (pastLast addr size - firstPage addr < word ∨ answer 0 ≠ 0) := by
  by_cases hfound : ∃ p ∈ cells, Contains s (firstPage addr) p
  · obtain ⟨p, hp, hin⟩ := hfound
    obtain ⟨hint, hsegat, ht⟩ := h.segat_some hp hin
    have haligned : firstPage addr % 0x1000 = 0 := mul_mod_left _ _
    have hpage := h.page_le hp hin haligned
    have hend := h.sEnd_lt hp
    have hcall : asFaulta s answer addr size =
        (faultaLoop { s with aSeglast := hint } 0x100001 answer p (firstPage addr)
          (rangeSize addr size)).map fun r => (r, { s with aSeglast := hint }) := by
      rw [asFaulta, pageMask_eq, hsegat]
    by_cases hcounted : firstPage addr < pastLast addr size ∧ pastLast addr size - firstPage addr < word
    · refine iff_of_true ?_ fun q hq hinq => ⟨hcounted.1, .inl hcounted.2⟩
      obtain ⟨n, hn⟩ : ∃ n, pastLast addr size - firstPage addr = n * PAGESIZE :=
        ⟨(addr + size + 0xfff) / 0x1000 - addr / 0x1000, (Nat.sub_mul _ _ _).symm⟩
      have hrange : rangeSize addr size = n * PAGESIZE := by
        rw [rangeSize_eq haddr hsize, mod_eq_of_lt hcounted.2, hn]
      have hpages : 0 < n ∧ n ≤ 0x100001 := by
        unfold PAGESIZE word at *
        omega
      obtain ⟨r, hrun, ⟨reached, hhandled⟩, hlens, hbelow⟩ := @faultaLoop_handled Ptr _ kernel cells
        answer p (firstPage addr) n 0x100001 ht hp hin.1 hin.2.le haligned hpages.1 (by omega) hpages.2
      rw [show firstPage addr + n * PAGESIZE = pastLast addr size by omega] at hhandled
      have hok : FaultaOk { s with aSeglast := hint } cells answer addr size r :=
        ⟨⟨reached, hhandled⟩, hlens, hbelow⟩
      refine ⟨r, { s with aSeglast := hint }, ?_, hok.hint⟩
      rw [hcall, hrange, hrun]
      rfl
    · obtain ⟨hodd, hrange, hnone⟩ := rangeSize_short haddr hsize hcounted
      rw [hcall, show (0x100001 : Nat) = 0x100000 + 1 from rfl,
        faultaLoop_first (show firstPage addr < As.sEnd { s with aSeglast := hint } p from hin.2)]
      by_cases hzero : answer 0 = 0
      · rw [if_neg (not_not.mpr hzero)]
        refine iff_of_false ?_ fun hall => ?_
        · rintro ⟨r, t, heq, hok⟩
          split_ifs at heq with hlast
          · rw [← (Prod.mk.inj (Option.some.inj heq)).1] at hok
            obtain ⟨reached, hhandled⟩ := hok.handled
            have hsome : rangeSize addr size = PAGESIZE := hrange.resolve_left fun hzero => by
              rw [hzero] at hlast
              exact absurd hlast (by decide)
            refine hhandled.not_whole (le_add_right _ _) ?_
            dsimp only
            omega
          · obtain ⟨r', hbehind, hr⟩ := Option.map_eq_some_iff.mp heq
            obtain ⟨rest, -, rfl⟩ := Option.map_eq_some_iff.mp hbehind
            have hbelow := hok.counted
            rw [← (Prod.mk.inj hr).1] at hbelow
            have hshort : rangeSize addr size < PAGESIZE := by
              rcases hrange with hnil | hpage
              · rw [hnil]
                decide
              · rw [hpage] at hlast
                exact absurd rfl hlast
            rw [Faulted.behind, decide_eq_true hshort, Bool.true_or] at hbelow
            cases hbelow
        · obtain ⟨hlt, hshort⟩ := hall p hp hin
          exact hcounted ⟨hlt, hshort.resolve_right (not_not.mpr hzero)⟩
      · rw [if_pos hzero]
        rcases hodd with hnil | hlong
        · refine iff_of_false ?_ fun hall => ?_
          · rintro ⟨r, t, heq, hok⟩
            rw [← (Prod.mk.inj (Option.some.inj heq)).1] at hok
            obtain ⟨reached, hhandled⟩ := hok.handled
            have honce := hhandled.once (firstPage addr)
            have hto := hhandled.to_stop
            have hpos : 0 < PAGESIZE := by decide
            rw [has_count, if_pos ⟨le_rfl, Nat.lt_add_of_pos_right hpos⟩, if_neg (by omega)] at honce
            exact absurd honce (by decide)
          · exact Nat.ne_of_lt (hall p hp hin).1 hnil
        · refine iff_of_true ⟨_, _, rfl, ⟨firstPage addr + PAGESIZE, ?_⟩, fun part hpart => ?_, rfl⟩
            fun q hq hinq => ⟨by unfold word at hlong; omega, .inr hzero⟩
          · exact Handled.single hp hin.1 hpage (by omega) (.failed (k := 0) rfl
              (fun j hj => absurd hj (not_lt_zero j)) hzero)
          · rw [mem_singleton.mp hpart]
  · have hnone : ∀ p ∈ cells, ¬ Contains s (firstPage addr) p := fun p hp hin => hfound ⟨p, hp, hin⟩
    obtain ⟨t, hsegat⟩ := h.segat_none hnone
    refine iff_of_true ⟨⟨FC_NOMAP, firstPage addr, [], false⟩, t, ?_, ⟨_, Handled.nowhere hnone
      firstPage_le⟩, nofun, rfl⟩
      fun p hp hin => absurd hin (hnone p hp)
    rw [asFaulta, pageMask_eq, hsegat]

/-- `as_fault` and `as_faulta` do what they are to do, but for ranges that wrap at the end of the
addresses and, with `as_faulta`, those that are nothing. -/
theorem faults_iff (h : Populated kernel s cells) (haddr : addr < word) (hsize : size < word) :
    ((∃ r t, asFault s answer addr size type rw = some (r, t) ∧
        FaultOk s cells answer addr size type rw r) ↔
      (pastLast addr size < word ∨ ∀ p ∈ cells, Contains s (firstPage addr) p →
        pastLast addr size = word + s.sEnd p ∧ answer 0 ≠ 0)) ∧
    ((∃ r t, asFaulta s answer addr size = some (r, t) ∧ FaultaOk s cells answer addr size r) ↔
      ∀ p ∈ cells, Contains s (firstPage addr) p → firstPage addr < pastLast addr size ∧
        (pastLast addr size - firstPage addr < word ∨ answer 0 ≠ 0)) :=
  ⟨asFault_iff h haddr hsize, asFaulta_iff h haddr hsize⟩

def onePage : As Unit := ⟨some (), none, fun _ => 0x1000, fun _ => 0x1000, id, id, fun _ => true⟩

theorem onePage_populated : Populated false onePage [()] where
  head := rfl
  circle := ⟨⟨rfl, rfl⟩, by decide⟩
  sorted := pairwise_singleton _ _
  fits := by decide
  aligned := by decide
  user _ := by decide
  used := by decide
  hint _ hp := absurd hp (by simp [onePage])
  bytes := by decide

/-- Three bytes from the middle of the page on; the fault routine succeeds. -/
theorem faults_iff_onePage : ∃ r t,
    asFault onePage (fun _ => 0) 0x1800 3 .fSoftlock .sRead = some (r, t) ∧
      FaultOk onePage [()] (fun _ => 0) 0x1800 3 .fSoftlock .sRead r :=
  (faults_iff onePage_populated (by decide) (by decide)).1.mpr (.inl (by decide))

/-- All from the page to the end of the addresses is passed to its segment; with no bytes the page is
passed, and the size goes below zero. -/
theorem faults_stray :
    (¬ ∃ r t, asFault onePage (fun _ => 0) 0x1000 0xfffff000 .fSoftlock .sRead = some (r, t) ∧
      FaultOk onePage [()] (fun _ => 0) 0x1000 0xfffff000 .fSoftlock .sRead r) ∧
    ¬ ∃ r t, asFaulta onePage (fun _ => 0) 0x1000 0 = some (r, t) ∧
      FaultaOk onePage [()] (fun _ => 0) 0x1000 0 r := by
  have hin : Contains onePage (firstPage 0x1000) () := by decide
  constructor
  · intro hright
    rcases (asFault_iff onePage_populated (by decide) (by decide)).mp hright with hfits | hodd
    · exact absurd hfits (by decide)
    · exact (hodd () (.head _) hin).2 rfl
  · intro hright
    have hall := (asFaulta_iff onePage_populated (by decide) (by decide)).mp hright
    exact absurd (hall () (.head _) hin).1 (by decide)

end Svr42.Seg


import Svr42.S5Blocks

/-! The free list of an S5 file system over all orders of allocations and releases: when it names every
free block once, and what breaks it. -/

namespace Svr42.S5
open Bool Function Int List Nat Option

variable {Proc : Type} {s t : State Proc} {p q : Proc} {bno b c n : Nat} {nfree : Int}
  {free free' : Nat → Nat} {block block' : Nat → Fblk} {l : List Nat}

/-! ### The chain -/

def upper (free : Nat → Nat) : Nat → List Nat
  | 0 => []
  | n + 1 => free (n + 1) :: upper free n

/-- A part of the free list with what it leads on to names these blocks. -/
inductive Chain (block : Nat → Fblk) : Int → (Nat → Nat) → List Nat → Prop
  | last {n : Nat} {free : Nat → Nat} (hn : n < NICFREE) (hend : free 0 = 0) :
      Chain block (n + 1) free (upper free n)
  | more {n : Nat} {free : Nat → Nat} {l : List Nat} (hn : n < NICFREE) (hmore : free 0 ≠ 0)
      (hrest : Chain block (block (free 0)).dfNfree (block (free 0)).dfFree l) :
      Chain block (n + 1) free (upper free n ++ free 0 :: l)

def Named (block : Nat → Fblk) (nfree : Int) (free : Nat → Nat) (l : List Nat) : Prop :=
  nfree = 0 ∧ l = [] ∨ Chain block nfree free l

theorem upper_congr (h : ∀ i, i ≤ n → free' i = free i) : upper free' n = upper free n := by
  induction n with
  | zero => rfl
  | succ n ih =>
    rw [upper, upper, h (n + 1) (Nat.le_refl _), ih fun i hi => h i (le_succ_of_le hi)]

namespace Chain

section

variable (h : Chain block nfree free l)
include h

theorem range : 0 < nfree ∧ nfree ≤ NICFREE := by
  cases h with
  | last hn _ => omega
  | more hn _ _ => omega

theorem congr (hfree : ∀ i, i < NICFREE → free' i = free i)
    (hblock : ∀ b ∈ l, block' b = block b) : Chain block' nfree free' l := by
  induction h generalizing free' with
  | @last n free hn hend =>
    have hsame : upper free' n = upper free n :=
      upper_congr fun i hi => hfree i (Nat.lt_of_le_of_lt hi hn)
    rw [← hsame]
    exact Chain.last hn ((hfree 0 (by decide)).trans hend)
  | @more n free l hn hmore _ ih =>
    have hsame : upper free' n = upper free n :=
      upper_congr fun i hi => hfree i (Nat.lt_of_le_of_lt hi hn)
    have hzero : free' 0 = free 0 := hfree 0 (by decide)
    have hlead : block' (free' 0) = block (free 0) := by
      rw [hzero]
      exact hblock _ (mem_append_right _ (.head _))
    rw [← hsame, ← hzero]
    refine Chain.more hn (by rwa [hzero]) ?_
    rw [hlead]
    exact ih (fun _ _ => rfl) fun b hb =>
      hblock b (mem_append_right _ (.tail _ hb))

/-- A block put on top. -/
theorem push (hroom : nfree < NICFREE) :
    Chain block (nfree + 1) (update free nfree.toNat b) (b :: l) := by
  cases h with
  | @last n _ hn hend =>
    have hn' : n + 1 < NICFREE := by omega
    have hzero : update free (n + 1) b 0 = 0 := by
      rw [update_of_ne (by omega)]
      exact hend
    have hlast : Chain block _ _ _ := Chain.last hn' hzero
    have htop : upper (update free (n + 1) b) (n + 1) = b :: upper free n := by
      rw [upper, update_self, upper_congr fun i hi => update_of_ne (by omega) _ _]
    rw [htop] at hlast
    exact hlast
  | @more n _ l hn hmore hrest =>
    have hn' : n + 1 < NICFREE := by omega
    have hzero : update free (n + 1) b 0 = free 0 := update_of_ne (by omega) _ _
    have hlead : update free (n + 1) b 0 ≠ 0 := by
      rw [hzero]
      exact hmore
    have hpart : Chain block (block (update free (n + 1) b 0)).dfNfree
        (block (update free (n + 1) b 0)).dfFree l := by
      rw [hzero]
      exact hrest
    have hall : Chain block _ _ _ := Chain.more hn' hlead hpart
    have htop : upper (update free (n + 1) b) (n + 1) = b :: upper free n := by
      rw [upper, update_self, upper_congr fun i hi => update_of_ne (by omega) _ _]
    rw [htop, hzero] at hall
    exact hall

end

theorem pop (h : Chain block (n + 1) free l) : (n = 0 ∧ free 0 = 0 ∧ l = []) ∨
      (n = 0 ∧ free 0 ≠ 0 ∧ ∃ rest, l = free 0 :: rest ∧
        Chain block (block (free 0)).dfNfree (block (free 0)).dfFree rest) ∨
      (n ≠ 0 ∧ ∃ rest, l = free n :: rest ∧ Chain block n free rest) := by
  obtain ⟨m, hm⟩ : ∃ m : Int, m = n + 1 := ⟨_, rfl⟩
  rw [← hm] at h
  cases h with
  | @last k _ hk hend =>
    obtain rfl : k = n := by omega
    cases k with
    | zero => exact .inl ⟨rfl, hend, rfl⟩
    | succ k =>
      refine .inr (.inr ⟨succ_ne_zero k, upper free k, rfl, ?_⟩)
      rw [natCast_succ]
      exact Chain.last (lt_of_succ_lt hk) hend
  | @more k _ l hk hmore hrest =>
    obtain rfl : k = n := by omega
    cases k with
    | zero => exact .inr (.inl ⟨rfl, hmore, l, rfl, hrest⟩)
    | succ k =>
      refine .inr (.inr ⟨succ_ne_zero k, upper free k ++ free 0 :: l, rfl, ?_⟩)
      rw [natCast_succ]
      exact Chain.more (lt_of_succ_lt hk) hmore hrest

end Chain

theorem Named.congr (h : Named block nfree free l) (hfree : ∀ i, i < NICFREE → free' i = free i)
    (hblock : ∀ b ∈ l, block' b = block b) : Named block' nfree free' l := by
  rcases h with hnil | hchain
  · exact .inl hnil
  · exact .inr (hchain.congr hfree hblock)

/-! ### What holds between the steps -/

def Point.locks : Point → Bool
  | .bread _ => true
  | .spill _ => true
  | _ => false

def IsFree (s : State Proc) (b : Nat) : Prop := ¬ badblock s b ∧ s.taken b = 0

/-- The free list names these blocks. While a process reads the part it goes on with, the list is that
part, and `s_tfree` still counts the block it was read from. -/
def FreeList (s : State Proc) (l : List Nat) : Prop :=
  ((∀ p bno, s.point p ≠ .bread bno) ∧ Named s.block s.sNfree s.sFree l ∧ s.sTfree = l.length) ∨
    ∃ p bno, s.point p = .bread bno ∧ Chain s.block (s.block bno).dfNfree (s.block bno).dfFree l ∧
      s.sTfree = l.length + 1

/-- The free list names every free block once, and no block has been handed out twice. -/
structure Sound (s : State Proc) : Prop where
  nfree : 0 ≤ s.sNfree ∧ s.sNfree ≤ NICFREE
  list : ∃ l, FreeList s l ∧ l.Nodup ∧ ∀ b, b ∈ l ↔ IsFree s b
  once : ∀ b, s.taken b ≤ 1

/-- How the calls in progress fit the lock and the blocks they are for. -/
structure Calls (s : State Proc) : Prop where
  locked : s.sFlock = true ↔ ∃ p, (s.point p).locks = true
  alone : ∀ p q, (s.point p).locks = true → (s.point q).locks = true → p = q
  held : ∀ p b, (s.point p).carries = some b → ¬ badblock s b ∧ s.taken b = 1
  apart : ∀ p q b, (s.point p).carries = some b → (s.point q).carries = some b → p = q
  empty : ∀ p b, s.point p = .bread b → s.sNfree = 0
  full : ∀ p b, s.point p = .spill b → s.sNfree = NICFREE

structure Inv (s : State Proc) : Prop where
  isize : 0 < s.sIsize
  sound : Sound s
  calls : Calls s

theorem IsFree.ne_zero (hisize : 0 < s.sIsize) (h : IsFree s b) : b ≠ 0 := by
  rintro rfl
  exact h.1 (.inl hisize)

theorem Calls.unlocked (h : Calls s) (hflock : s.sFlock ≠ true) (q : Proc) :
    (s.point q).locks = false := by
  rw [← not_eq_true]
  exact fun hlocks => hflock (h.locked.mpr ⟨q, hlocks⟩)

theorem FreeList.named (h : FreeList s l) (hnobody : ∀ q, (s.point q).locks = false) :
    Named s.block s.sNfree s.sFree l ∧ s.sTfree = l.length := by
  rcases h with ⟨-, hnamed⟩ | ⟨p, bno, hp, -⟩
  · exact hnamed
  · have hlocks := hnobody p
    rw [hp] at hlocks
    cases hlocks

/-! ### One call goes on -/

/-- The free blocks once the first has been taken. -/
theorem free_take (hnodup : (b :: l).Nodup) (hfree : ∀ c, c ∈ b :: l ↔ IsFree s c) (c : Nat) :
    c ∈ l ↔ IsFree (take s b) c := by
  have hb : b ∉ l := (nodup_cons.mp hnodup).1
  change _ ↔ ¬ badblock s c ∧ update s.taken b (s.taken b + 1) c = 0
  by_cases hc : c = b
  · rw [hc, update_self]
    exact ⟨fun hmem => absurd hmem hb, fun hmem => absurd hmem.2 (succ_ne_zero _)⟩
  · rw [update_of_ne hc]
    exact ⟨fun hmem => (hfree c).mp (.tail b hmem),
      fun hmem => (mem_cons.mp ((hfree c).mpr hmem)).resolve_left hc⟩

theorem taken_take (hb : IsFree s b) : (take s b).taken b = 1 := by
  change update s.taken b (s.taken b + 1) b = 1
  rw [update_self, hb.2]

theorem taken_take_le (hb : IsFree s b) (honce : ∀ b, s.taken b ≤ 1) (c : Nat) :
    (take s b).taken c ≤ 1 := by
  by_cases hc : c = b
  · rw [hc]
    exact Nat.le_of_eq (taken_take hb)
  · rw [show (take s b).taken c = s.taken c from update_of_ne hc _ _]
    exact honce c

/-- No call has a free block. -/
theorem Calls.not_free (h : Calls s) (hq : (s.point q).carries = some b) : ¬ IsFree s b := by
  intro hb
  have hone := (h.held q b hq).2
  rw [hb.2] at hone
  cases hone

theorem Calls.taken_take (h : Calls s) (hb : IsFree s b) (hq : (s.point q).carries = some c) :
    (take s b).taken c = s.taken c := by
  refine update_of_ne ?_ _ _
  rintro rfl
  exact h.not_free hq hb

theorem popFree_good (hisize : 0 < s.sIsize) (h : IsFree s (s.sFree n)) :
    popFree s (n + 1) = some (s.sFree n, n) := by
  rw [popFree, if_neg (h.ne_zero hisize), if_neg h.1]

variable [DecidableEq Proc] {point : Point}

section

variable (hpoint : t.point = update s.point p point)
include hpoint

theorem point_cases (q : Proc) : q = p ∧ t.point q = point ∨ q ≠ p ∧ t.point q = s.point q := by
  rw [hpoint]
  by_cases hq : q = p
  · refine .inl ⟨hq, ?_⟩
    rw [hq, update_self]
  · exact .inr ⟨hq, update_of_ne hq _ _⟩

theorem no_reader
    (hothers : ∀ q, q ≠ p → (s.point q).locks = false) (hnew : point.locks = false) (q : Proc)
    (c : Nat) : t.point q ≠ .bread c := by
  intro hq
  rcases point_cases hpoint q with ⟨-, hat⟩ | ⟨hne, hat⟩
  · rw [← hat, hq] at hnew
    cases hnew
  · have hlocks := hothers q hne
    rw [← hat, hq] at hlocks
    cases hlocks

/-- Whose call has a block stays clear when one call takes up a block that no other has. -/
theorem apart_of (h : ∀ q r b, (s.point q).carries = some b → (s.point r).carries = some b → q = r)
    (hnew : ∀ b, point.carries = some b → ∀ q, q ≠ p → (s.point q).carries ≠ some b) (q r : Proc)
    (b : Nat) (hq : (t.point q).carries = some b) (hr : (t.point r).carries = some b) : q = r := by
  rcases point_cases hpoint q with ⟨heq, hat⟩ | ⟨hne, hat⟩
  · rcases point_cases hpoint r with ⟨heq', -⟩ | ⟨hne', hat'⟩
    · rw [heq, heq']
    · rw [hat] at hq
      rw [hat'] at hr
      exact absurd hr (hnew b hq r hne')
  · rcases point_cases hpoint r with ⟨-, hat'⟩ | ⟨-, hat'⟩
    · rw [hat] at hq
      rw [hat'] at hr
      exact absurd hq (hnew b hr q hne)
    · rw [hat] at hq
      rw [hat'] at hr
      exact h q r b hq hr

end

/-- The call of one process goes on, when nobody else has the list locked. -/
theorem Calls.act (h : Calls s) (hbad : ∀ b, badblock t b ↔ badblock s b)
    (hpoint : t.point = update s.point p point) (hothers : ∀ q, q ≠ p → (s.point q).locks = false)
    (hflock : t.sFlock = point.locks)
    (htaken : ∀ q b, q ≠ p → (s.point q).carries = some b → t.taken b = s.taken b)
    (hcarries : ∀ b, point.carries = some b → ¬ badblock s b ∧ t.taken b = 1 ∧
      ∀ q, q ≠ p → (s.point q).carries ≠ some b) (hempty : ∀ b, point = .bread b → t.sNfree = 0)
    (hfull : ∀ b, point = .spill b → t.sNfree = NICFREE) : Calls t := by
  have hcases := point_cases hpoint
  have honly : ∀ q, (t.point q).locks = true → q = p ∧ point.locks = true := by
    intro q hq
    rcases hcases q with ⟨heq, hat⟩ | ⟨hne, hat⟩
    · rw [hat] at hq
      exact ⟨heq, hq⟩
    · rw [hat, hothers q hne] at hq
      cases hq
  have hself : t.point p = point := by
    rw [hpoint, update_self]
  refine ⟨?_, fun q r hq hr => ?_, fun q b hq => ?_,
    apart_of hpoint h.apart fun b hb => (hcarries b hb).2.2, fun q b hq => ?_, fun q b hq => ?_⟩
  · rw [hflock]
    constructor
    · intro hlocks
      exact ⟨p, by rw [hself]; exact hlocks⟩
    · rintro ⟨q, hq⟩
      exact (honly q hq).2
  · rw [(honly q hq).1, (honly r hr).1]
  · rw [hbad]
    rcases hcases q with ⟨-, hat⟩ | ⟨hne, hat⟩
    · rw [hat] at hq
      exact ⟨(hcarries b hq).1, (hcarries b hq).2.1⟩
    · rw [hat] at hq
      rw [htaken q b hne hq]
      exact h.held q b hq
  · rcases hcases q with ⟨-, hat⟩ | ⟨hne, hat⟩
    · exact hempty b (hat.symm.trans hq)
    · have hnone := hothers q hne
      rw [← hat, hq] at hnone
      cases hnone
  · rcases hcases q with ⟨-, hat⟩ | ⟨hne, hat⟩
    · exact hfull b (hat.symm.trans hq)
    · have hnone := hothers q hne
      rw [← hat, hq] at hnone
      cases hnone

/-- A process goes to sleep, or wakes, and nothing else happens. -/
theorem Inv.goTo (h : Inv s) (hold : (s.point p).locks = false) (hnew : point.locks = false)
    (hcarries : ∀ b, point.carries = some b → ¬ badblock s b ∧ s.taken b = 1 ∧
      ∀ q, q ≠ p → (s.point q).carries ≠ some b) : Inv (goTo s p point) := by
  have hpoint : (S5.goTo s p point).point = update s.point p point := rfl
  have hcases := point_cases hpoint
  have hlocks : ∀ q, ((S5.goTo s p point).point q).locks = (s.point q).locks := by
    intro q
    rcases hcases q with ⟨heq, hat⟩ | ⟨-, hat⟩
    · rw [hat, heq, hold, hnew]
    · rw [hat]
  have hlocked : ∀ q x, (S5.goTo s p point).point q = x → x.locks = true → s.point q = x := by
    intro q x hq hx
    rcases hcases q with ⟨-, hat⟩ | ⟨-, hat⟩
    · rw [← hq, hat, hnew] at hx
      cases hx
    · exact hat.symm.trans hq
  obtain ⟨l, hlist, hnodup, hfree⟩ := h.sound.list
  refine ⟨h.isize, ⟨h.sound.nfree, ⟨l, ?_, hnodup, hfree⟩, h.sound.once⟩, ?_, fun q r hq hr => ?_,
    fun q b hq => ?_, apart_of hpoint h.calls.apart fun b hb => (hcarries b hb).2.2,
    fun q b hq => ?_, fun q b hq => ?_⟩
  · rcases hlist with ⟨hnone, hnamed⟩ | ⟨q, bno, hq, hchain⟩
    · exact .inl ⟨fun q bno hq => hnone q bno (hlocked q _ hq rfl), hnamed⟩
    refine .inr ⟨q, bno, ?_, hchain⟩
    rcases hcases q with ⟨heq, -⟩ | ⟨-, hat⟩
    · rw [← heq, hq] at hold
      cases hold
    · exact hat.trans hq
  · simp only [hlocks]
    exact h.calls.locked
  · rw [hlocks] at hq hr
    exact h.calls.alone q r hq hr
  · rcases hcases q with ⟨-, hat⟩ | ⟨-, hat⟩
    · rw [hat] at hq
      exact ⟨(hcarries b hq).1, (hcarries b hq).2.1⟩
    · rw [hat] at hq
      exact h.calls.held q b hq
  · exact h.calls.empty q b (hlocked q _ hq rfl)
  · exact h.calls.full q b (hlocked q _ hq rfl)

/-- A block comes onto the list. -/
theorem Inv.putBack {u : State Proc} (h : Inv s) (hothers : ∀ q, q ≠ p → (s.point q).locks = false)
    (hgood : ¬ badblock s bno) (htaken : s.taken bno = 1)
    (hapart : ∀ q, q ≠ p → (s.point q).carries ≠ some bno)
    (hlist : l.Nodup ∧ (∀ b, b ∈ l ↔ IsFree s b) ∧ s.sTfree = l.length)
    (hsame : u.sIsize = s.sIsize ∧ u.sFsize = s.sFsize ∧ u.taken = s.taken ∧ u.point = s.point ∧
      u.sTfree = s.sTfree) (hflock : u.sFlock = false) (hnfree : 0 ≤ u.sNfree)
    (hchain : Chain u.block (u.sNfree + 1) (update u.sFree u.sNfree.toNat bno) (bno :: l)) :
    Inv (putBack u p bno) := by
  obtain ⟨hisize, hfsize, htakens, hpoints, htfree⟩ := hsame
  obtain ⟨hnodup, hfree, hcount⟩ := hlist
  have hpoint : (S5.putBack u p bno).point = update s.point p .out := by
    rw [← hpoints]
    rfl
  have hbad : ∀ b, badblock (S5.putBack u p bno) b ↔ badblock s b := by
    intro b
    unfold badblock
    rw [← hisize, ← hfsize]
    exact .rfl
  have hnow : ∀ b, (S5.putBack u p bno).taken b = if b = bno then 0 else s.taken b := by
    intro b
    change update u.taken bno (u.taken bno - 1) b = _
    rw [htakens, htaken, update_apply]
  have hnot : bno ∉ l := by
    intro hmem
    have hzero := ((hfree bno).mp hmem).2
    rw [htaken] at hzero
    cases hzero
  refine ⟨?_, ⟨?_, ⟨bno :: l, .inl ⟨no_reader hpoint hothers rfl, .inr hchain, ?_⟩,
    nodup_cons.mpr ⟨hnot, hnodup⟩, fun b => ?_⟩, fun b => ?_⟩,
    h.calls.act hbad hpoint hothers hflock (fun q b hq hb => ?_) (fun b hb => ?_) (fun b hb => ?_)
      fun b hb => ?_⟩
  · change 0 < u.sIsize
    rw [hisize]
    exact h.isize
  · have hroom := hchain.range
    change 0 ≤ u.sNfree + 1 ∧ u.sNfree + 1 ≤ NICFREE
    exact ⟨by omega, hroom.2⟩
  · change u.sTfree + 1 = _
    rw [htfree, hcount, length_cons]
  · unfold IsFree
    rw [hbad, hnow, mem_cons, hfree]
    split_ifs with hb
    · rw [hb]
      exact ⟨fun _ => ⟨hgood, rfl⟩, fun _ => .inl rfl⟩
    · exact ⟨fun hmem => hmem.resolve_left hb, .inr⟩
  · rw [hnow]
    split_ifs with hb
    · exact zero_le 1
    · exact h.sound.once b
  · rw [hnow, if_neg]
    rintro rfl
    exact hapart q hq hb
  · cases hb
  · cases hb
  · cases hb

theorem Inv.nospace (h : Inv s) (hnobody : ∀ q, (s.point q).locks = false) (hnone : ∀ b, ¬ IsFree s b) :
    Inv (nospace s p) := by
  have hpoint : (S5.nospace s p).point = update s.point p .nospace := rfl
  have hflock : s.sFlock = false := by
    rw [← not_eq_true]
    intro hlocked
    obtain ⟨q, hq⟩ := h.calls.locked.mp hlocked
    rw [hnobody q] at hq
    cases hq
  refine ⟨h.isize, ⟨⟨Int.le_refl 0, natCast_nonneg NICFREE⟩, ⟨[],
      .inl ⟨no_reader hpoint (fun q _ => hnobody q) rfl, .inl ⟨rfl, rfl⟩, rfl⟩,
    nodup_nil, fun b => ⟨fun hb => absurd hb not_mem_nil, fun hb => absurd hb (hnone b)⟩⟩,
    h.sound.once⟩, h.calls.act (fun b => .rfl) hpoint (fun q _ => hnobody q) hflock
      (fun _ _ _ _ => rfl) (fun b hb => ?_) (fun b hb => ?_) fun b hb => ?_⟩
  · cases hb
  · cases hb
  · cases hb

section

variable (h : Inv s) (hnobody : ∀ q, (s.point q).locks = false) (hnodup : (b :: l).Nodup)
  (hfree : ∀ c, c ∈ b :: l ↔ IsFree s c) (hcount : s.sTfree = l.length + 1)
include h hnobody hnodup hfree hcount

theorem Inv.read (hchain : Chain s.block (s.block b).dfNfree (s.block b).dfFree l) :
    Inv (S5.goTo { take s b with sNfree := 0, sFlock := true } p (.bread b)) := by
  have hb := (hfree b).mp (.head _)
  refine ⟨h.isize, ⟨⟨Int.le_refl 0, Int.natCast_nonneg NICFREE⟩,
    ⟨l, .inr ⟨p, b, update_self _ _ _, hchain, hcount⟩, (nodup_cons.mp hnodup).2,
      free_take hnodup hfree⟩, taken_take_le hb h.sound.once⟩,
    h.calls.act (fun c => .rfl) rfl (fun q _ => hnobody q) rfl
      (fun q c _ hq => h.calls.taken_take hb hq) (fun c hc => ?_) (fun c _ => rfl) fun c hc => ?_⟩
  · obtain rfl : b = c := some.inj hc
    exact ⟨hb.1, taken_take hb, fun q _ hq => h.calls.not_free hq hb⟩
  · cases hc

theorem Inv.take (hchain : Chain s.block n s.sFree l) :
    Inv (handOut { S5.take s b with sNfree := n } p b) := by
  have hb := (hfree b).mp (.head _)
  have hrange := hchain.range
  have hflock : s.sFlock = false := by
    rw [← not_eq_true]
    intro hlocked
    obtain ⟨q, hq⟩ := h.calls.locked.mp hlocked
    rw [hnobody q] at hq
    cases hq
  unfold handOut
  rw [if_neg (by rintro (hlow | hhigh) <;> simp only at * <;> omega)]
  refine ⟨h.isize, ⟨⟨natCast_nonneg n, hrange.2⟩, ⟨l,
      .inl ⟨no_reader rfl (fun q _ => hnobody q) rfl, .inr hchain, ?_⟩,
      (nodup_cons.mp hnodup).2, free_take hnodup hfree⟩, taken_take_le hb h.sound.once⟩,
    h.calls.act (fun c => .rfl) rfl (fun q _ => hnobody q) hflock
      (fun q c _ hq => h.calls.taken_take hb hq) (fun c hc => ?_) (fun c hc => ?_) fun c hc => ?_⟩
  · change s.sTfree - 1 = l.length
    rw [hcount, Nat.add_sub_cancel]
  · cases hc
  · cases hc
  · cases hc

end

section

variable (h : Inv s)
include h

theorem Inv.allocate (hflock : s.sFlock ≠ true) : Inv (allocate s p) := by
  have hnobody := h.calls.unlocked hflock
  obtain ⟨l, hlist, hnodup, hfree⟩ := h.sound.list
  obtain ⟨hnamed, hcount⟩ := hlist.named hnobody
  have hnospace : l = [] → Inv (S5.nospace s p) := by
    rintro rfl
    exact h.nospace hnobody fun b hb => not_mem_nil ((hfree b).mpr hb)
  unfold S5.allocate
  rcases hnamed with ⟨hzero, hl⟩ | hchain
  · rw [hzero]
    exact hnospace hl
  obtain ⟨n, hn⟩ : ∃ n : Nat, s.sNfree = n + 1 := ⟨s.sNfree.toNat - 1, by
    have hrange := hchain.range
    omega⟩
  have htoNat : s.sNfree.toNat = n + 1 := by omega
  rw [hn] at hchain
  rw [htoNat]
  rcases hchain.pop with ⟨rfl, hend, hl⟩ | ⟨rfl, -, rest, rfl, hrest⟩ | ⟨hne, rest, rfl, hrest⟩
  · rw [popFree, if_pos hend]
    exact hnospace hl
  · rw [popFree_good h.isize ((hfree _).mp (.head _))]
    exact h.read hnobody hnodup hfree hcount hrest
  · rw [popFree_good h.isize ((hfree _).mp (.head _))]
    obtain ⟨m, rfl⟩ := exists_eq_succ_of_ne_zero hne
    exact h.take hnobody hnodup hfree hcount hrest

theorem Inv.refill (hp : s.point p = .bread bno) : Inv (refill s p bno false) := by
  have hlocks : (s.point p).locks = true := by
    rw [hp]
    rfl
  have halone : ∀ q, q ≠ p → (s.point q).locks = false := by
    intro q hq
    rw [← not_eq_true]
    exact fun hlocked => hq (h.calls.alone q p hlocked hlocks)
  obtain ⟨l, hlist, hnodup, hfree⟩ := h.sound.list
  obtain ⟨hchain, hcount⟩ : Chain s.block (s.block bno).dfNfree (s.block bno).dfFree l ∧
      s.sTfree = l.length + 1 := by
    rcases hlist with ⟨hnone, -⟩ | ⟨q, bno', hq, hlist⟩
    · exact absurd hp (hnone p bno)
    have hqp : q = p := h.calls.alone q p (by rw [hq]; rfl) hlocks
    rw [hqp, hp] at hq
    obtain rfl := Point.bread.inj hq
    exact hlist
  have hrange := hchain.range
  have hshort : toShort (s.block bno).dfNfree = (s.block bno).dfNfree := by
    unfold toShort
    have hmax : (NICFREE : Int) = 50 := rfl
    omega
  have hcopied : Chain s.block (s.block bno).dfNfree (copyFree (s.block bno).dfFree s.sFree) l :=
    hchain.congr (fun i hi => if_pos hi) fun _ _ => rfl
  rw [← hshort] at hcopied hrange
  have hroom : ¬ (toShort (s.block bno).dfNfree ≤ 0 ∨
      (NICFREE : Int) < toShort (s.block bno).dfNfree) := by
    omega
  unfold S5.refill handOut
  simp only [false_eq_true, if_false, if_neg hroom]
  refine ⟨h.isize, ⟨⟨Int.le_of_lt hrange.1, hrange.2⟩,
      ⟨l, .inl ⟨no_reader rfl halone rfl, .inr hcopied, ?_⟩, hnodup, hfree⟩, h.sound.once⟩,
    h.calls.act (fun c => .rfl) rfl halone rfl (fun _ _ _ _ => rfl) (fun c hc => ?_)
      (fun c hc => ?_) fun c hc => ?_⟩
  · rw [hcount, Nat.add_sub_cancel]
  · cases hc
  · cases hc
  · cases hc

omit [DecidableEq Proc] in
/-- The end of the list is put into an empty superblock. -/
theorem Inv.start (hflock : s.sFlock ≠ true) (hzero : s.sNfree ≤ 0) :
    Inv { s with sNfree := 1, sFree := update s.sFree 0 0 } := by
  have hnobody := h.calls.unlocked hflock
  obtain ⟨l, hlist, hnodup, hfree⟩ := h.sound.list
  obtain ⟨hnamed, hcount⟩ := hlist.named hnobody
  have hnil : l = [] := by
    rcases hnamed with ⟨-, hl⟩ | hchain
    · exact hl
    · have hrange := hchain.range
      omega
  rw [hnil] at hnodup hfree hcount
  have hend : Chain s.block 1 (update s.sFree 0 0) [] :=
    Chain.last (n := 0) (by decide) (update_self 0 0 s.sFree)
  refine ⟨h.isize, ⟨⟨show (0 : Int) ≤ 1 by decide, show (1 : Int) ≤ NICFREE by decide⟩,
    ⟨[], .inl ⟨fun q c hq => ?_, .inr hend, hcount⟩, hnodup, hfree⟩, h.sound.once⟩,
    ⟨h.calls.locked, h.calls.alone, h.calls.held, h.calls.apart, fun q c hq => ?_, fun q c hq => ?_⟩⟩
  · have hlocks := hnobody q
    rw [show s.point q = .bread c from hq] at hlocks
    cases hlocks
  · have hlocks := hnobody q
    rw [show s.point q = .bread c from hq] at hlocks
    cases hlocks
  · have hlocks := hnobody q
    rw [show s.point q = .spill c from hq] at hlocks
    cases hlocks

/-- `blkfree` goes on while nobody has the list locked, and there is an end of it. -/
theorem Inv.releaseNonempty (buffer : Incore) (hflock : s.sFlock ≠ true) (hpos : 0 < s.sNfree)
    (hgood : ¬ badblock s bno) (htaken : s.taken bno = 1)
    (hapart : ∀ q, q ≠ p → (s.point q).carries ≠ some bno) :
    Inv (if (NICFREE : Int) ≤ s.sNfree then S5.goTo { s with sFlock := true } p (.spill bno)
      else if buffer = .busy then S5.goTo s p (.leftover bno) else S5.putBack s p bno) := by
  have hnobody := h.calls.unlocked hflock
  obtain ⟨l, hlist, hnodup, hfree⟩ := h.sound.list
  obtain ⟨hnamed, hcount⟩ := hlist.named hnobody
  have hrange := h.sound.nfree
  have hown : ∀ c, some bno = some c → ¬ badblock s c ∧ s.taken c = 1 ∧
      ∀ q, q ≠ p → (s.point q).carries ≠ some c := by
    intro c hc
    obtain rfl := some.inj hc
    exact ⟨hgood, htaken, hapart⟩
  by_cases hfull : (NICFREE : Int) ≤ s.sNfree
  · rw [if_pos hfull]
    refine ⟨h.isize, ⟨hrange, ⟨l, .inl ⟨?_, hnamed, hcount⟩, hnodup, hfree⟩, h.sound.once⟩,
      h.calls.act (fun c => .rfl) rfl (fun q _ => hnobody q) rfl (fun _ _ _ _ => rfl) hown
        (fun c hc => ?_) fun c _ => Int.le_antisymm hrange.2 hfull⟩
    · intro q c hq
      rcases point_cases (t := S5.goTo s p (.spill bno)) rfl q with ⟨-, hat⟩ | ⟨-, hat⟩
      · cases hat.symm.trans hq
      · have hlocks := hnobody q
        rw [show s.point q = .bread c from hat.symm.trans hq] at hlocks
        cases hlocks
    · cases hc
  · rw [if_neg hfull]
    by_cases hbusy : buffer = .busy
    · rw [if_pos hbusy]
      exact h.goTo (hnobody p) rfl hown
    rw [if_neg hbusy]
    have hchain : Chain s.block s.sNfree s.sFree l := by
      rcases hnamed with ⟨hzero, -⟩ | hchain
      · omega
      · exact hchain
    have hlocked : s.sFlock = false := by
      rw [← not_eq_true]
      exact hflock
    exact h.putBack (fun q _ => hnobody q) hgood htaken hapart ⟨hnodup, hfree, hcount⟩
      ⟨rfl, rfl, rfl, rfl, rfl⟩ hlocked hrange.1 (hchain.push (by omega))

theorem Inv.release (buffer : Incore) (hflock : s.sFlock ≠ true) (hgood : ¬ badblock s bno)
    (htaken : s.taken bno = 1) (hapart : ∀ q, q ≠ p → (s.point q).carries ≠ some bno) :
    Inv (release s p bno buffer) := by
  unfold S5.release
  rw [if_neg hgood]
  by_cases hzero : s.sNfree ≤ 0
  · simp only [if_pos hzero]
    exact (h.start hflock hzero).releaseNonempty buffer hflock (show (0 : Int) < 1 by decide) hgood htaken hapart
  · simp only [if_neg hzero]
    exact h.releaseNonempty buffer hflock (by omega) hgood htaken hapart

/-- The part in the superblock goes to the block that is freed, and that block is all that is left
there. -/
theorem Inv.spill (hp : s.point p = .spill bno) : Inv (spill s p bno) := by
  have hlocks : (s.point p).locks = true := by
    rw [hp]
    rfl
  have halone : ∀ q, q ≠ p → (s.point q).locks = false := by
    intro q hq
    rw [← not_eq_true]
    exact fun hlocked => hq (h.calls.alone q p hlocked hlocks)
  have hcarries : (s.point p).carries = some bno := by
    rw [hp]
    rfl
  have hheld := h.calls.held p bno hcarries
  have hfull := h.calls.full p bno hp
  obtain ⟨l, hlist, hnodup, hfree⟩ := h.sound.list
  obtain ⟨hnamed, hcount⟩ : Named s.block s.sNfree s.sFree l ∧ s.sTfree = l.length := by
    rcases hlist with ⟨-, hlist⟩ | ⟨q, c, hq, -⟩
    · exact hlist
    · have hqp : q = p := h.calls.alone q p (by rw [hq]; rfl) hlocks
      rw [hqp, hp] at hq
      cases hq
  have hnot : bno ∉ l := fun hmem => h.calls.not_free hcarries ((hfree bno).mp hmem)
  have hchain : Chain s.block s.sNfree s.sFree l := by
    rcases hnamed with ⟨hzero, -⟩ | hchain
    · rw [hfull] at hzero
      cases hzero
    · exact hchain
  have hmoved : Chain (update s.block bno ⟨s.sNfree, copyFree s.sFree (s.block bno).dfFree⟩)
      s.sNfree (copyFree s.sFree (s.block bno).dfFree) l := by
    refine hchain.congr (fun i hi => if_pos hi) fun c hc => update_of_ne ?_ _ _
    rintro rfl
    exact hnot hc
  have hlead : update s.sFree 0 bno 0 = bno := update_self 0 bno s.sFree
  have hnonzero : bno ≠ 0 := by
    rintro rfl
    exact hheld.1 (.inl h.isize)
  refine h.putBack halone hheld.1 hheld.2 (fun q hq hc => hq (h.calls.apart q p bno hc hcarries))
    ⟨hnodup, hfree, hcount⟩ ⟨rfl, rfl, rfl, rfl, rfl⟩ rfl (Int.le_refl 0) ?_
  have hone : Chain (update s.block bno ⟨s.sNfree, copyFree s.sFree (s.block bno).dfFree⟩)
      1 (update s.sFree 0 bno) (update s.sFree 0 bno 0 :: l) := by
    refine Chain.more (n := 0) (by decide) (by rw [hlead]; exact hnonzero) ?_
    rw [hlead, update_self]
    exact hmoved
  rw [hlead] at hone
  exact hone

end

/-- What a step must not find for the list to stay sound: a block of the list that cannot be read, or,
by a process that has waited for a leftover buffer, a list that others have locked, filled or emptied. -/
def Clear (s : State Proc) : Event Proc → Prop
  | .run p _ error => (∀ bno, s.point p = .bread bno → error = false) ∧
      ∀ bno, s.point p = .leftover bno → s.sFlock = false ∧ 0 < s.sNfree ∧ s.sNfree < NICFREE
  | _ => True

theorem Inv.step {event : Event Proc} (h : Inv s) (hclear : Clear s event) (hstep : Step s event t) :
    Inv t := by
  have hone : ∀ b, Allocated s b → s.taken b = 1 := by
    intro b hb
    have hle := h.sound.once b
    have hne := hb.2.1
    omega
  cases hstep with
  | @blkalloc p hout =>
    by_cases hflock : s.sFlock = true
    · rw [if_pos hflock]
      refine h.goTo (by rw [hout]; rfl) rfl fun b hb => ?_
      cases hb
    · rw [if_neg hflock]
      exact h.allocate hflock
  | @blkfree p bno buffer hout howner =>
    by_cases hflock : s.sFlock = true
    · rw [if_pos hflock]
      refine h.goTo (by rw [hout]; rfl) rfl fun b hb => ?_
      obtain rfl := some.inj hb
      exact ⟨howner.1, hone _ howner, fun q _ => howner.2.2 q⟩
    · rw [if_neg hflock]
      exact h.release buffer hflock howner.1 (hone bno howner) fun q _ => howner.2.2 q
  | @run _ p buffer error hrun =>
    obtain ⟨hread, hleft⟩ := hclear
    have hheld : ∀ bno, (s.point p).carries = some bno → ¬ badblock s bno ∧ s.taken bno = 1 ∧
        ∀ q, q ≠ p → (s.point q).carries ≠ some bno := by
      intro bno hbno
      obtain ⟨hgood, htaken⟩ := h.calls.held p bno hbno
      exact ⟨hgood, htaken, fun q hq hc => hq (h.calls.apart q p bno hc hbno)⟩
    unfold proceed at hrun
    cases hp : s.point p with
    | out =>
      simp only [hp] at hrun
      cases hrun
    | allocSleep =>
      simp only [hp] at hrun
      by_cases hflock : s.sFlock = true
      · rw [if_pos hflock] at hrun
        cases hrun
      · rw [if_neg hflock] at hrun
        obtain rfl := some.inj hrun
        exact h.allocate hflock
    | bread bno =>
      simp only [hp] at hrun
      obtain rfl := some.inj hrun
      rw [hread bno hp]
      exact h.refill hp
    | nospace =>
      simp only [hp] at hrun
      obtain rfl := some.inj hrun
      have hout : Inv (S5.goTo s p .out) := by
        refine h.goTo (by rw [hp]; rfl) rfl fun b hb => ?_
        cases hb
      exact ⟨hout.isize, ⟨hout.sound.nfree, hout.sound.list, hout.sound.once⟩,
        ⟨hout.calls.locked, hout.calls.alone, hout.calls.held, hout.calls.apart,
          hout.calls.empty, hout.calls.full⟩⟩
    | freeSleep bno =>
      simp only [hp] at hrun
      obtain ⟨hgood, htaken, hapart⟩ := hheld bno (by rw [hp]; rfl)
      by_cases hflock : s.sFlock = true
      · rw [if_pos hflock] at hrun
        cases hrun
      · rw [if_neg hflock] at hrun
        obtain rfl := some.inj hrun
        exact h.release buffer hflock hgood htaken hapart
    | spill bno =>
      simp only [hp] at hrun
      obtain rfl := some.inj hrun
      exact h.spill hp
    | leftover bno =>
      simp only [hp] at hrun
      obtain rfl := some.inj hrun
      obtain ⟨hgood, htaken, hapart⟩ := hheld bno (by rw [hp]; rfl)
      obtain ⟨hflock, hpos, hroom⟩ := hleft bno hp
      have hunlocked : s.sFlock ≠ true := by
        rw [hflock]
        decide
      have hput := h.releaseNonempty .no hunlocked hpos hgood htaken hapart
      rw [if_neg (by omega), if_neg (by decide)] at hput
      exact hput
  | @write bno content howner =>
    obtain ⟨l, hlist, hnodup, hfree⟩ := h.sound.list
    have hnot : bno ∉ l := fun hmem => howner.2.1 ((hfree bno).mp hmem).2
    have hblock : ∀ b ∈ l, update s.block bno content b = s.block b := by
      intro b hb
      refine update_of_ne ?_ _ _
      rintro rfl
      exact hnot hb
    refine ⟨h.isize, ⟨h.sound.nfree, ⟨l, ?_, hnodup, hfree⟩, h.sound.once⟩,
      ⟨h.calls.locked, h.calls.alone, h.calls.held, h.calls.apart, h.calls.empty, h.calls.full⟩⟩
    rcases hlist with ⟨hnone, hnamed, hcount⟩ | ⟨q, c, hq, hchain, hcount⟩
    · exact .inl ⟨hnone, hnamed.congr (fun _ _ => rfl) hblock, hcount⟩
    refine .inr ⟨q, c, hq, ?_, hcount⟩
    have hread : update s.block bno content c = s.block c := by
      refine update_of_ne ?_ _ _
      rintro rfl
      exact howner.2.2 q (by rw [hq]; rfl)
    simp only [hread]
    exact hchain.congr (fun _ _ => rfl) hblock

/-- Between steps that find the list clear, the free list names every free block once, `s_nfree` stays
in its range, `s_tfree` counts the free blocks, and no block is handed out a second time. -/
theorem free_list_run {events : List (Event Proc)} (hisize : 0 < s.sIsize) (hs : Sound s)
    (hflock : s.sFlock = false) (hout : ∀ p, s.point p = .out)
    (h : Exec (Guarded Step Clear) s events t) : Sound t := by
  have hlocks : ∀ p, (s.point p).locks ≠ true := by
    intro p hp
    rw [hout] at hp
    cases hp
  have hcarries : ∀ p b, (s.point p).carries ≠ some b := by
    intro p b hp
    rw [hout] at hp
    cases hp
  have hinit : Inv s := by
    refine ⟨hisize, hs, ⟨?_, fun p q hp => absurd hp (hlocks p), fun p b hp => absurd hp (hcarries p b),
      fun p q b hp => absurd hp (hcarries p b), fun p b hp => ?_, fun p b hp => ?_⟩⟩
    · rw [hflock]
      refine ⟨fun hfalse => absurd hfalse false_ne_true, fun hsome => ?_⟩
      obtain ⟨p, hp⟩ := hsome
      exact absurd hp (hlocks p)
    · rw [hout] at hp
      cases hp
    · rw [hout] at hp
      cases hp
  exact (h.keeps Inv (fun _ _ _ hinv hstep => hinv.step hstep.1 hstep.2) hinit).sound

/-- A file system with room for one more entry in the superblock, and blocks 50 and 51 in use. -/
def nearlyFull : State Bool :=
  { sIsize := 2
    sFsize := 52
    sNfree := 49
    sFree := fun i => if i = 0 then 0 else i + 1
    sFlock := false
    sTfree := 48
    block := fun _ => ⟨0, fun _ => 0⟩
    taken := fun b => if b < 50 then 0 else 1
    point := fun _ => .out
    result := fun _ => none }

theorem nearlyFull_sound : Sound nearlyFull := by
  have hmem : ∀ n b, b ∈ upper nearlyFull.sFree n ↔ 2 ≤ b ∧ b ≤ n + 1 := by
    intro n b
    induction n with
    | zero =>
      refine ⟨fun hb => absurd hb not_mem_nil, fun hb => ?_⟩
      omega
    | succ n ih =>
      rw [upper, mem_cons, ih, show nearlyFull.sFree (n + 1) = n + 2 from rfl]
      omega
  refine ⟨by decide, ⟨upper nearlyFull.sFree 48, .inl ⟨fun p bno hp => ?_,
    .inr (Chain.last (by decide) rfl), by decide⟩, by decide, fun b => ?_⟩, fun b => ?_⟩
  · cases hp
  · rw [hmem]
    change _ ↔ ¬ (b < 2 ∨ 52 ≤ b) ∧ (if b < 50 then 0 else 1) = 0
    by_cases hb : b < 50
    · rw [if_pos hb]
      omega
    · rw [if_neg hb]
      omega
  · change (if b < 50 then 0 else 1) ≤ 1
    split
    · decide
    · decide

/-- One process allocates a block, and gives it back. -/
theorem free_list_run_once : ∃ t : State Bool,
    Exec (Guarded Step Clear) nearlyFull [.blkalloc true, .blkfree true 49 .no] t ∧ Sound t := by
  have halloc : Step nearlyFull (.blkalloc true) (allocate nearlyFull true) := Step.blkalloc rfl
  have howner : Allocated (allocate nearlyFull true) 49 := by
    refine ⟨by decide, by decide, fun p => ?_⟩
    cases p with
    | false => decide
    | true => decide
  have hfree : Step (allocate nearlyFull true) (.blkfree true 49 .no)
      (release (allocate nearlyFull true) true 49 .no) :=
    Step.blkfree (by decide) howner
  have hrun : Exec (Guarded Step Clear) nearlyFull [.blkalloc true, .blkfree true 49 .no] _ :=
    Exec.cons ⟨trivial, halloc⟩ (Exec.single ⟨trivial, hfree⟩)
  exact ⟨_, hrun, free_list_run (by decide) nearlyFull_sound rfl (fun _ => rfl) hrun⟩

/-- A process has to wait for a buffer that was left of the block it frees. Another frees a block in
between, and there are more entries than the superblock has room for. -/
theorem leftover_overflows : ∃ t : State Bool, Sound nearlyFull ∧
    Exec Step nearlyFull [.blkfree false 50 .busy, .blkfree true 51 .no, .run false .no false] t ∧
    t.sNfree = NICFREE + 1 ∧ ¬ Sound t := by
  have hfirst : Step nearlyFull (.blkfree false 50 .busy) (release nearlyFull false 50 .busy) := by
    refine Step.blkfree rfl ⟨by decide, by decide, fun p => ?_⟩
    cases p with
    | false => decide
    | true => decide
  have hsecond : Step (release nearlyFull false 50 .busy) (.blkfree true 51 .no)
      (release (release nearlyFull false 50 .busy) true 51 .no) := by
    refine Step.blkfree (by decide) ⟨by decide, by decide, fun p => ?_⟩
    cases p with
    | false => decide
    | true => decide
  have hlast : Step (release (release nearlyFull false 50 .busy) true 51 .no) (.run false .no false)
      (putBack (release (release nearlyFull false 50 .busy) true 51 .no) false 50) :=
    Step.run rfl
  have hnfree : (putBack (release (release nearlyFull false 50 .busy) true 51 .no) false 50).sNfree =
      NICFREE + 1 := by
    decide
  refine ⟨_, nearlyFull_sound, Exec.cons hfirst (Exec.cons hsecond (Exec.single hlast)), hnfree,
    fun hsound => ?_⟩
  have hle := hsound.nfree.2
  rw [hnfree] at hle
  omega

end Svr42.S5

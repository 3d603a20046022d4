import Svr42.S5Free

/-! `blkalloc` and `blkfree` as one process finds them that nobody disturbs, and the pointers in a
block. -/

namespace Svr42.S5
open Function

variable {s : State Unit} {b c i j v : Nat}

/-- The process goes on from where it sleeps; there is a buffer, and the block can be read. -/
def goOn (s : State Unit) : State Unit := (proceed s () .idle false).getD s

def blkalloc (s : State Unit) : Option Nat × State Unit :=
  let t := goOn (goOn (allocate s ()))
  ((t.result ()).join, t)

def blkfree (s : State Unit) (bno : Nat) : State Unit := goOn (release s () bno .idle)

/-- The free list is sound and no call is in progress. -/
structure Idle (s : State Unit) : Prop where
  inv : Inv s
  out : s.point () = .out

theorem Idle.mk_sound (hisize : 0 < s.sIsize) (hs : Sound s) (hflock : s.sFlock = false)
    (hout : s.point () = .out) : Idle s := by
  have hlocks : ∀ p, (s.point p).locks ≠ true := by
    intro p hp
    rw [show s.point p = .out from hout] at hp
    cases hp
  have hpoint : ∀ p point, s.point p = point → point = .out := fun p point hp => hp.symm.trans hout
  refine ⟨⟨hisize, hs, ⟨?_, fun p q hp => absurd hp (hlocks p), fun p b hp => ?_,
    fun p q b hp => ?_, fun p b hp => ?_, fun p b hp => ?_⟩⟩, hout⟩
  · rw [hflock]
    exact ⟨fun hfalse => absurd hfalse Bool.false_ne_true, fun hsome =>
      Exists.elim hsome fun p hp => absurd hp (hlocks p)⟩
  · rw [show s.point p = .out from hout] at hp
    cases hp
  · rw [show s.point p = .out from hout] at hp
    cases hp
  · exact absurd (hpoint p _ hp) Point.noConfusion
  · exact absurd (hpoint p _ hp) Point.noConfusion

/-! ### The pointers in a block -/

/-- `bap[i]`; the count of a part of the free list is in the first word. -/
def ptr (content : Fblk) (i : Nat) : Nat :=
  if i = 0 then content.dfNfree.toNat else content.dfFree (i - 1)

def setPtr (content : Fblk) (i v : Nat) : Fblk :=
  if i = 0 then { content with dfNfree := v }
  else { content with dfFree := update content.dfFree (i - 1) v }

def cleared : Fblk := ⟨0, fun _ => 0⟩

@[simp]
theorem ptr_cleared : ptr cleared i = 0 := by
  unfold ptr cleared
  split_ifs
  · rfl
  · rfl

theorem ptr_setPtr (content : Fblk) (i j v : Nat) :
    ptr (setPtr content i v) j = if j = i then v else ptr content j := by
  unfold ptr setPtr
  by_cases hi : i = 0
  · by_cases hj : j = 0
    · rw [if_pos hi, if_pos hj, if_pos (hj.trans hi.symm)]
      rfl
    · rw [if_pos hi, if_neg hj, if_neg (by omega), if_neg hj]
  · by_cases hj : j = 0
    · rw [if_neg hi, if_pos hj, if_neg (by omega), if_pos hj]
    rw [if_neg hi, if_neg hj, if_neg hj]
    split_ifs with heq
    · rw [heq]
      exact update_self _ _ _
    · exact update_of_ne (by omega) _ _

/-! ### The calls -/

theorem Idle.unlocked (h : Idle s) : s.sFlock ≠ true := by
  intro hflock
  obtain ⟨p, hp⟩ := h.inv.calls.locked.mp hflock
  rw [show s.point p = .out from h.out] at hp
  cases hp

theorem Inv.goOn (h : Inv s) (hleft : ∀ bno, s.point () ≠ .leftover bno) : Inv (S5.goOn s) := by
  unfold S5.goOn
  cases hrun : proceed s () .idle false with
  | none => exact h
  | some t =>
    have hclear : Clear s (.run () .idle false) :=
      ⟨fun _ _ => rfl, fun bno hbno => absurd hbno (hleft bno)⟩
    exact h.step hclear (Step.run hrun)

theorem goOn_out (hout : s.point () = .out) : goOn s = s := by
  unfold goOn proceed
  rw [hout]
  rfl

theorem goOn_nospace (hp : s.point () = .nospace) :
    goOn s = { goTo s () .out with result := update s.result () (some none) } := by
  unfold goOn proceed
  rw [hp]
  rfl

theorem goOn_bread (hp : s.point () = .bread b) : goOn s = refill s () b false := by
  unfold goOn proceed
  rw [hp]
  rfl

/-- What `blkalloc` does: it takes a free block off the list, or there is none. -/
structure Allocates (s t : State Unit) (r : Option Nat) : Prop where
  idle : Idle t
  block : t.block = s.block
  bad : ∀ c, badblock t c ↔ badblock s c
  answer : r = none ∧ t.taken = s.taken ∨
    ∃ b, r = some b ∧ IsFree s b ∧ t.taken = update s.taken b 1

variable {t : State Unit}

theorem Allocates.full (h : Allocates s t none) : t.taken = s.taken := by
  rcases h.answer with ⟨-, htaken⟩ | ⟨b, hb, -⟩
  · exact htaken
  · cases hb

theorem Allocates.free (h : Allocates s t (some b)) : IsFree s b ∧ t.taken = update s.taken b 1 := by
  rcases h.answer with ⟨hnone, -⟩ | ⟨c, hc, hfree⟩
  · cases hnone
  · obtain rfl := Option.some.inj hc
    exact hfree

theorem handOut_eq (hlow : 0 < s.sNfree) (hhigh : s.sNfree ≤ NICFREE) :
    handOut s () b = { goTo s () .out with
      sTfree := s.sTfree - 1
      result := update s.result () (some (some b)) } :=
  if_neg (by omega)

/-- The first turn of `blkalloc`. -/
theorem Idle.allocate_cases (h : Idle s) : allocate s () = nospace s () ∨
    (∃ b n, IsFree s b ∧ 0 < n ∧ n ≤ NICFREE ∧
      allocate s () = handOut { take s b with sNfree := (n : Nat) } () b) ∨
    ∃ b, IsFree s b ∧ 0 < toShort (s.block b).dfNfree ∧ toShort (s.block b).dfNfree ≤ NICFREE ∧
      allocate s () = goTo { take s b with sNfree := 0, sFlock := true } () (.bread b) := by
  have hnobody := h.inv.calls.unlocked h.unlocked
  obtain ⟨l, hlist, hnodup, hfree⟩ := h.inv.sound.list
  obtain ⟨hnamed, hcount⟩ := hlist.named hnobody
  unfold allocate
  rcases hnamed with ⟨hzero, hl⟩ | hchain
  · rw [hzero]
    exact .inl rfl
  have hrange := hchain.range
  obtain ⟨n, hn⟩ : ∃ n : Nat, s.sNfree = n + 1 := ⟨s.sNfree.toNat - 1, by omega⟩
  have htoNat : s.sNfree.toNat = n + 1 := by omega
  rw [hn] at hchain
  rw [htoNat]
  rcases hchain.pop with ⟨rfl, hend, hl⟩ | ⟨rfl, -, rest, rfl, hrest⟩ | ⟨hne, rest, rfl, hrest⟩
  · rw [popFree, if_pos hend]
    exact .inl rfl
  · have hb := (hfree _).mp (.head _)
    have hpart := hrest.range
    have hshort : toShort (s.block (s.sFree 0)).dfNfree = (s.block (s.sFree 0)).dfNfree := by
      unfold toShort
      have hmax : (NICFREE : Int) = 50 := rfl
      omega
    rw [popFree_good h.inv.isize hb]
    exact .inr (.inr ⟨_, hb, by rw [hshort]; exact hpart.1, by rw [hshort]; exact hpart.2, rfl⟩)
  · have hb := (hfree _).mp (.head _)
    rw [popFree_good h.inv.isize hb]
    obtain ⟨m, rfl⟩ := Nat.exists_eq_succ_of_ne_zero hne
    exact .inr (.inl ⟨_, m.succ, hb, Nat.succ_pos m, by omega, rfl⟩)

theorem blkalloc_eq (hrun : goOn (allocate s ()) = t) (hout : t.point () = .out) :
    blkalloc s = ((t.result ()).join, t) := by
  unfold blkalloc
  rw [hrun, goOn_out hout]

theorem blkalloc_allocates (h : Idle s) : Allocates s (blkalloc s).2 (blkalloc s).1 := by
  have hinv : Inv (allocate s ()) := h.inv.allocate h.unlocked
  rcases h.allocate_cases with hnone | ⟨b, n, hb, hpos, hmax, hsome⟩ | ⟨b, hb, hlow, hhigh, hread⟩
  · rw [hnone] at hinv
    have hgood := hinv.goOn fun bno hbno => Point.noConfusion hbno
    have hrun := goOn_nospace (show (nospace s ()).point () = .nospace from rfl)
    rw [hrun] at hgood
    rw [blkalloc_eq ((congrArg goOn hnone).trans hrun) rfl]
    exact ⟨⟨hgood, rfl⟩, rfl, fun c => .rfl, .inl ⟨rfl, rfl⟩⟩
  · rw [handOut_eq (Int.natCast_pos.mpr hpos) (Int.ofNat_le.mpr hmax)] at hsome
    rw [hsome] at hinv
    rw [blkalloc_eq ((congrArg goOn hsome).trans (goOn_out rfl)) rfl]
    refine ⟨⟨hinv, rfl⟩, rfl, fun c => .rfl, .inr ⟨b, rfl, hb, ?_⟩⟩
    show update s.taken b (s.taken b + 1) = update s.taken b 1
    rw [hb.2]
  · rw [hread] at hinv
    have hgood := hinv.goOn fun bno hbno => Point.noConfusion hbno
    have hrun := goOn_bread
      (show (goTo { take s b with sNfree := 0, sFlock := true } () (.bread b)).point () = .bread b
        from rfl)
    unfold refill at hrun
    rw [handOut_eq (by exact hlow) (by exact hhigh)] at hrun
    rw [hrun] at hgood
    rw [blkalloc_eq ((congrArg goOn hread).trans hrun) rfl]
    refine ⟨⟨hgood, rfl⟩, rfl, fun c => .rfl, .inr ⟨b, rfl, hb, ?_⟩⟩
    show update s.taken b (s.taken b + 1) = update s.taken b 1
    rw [hb.2]

/-- What `blkfree` does: the block goes back to the list. What is stored there is lost. -/
structure Frees (s t : State Unit) (bno : Nat) : Prop where
  idle : Idle t
  block : ∀ c, c ≠ bno → t.block c = s.block c
  bad : ∀ c, badblock t c ↔ badblock s c
  taken : t.taken = update s.taken bno 0

theorem goOn_spill (hp : s.point () = .spill b) : goOn s = spill s () b := by
  unfold goOn proceed
  rw [hp]
  rfl

def ended (s : State Unit) : State Unit :=
  if s.sNfree ≤ 0 then { s with sNfree := 1, sFree := update s.sFree 0 0 } else s

theorem release_eq (hgood : ¬ badblock s b) :
    release s () b .idle = if (NICFREE : Int) ≤ (ended s).sNfree then
      goTo { ended s with sFlock := true } () (.spill b) else putBack (ended s) () b := by
  unfold release
  rw [if_neg hgood]
  rfl

theorem ended_same (s : State Unit) : (ended s).block = s.block ∧ (ended s).taken = s.taken ∧
    ∀ c, badblock (ended s) c ↔ badblock s c := by
  unfold ended
  split_ifs
  · exact ⟨rfl, rfl, fun c => .rfl⟩
  · exact ⟨rfl, rfl, fun c => .rfl⟩

theorem blkfree_frees (h : Idle s) (hgood : ¬ badblock s b) (htaken : s.taken b = 1) :
    Frees s (blkfree s b) b := by
  have hinv : Inv (release s () b .idle) := h.inv.release .idle h.unlocked hgood htaken
    fun q hq => absurd (Subsingleton.elim q ()) hq
  obtain ⟨hblock, htakens, hbad⟩ := ended_same s
  have htaken' : update (ended s).taken b ((ended s).taken b - 1) = update s.taken b 0 := by
    rw [htakens, htaken]
  unfold blkfree
  rw [release_eq hgood] at hinv ⊢
  by_cases hfull : (NICFREE : Int) ≤ (ended s).sNfree
  · rw [if_pos hfull] at hinv ⊢
    have hend := hinv.goOn fun bno hbno => Point.noConfusion hbno
    have hrun := goOn_spill
      (show (goTo { ended s with sFlock := true } () (.spill b)).point () = .spill b from rfl)
    rw [hrun] at hend ⊢
    refine ⟨⟨hend, rfl⟩, fun c hc => ?_, hbad, htaken'⟩
    exact (update_of_ne hc _ _).trans (congrFun hblock c)
  · rw [if_neg hfull] at hinv ⊢
    rw [goOn_out (show (putBack (ended s) () b).point () = .out from rfl)]
    exact ⟨⟨hinv, rfl⟩, fun c _ => congrFun hblock c, hbad, htaken'⟩

theorem Idle.write (h : Idle s) (hgood : ¬ badblock s b) (htaken : s.taken b = 1) (content : Fblk) :
    Idle { s with block := update s.block b content } := by
  have howner : Allocated s b := by
    refine ⟨hgood, by omega, fun p hp => ?_⟩
    rw [show s.point p = .out from h.out] at hp
    cases hp
  exact ⟨h.inv.step (show Clear s (.write b content) from trivial) (Step.write howner), h.out⟩

end Svr42.S5

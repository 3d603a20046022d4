import Svr42.FlockWalk

/-! `flckadj` as a whole: the list stays well formed, and a successful request sets the owner's lock
on every byte of the region and on no other. -/

namespace Svr42.Flck
open List

def Unblocked (ld : Flock) (l : List Filock) : Prop :=
  ∀ f ∈ l, f.set.owner ≠ ld.owner → f.set.lStart ≤ ld.lEnd → ld.lStart ≤ f.set.lEnd →
    f.set.lType = .rdlck ∧ ld.lType = .rdlck

variable {f : Filock}

section

variable {k : Kmem} {ld : Flock} {mem : Mem} {l : List Filock} {a : Adj}

variable {g : Filock}

/-- An entry of the cut list: one the request does not touch, or the part of one before it. -/
theorem cut_cases (h : cut ld f = some g) : g = f ∧ ¬ Touches ld f.set ∨
      g = truncated f (ld.lStart - 1) ∧ Touches ld f.set ∧ f.set.lType ≠ ld.lType ∧
        f.set.lStart < ld.lStart := by
  rw [cut] at h
  by_cases ht : Touches ld f.set
  · rw [if_pos ht] at h
    by_cases hfront : f.set.lType ≠ ld.lType ∧ f.set.lStart < ld.lStart
    · rw [if_pos hfront, Option.some.injEq] at h
      exact .inr ⟨h.symm, ht, hfront⟩
    · rw [if_neg hfront] at h
      exact absurd h (by simp)
  · rw [if_neg ht, Option.some.injEq] at h
    exact .inl ⟨h.symm, ht⟩

theorem Wf.cut (h : Wf l) : Wf (l.filterMap (cut ld)) :=
  h.filterMap fun f hf _ hg => cut_shrunk (h.valid f hf) hg

theorem Wf.cutBefore (h : Wf l) : Wf (l.filterMap (cutBefore ld)) :=
  h.filterMap fun f hf _ hg => cutBefore_shrunk (h.valid f hf) hg

theorem tailPiece_apart (h : Wf l) (hf : f ∈ l) (hs : Splits ld f.set) (hld : ld.lStart ≤ ld.lEnd)
    (p : Nat) : ∀ g ∈ l.filterMap (cut ld), Apart (tailPiece ld f p).set g.set := by
  intro g hg
  obtain ⟨g', hg', hcut⟩ := mem_filterMap.mp hg
  have hshrunk := cut_shrunk (h.valid g' hg') hcut
  have hstart := hs.2.2.1
  by_cases heq : g' = f
  · subst heq
    have hgeq : g = truncated g' (ld.lStart - 1) := by
      rcases cut_cases hcut with ⟨-, hnot⟩ | ⟨hgeq, -⟩
      · exact absurd (hs.touches hld) hnot
      · exact hgeq
    subst hgeq
    refine ⟨fun _ => Or.inr ?_, fun _ _ => Or.inr ?_, fun hne => absurd rfl hne⟩
    · show ld.lStart - 1 < ld.lEnd + 1
      omega
    · show ld.lStart - 1 + 1 < ld.lEnd + 1
      omega
  · refine (h.apart f hf g' hg' (Ne.symm heq)).shrink rfl rfl ?_ (Int.le_refl _) hshrunk.owner
      hshrunk.type (Int.le_of_eq hshrunk.start.symm) hshrunk.end
    show f.set.lStart ≤ ld.lEnd + 1
    omega

theorem tailPiece_valid (h : Wf l) (hf : f ∈ l) (hs : Splits ld f.set) (p : Nat) :
    Valid (tailPiece ld f p).set := by
  have hv := h.valid f hf
  have hsplit := hs.2.2
  have hnonneg := hv.nonneg
  refine ⟨?_, ?_, hv.bounded, hv.type⟩
  · show 0 ≤ ld.lEnd + 1
    omega
  · show ld.lEnd + 1 ≤ f.set.lEnd
    omega

theorem LoopOk.wf {r : Adj × Option (Option Errno)} (h : LoopOk k ld mem l r) (hwf : Wf l)
    (hld : ld.lStart ≤ ld.lEnd) : Wf r.1.list := by
  cases h with
  | covered _ _ hlist _ => exact hlist ▸ hwf
  | noTail _ _ _ hlist _ _ => exact hlist ▸ hwf.cutBefore
  | split hf hs _ hp hins _ _ _ _ _ _ =>
    exact hwf.cut.insert hins (tailPiece_valid hwf hf hs _) hp (tailPiece_apart hwf hf hs hld _)
  | through _ hlist _ _ _ _ _ _ => exact hlist ▸ hwf.cut

/-- When the loop has run its course the list holds what is left of the entries, and the piece of
one that was split. -/
theorem LoopOk.of_mem (h : LoopOk k ld mem l (a, none)) (hg : g ∈ a.list) :
    (∃ f ∈ l, cut ld f = some g) ∨
      ∃ f ∈ l, Splits ld f.set ∧ g.set = { f.set with lStart := ld.lEnd + 1 } := by
  cases h with
  | split hf hs _ _ hins =>
    rcases (hins.mem_iff g).mp hg with rfl | hg
    · exact .inr ⟨_, hf, hs, rfl⟩
    · exact .inl (mem_filterMap.mp hg)
  | through _ hlist =>
    rw [hlist] at hg
    exact .inl (mem_filterMap.mp hg)

theorem LoopOk.mem_of_cut (h : LoopOk k ld mem l (a, none)) (hf : f ∈ l) (hcut : cut ld f = some g) :
    g ∈ a.list := by
  have hmem : g ∈ l.filterMap (cut ld) := mem_filterMap.mpr ⟨f, hf, hcut⟩
  cases h with
  | split _ _ _ _ hins => exact (hins.mem_iff g).mpr (.inr hmem)
  | through _ hlist => exact hlist ▸ hmem

variable {b : Int}

theorem Wf.eq_of_byte (h : Wf l) (hf : f ∈ l) (hg : g ∈ l) (howner : f.set.owner = g.set.owner)
    (hfb : f.set.lStart ≤ b ∧ b ≤ f.set.lEnd) (hgb : g.set.lStart ≤ b ∧ b ≤ g.set.lEnd) : f = g := by
  by_contra hne
  have := (h.apart f hf g hg hne).disjoint howner
  omega

theorem LoopOk.mem_of_split (h : LoopOk k ld mem l (a, none)) (hwf : Wf l) (hf : f ∈ l)
    (hs : Splits ld f.set) : ∃ g ∈ a.list, g.set = { f.set with lStart := ld.lEnd + 1 } := by
  cases h with
  | split hf' hs' _ _ hins =>
    have hstart := hs.2.2
    have hstart' := hs'.2.2
    have heq := hwf.eq_of_byte hf hf' (hs.1.trans hs'.1.symm) (b := ld.lEnd) (by omega) (by omega)
    subst heq
    exact ⟨_, (hins.mem_iff _).mpr (.inl rfl), rfl⟩
  | through hno _ => exact absurd hs (hno f hf).1

theorem LoopOk.grown (h : LoopOk k ld mem l (a, none)) : Grown ld l a.ld := by
  cases h with
  | split _ _ _ _ _ hgrown => exact hgrown
  | through _ _ hgrown => exact hgrown

variable {ld' : Flock}

theorem Grown.overlap (hgrown : Grown ld l ld') (hb : ld'.lStart ≤ b ∧ b ≤ ld'.lEnd)
    (hout : ¬ (ld.lStart ≤ b ∧ b ≤ ld.lEnd)) :
    ∃ f ∈ l, Touches ld f.set ∧ f.set.lType = ld.lType ∧ f.set.lStart ≤ b ∧ b ≤ f.set.lEnd := by
  rcases Int.lt_or_le b ld.lStart with hbefore | hafter
  · rcases hgrown.startFrom with heq | ⟨f, hf, ht, htype, hfrom⟩
    · omega
    · have hnear := ht.2
      rw [if_pos htype] at hnear
      exact ⟨f, hf, ht, htype, by omega, by omega⟩
  · rcases hgrown.endFrom with heq | ⟨f, hf, ht, htype, hfrom⟩
    · omega
    · have hnear := ht.2
      rw [if_pos htype] at hnear
      exact ⟨f, hf, ht, htype, by omega, by omega⟩

/-- What the owners hold when the loop has run its course: all they held, except the owner of the
request on the region, and with its type on the region it has grown to. -/
theorem LoopOk.holds (h : LoopOk k ld mem l (a, none)) (hwf : Wf l) (o : Int × Int) (b : Int)
    (t : LType) : Holds a.list o b t ↔ Holds l o b t ∧
      ¬ (o = ld.owner ∧ ld.lStart ≤ b ∧ b ≤ ld.lEnd) ∧
      ¬ (o = ld.owner ∧ t = ld.lType ∧ a.ld.lStart ≤ b ∧ b ≤ a.ld.lEnd) := by
  constructor
  · rintro ⟨g, hg, rfl, hstart, hend, rfl⟩
    rcases h.of_mem hg with ⟨f, hf, hcut⟩ | ⟨f, hf, hs, hset⟩
    · have hshrunk := cut_shrunk (hwf.valid f hf) hcut
      have hfb : f.set.lStart ≤ b ∧ b ≤ f.set.lEnd :=
        ⟨hshrunk.start ▸ hstart, Int.le_trans hend hshrunk.end⟩
      refine ⟨⟨f, hf, hshrunk.owner.symm, hfb.1, hfb.2, hshrunk.type.symm⟩, ?_, ?_⟩
      · rintro ⟨howner, hb⟩
        rcases cut_cases hcut with ⟨rfl, hnot⟩ | ⟨rfl, -, -, -⟩
        · refine hnot ⟨howner, ?_⟩
          split <;> omega
        · have hend' : b ≤ ld.lStart - 1 := hend
          omega
      · rintro ⟨howner, htype, hb⟩
        by_cases hin : ld.lStart ≤ b ∧ b ≤ ld.lEnd
        · rcases cut_cases hcut with ⟨rfl, hnot⟩ | ⟨rfl, -, hdiff, -⟩
          · refine hnot ⟨howner, ?_⟩
            split <;> omega
          · exact hdiff htype
        · obtain ⟨y, hy, hty, -, hyb⟩ := h.grown.overlap hb hin
          have heq := hwf.eq_of_byte hf hy ((hshrunk.owner.symm.trans howner).trans hty.1.symm) hfb hyb
          subst heq
          rcases cut_cases hcut with ⟨rfl, hnot⟩ | ⟨-, -, hdiff, -⟩
          · exact hnot hty
          · exact hdiff (hshrunk.type.symm.trans htype)
    · rw [hset] at hstart hend ⊢
      have hstart' : ld.lEnd + 1 ≤ b := hstart
      have hend' : b ≤ f.set.lEnd := hend
      have hsplit := hs.2.2.1
      refine ⟨⟨f, hf, rfl, by omega, hend', rfl⟩, ?_, ?_⟩
      · rintro ⟨-, -, hb⟩
        omega
      · rintro ⟨-, htype, -⟩
        exact hs.2.1 htype
  · rintro ⟨⟨f, hf, rfl, hstart, hend, rfl⟩, hout, hgrown⟩
    by_cases ht : Touches ld f.set
    · have hin : ¬ (ld.lStart ≤ b ∧ b ≤ ld.lEnd) := fun hb => hout ⟨ht.1, hb⟩
      by_cases htype : f.set.lType = ld.lType
      · have htakes := h.grown.takes f hf ht htype
        exact absurd ⟨ht.1, htype, by omega, by omega⟩ hgrown
      have hnear := ht.2
      rw [if_neg htype] at hnear
      rcases Int.lt_or_le b ld.lStart with hbefore | hafter
      · have hcut : cut ld f = some (truncated f (ld.lStart - 1)) := by
          rw [cut, if_pos ht, if_pos ⟨htype, by omega⟩]
        refine ⟨_, h.mem_of_cut hf hcut, rfl, hstart, ?_, rfl⟩
        show b ≤ ld.lStart - 1
        omega
      · obtain ⟨g, hg, hset⟩ := h.mem_of_split hwf hf ⟨ht.1, htype, hnear.1, by omega⟩
        refine ⟨g, hg, ?_⟩
        rw [hset]
        refine ⟨rfl, ?_, hend, rfl⟩
        show ld.lEnd + 1 ≤ b
        omega
    · exact ⟨f, h.mem_of_cut hf (cut_of_not_touches ht), rfl, hstart, hend, rfl⟩

theorem Grown.owner (h : Grown ld l ld') : ld'.owner = ld.owner := by
  rw [h.eq]
  rfl

theorem Grown.type (h : Grown ld l ld') : ld'.lType = ld.lType := by
  rw [h.eq]

section

variable (h : LoopOk k ld mem l (a, none))
include h

theorem LoopOk.other_mem (hg : g ∈ a.list) (howner : g.set.owner ≠ ld.owner) : g ∈ l := by
  rcases h.of_mem hg with ⟨f, hf, hcut⟩ | ⟨f, hf, hs, hset⟩
  · rcases cut_cases hcut with ⟨rfl, -⟩ | ⟨rfl, ht, -, -⟩
    · exact hf
    · exact absurd ht.1 howner
  · exact absurd (by rw [hset]; exact hs.1) howner

theorem LoopOk.disjoint (hwf : Wf l) (hg : g ∈ a.list) (howner : g.set.owner = ld.owner) (hgb : g.set.lStart ≤ b ∧ b ≤ g.set.lEnd) : ¬ (a.ld.lStart ≤ b ∧ b ≤ a.ld.lEnd) := by
  intro hb
  obtain ⟨⟨f, hf, hfo, hfs, hfe, hft⟩, hout, hgrown⟩ :=
    (h.holds hwf g.set.owner b g.set.lType).mp ⟨g, hg, rfl, hgb.1, hgb.2, rfl⟩
  obtain ⟨y, hy, hty, htype, hyb⟩ := h.grown.overlap hb fun hin => hout ⟨howner, hin⟩
  have heq := hwf.eq_of_byte hf hy ((hfo.trans howner).trans hty.1.symm) ⟨hfs, hfe⟩ hyb
  subst heq
  exact hgrown ⟨howner, hft.symm.trans htype, hb⟩

/-- What the owner has left of its locks of the type does not adjoin that region. -/
theorem LoopOk.untouching (hwf : Wf l) (hld : ld.lStart ≤ ld.lEnd) (hg : g ∈ a.list)
    (howner : g.set.owner = ld.owner) (htype : g.set.lType = ld.lType) :
    g.set.lEnd + 1 ≠ a.ld.lStart ∧ a.ld.lEnd + 1 ≠ g.set.lStart := by
  have hgrown := h.grown
  rcases h.of_mem hg with ⟨f, hf, hcut⟩ | ⟨f, hf, hs, hset⟩
  · rcases cut_cases hcut with ⟨rfl, hnot⟩ | ⟨rfl, -, hdiff, -⟩
    · have hregion := (hwf.valid g hf).region
      have hfar : ¬ (g.set.lStart ≤ ld.lEnd + 1 ∧ ld.lStart ≤ g.set.lEnd + 1) :=
        fun hin => hnot ⟨howner, by rwa [if_pos htype]⟩
      have hgap : ∀ y ∈ l, Touches ld y.set → y.set.lType = ld.lType →
          g.set.lEnd + 1 < y.set.lStart ∨ y.set.lEnd + 1 < g.set.lStart := by
        intro y hy hty hytype
        refine (hwf.apart g hf y hy ?_).untouching (howner.trans hty.1.symm) (htype.trans hytype.symm)
        rintro rfl
        exact hnot hty
      constructor
      · rcases hgrown.startFrom with heq | ⟨y, hy, hty, hytype, hfrom⟩
        · omega
        · have := hgap y hy hty hytype
          have := (hwf.valid y hy).region
          omega
      · rcases hgrown.endFrom with heq | ⟨y, hy, hty, hytype, hfrom⟩
        · omega
        · have := hgap y hy hty hytype
          have := (hwf.valid y hy).region
          omega
    · exact absurd htype hdiff
  · exact absurd (by rw [hset] at htype; exact htype) hs.2.1

/-- What is left on the list is apart from the request. -/
theorem LoopOk.apart (hwf : Wf l) (hld : ld.lStart ≤ ld.lEnd) (hfree : Unblocked ld l)
    (hg : g ∈ a.list) : Apart a.ld g.set := by
  have hgrown := h.grown
  have hle := hgrown.startLe
  have hge := hgrown.endGe
  have hregion := ((h.wf hwf hld).valid g hg).region
  refine ⟨fun ho => ?_, fun ho ht => ?_, fun ho hab hba => ?_⟩
  · rw [hgrown.owner] at ho
    by_contra hnot
    refine h.disjoint hwf hg ho.symm (b := max a.ld.lStart g.set.lStart) ?_ ?_ <;> omega
  · rw [hgrown.owner] at ho
    rw [hgrown.type] at ht
    have hgap := h.untouching hwf hld hg ho.symm ht.symm
    by_contra hnot
    refine h.disjoint hwf hg ho.symm (b := max a.ld.lStart g.set.lStart) ?_ ?_ <;> omega
  · rw [hgrown.owner] at ho
    have hgl := h.other_mem hg ho.symm
    rw [hgrown.type]
    by_cases hin : ld.lStart ≤ max a.ld.lStart g.set.lStart ∧ max a.ld.lStart g.set.lStart ≤ ld.lEnd
    · exact (hfree g hgl ho.symm (by omega) (by omega)).symm
    obtain ⟨y, hy, hty, htype, hyb⟩ := hgrown.overlap ⟨by omega, by omega⟩ hin
    have hne : y ≠ g := by
      rintro rfl
      exact ho hty.1.symm
    rw [← htype]
    exact (hwf.apart y hy g hgl hne).shared (fun heq => ho (hty.1.symm.trans heq)) (by omega) (by omega)

end

/-! ### The insertion -/

/-- What `flckadj` comes to. -/
inductive AdjOk (k : Kmem) (ld : Flock) (mem : Mem) (l : List Filock) : Adj × Option Errno → Prop
  | returned {a : Adj} {code : Option Errno} :
      LoopOk k ld mem l (a, some code) → AdjOk k ld mem l (a, code)
  | unlocked {a : Adj} : LoopOk k ld mem l (a, none) → ld.lType = .unlck → AdjOk k ld mem l (a, none)
  | locked {a a' : Adj} :
      LoopOk k ld mem l (a, none) → ld.lType ≠ .unlck → a.mem.CanAlloc k →
      Inserted a.list (newEntry k a.mem a.ld) a'.list → a'.mem = a.mem.alloc k →
      a'.wakes = a.wakes → AdjOk k ld mem l (a', none)
  | noEntry {a a' : Adj} :
      LoopOk k ld mem l (a, none) → ld.lType ≠ .unlck → ¬ a.mem.CanAlloc k →
      a'.list = a.list → a'.mem.used = a.mem.used → a'.wakes = a.wakes →
      AdjOk k ld mem l (a', some .enolck)

theorem LoopOk.place (h : LoopOk k ld mem l (a, none)) (hlock : ld.lType ≠ .unlck) : PlaceOk a := by
  cases h with
  | split _ _ _ _ _ _ _ _ _ _ hplace => exact hplace hlock
  | through _ _ _ _ _ _ _ hplace => exact hplace hlock

theorem LoopOk.frame {r : Adj × Option (Option Errno)} (h : LoopOk k ld mem l r) :
    MemFrame mem l r.1.mem r.1.list := by
  cases h with
  | covered _ _ hlist hframe => exact hlist ▸ hframe
  | noTail _ _ _ _ hframe _ => exact hframe
  | split _ _ _ _ _ _ _ _ hframe _ _ => exact hframe
  | through _ _ _ _ _ hframe _ _ => exact hframe

theorem LoopOk.wakeFrame {r : Adj × Option (Option Errno)} (h : LoopOk k ld mem l r) :
    WakeFrame l r.1.list r.1.wakes := by
  cases h with
  | covered _ _ hlist _ => exact fun f hf => .inl (hlist ▸ hf)
  | noTail _ _ _ _ _ hwake => exact hwake
  | split _ _ _ _ _ _ _ _ _ hwake _ => exact hwake
  | through _ _ _ _ _ _ hwake _ => exact hwake

theorem adjInsert_ok (h : LoopOk k ld mem l (a, none)) (hwf : Wf l) (hld : ld.lStart ≤ ld.lEnd) :
    AdjOk k ld mem l (adjInsert k a) := by
  have htype := h.grown.type
  rw [adjInsert]
  split_ifs with hun
  · exact AdjOk.unlocked h (htype ▸ hun)
  · rw [htype] at hun
    by_cases halloc : a.mem.CanAlloc k
    · rw [insflck_succeeds halloc]
      refine AdjOk.locked h hun halloc ?_ rfl rfl
      have hplace := h.place hun
      cases hins : a.insrtp with
      | none => exact head_inserted (hplace.2 hins)
      | some p =>
        obtain ⟨y, hy, rfl, hle⟩ := hplace.1 p hins
        exact placeFrom_inserted (h.wf hwf hld) hy hle
    · obtain ⟨mem', hfail, hused⟩ := insflck_fails halloc a.list a.ld
        (a.insrtp.map fun fl => placeFrom a.list fl a.ld.lStart)
      rw [hfail]
      exact AdjOk.noEntry h hun halloc rfl hused rfl

namespace AdjOk

variable {r : Adj × Option Errno}

theorem frame (h : AdjOk k ld mem l r) : MemFrame mem l r.1.mem r.1.list := by
  cases h with
  | returned h => exact h.frame
  | unlocked h _ => exact h.frame
  | locked h _ _ hins hmem _ =>
    rw [hmem]
    exact h.frame.trans (MemFrame.insert k (fun f hf => (hins.mem_iff f).mp hf) h.frame.inUse)
  | noEntry h _ _ hlist hused _ =>
    have hframe := h.frame
    refine ⟨fun p hp => ?_, fun p hp hnot => ?_, fun p hp => ?_⟩
    · rw [hused]
      exact hframe.inUse p (hlist ▸ hp)
    · rw [hused]
      exact hframe.others p hp hnot
    · exact hframe.fresh p (hlist ▸ hp)

theorem wakeFrame (h : AdjOk k ld mem l r) : WakeFrame l r.1.list r.1.wakes := by
  cases h with
  | returned h => exact h.wakeFrame
  | unlocked h _ => exact h.wakeFrame
  | locked h _ _ hins _ hwakes =>
    intro f hf
    rw [hwakes]
    exact (h.wakeFrame f hf).imp_left fun hin => (hins.mem_iff f).mpr (.inr hin)
  | noEntry h _ _ hlist _ hwakes =>
    intro f hf
    rw [hlist, hwakes]
    exact h.wakeFrame f hf

theorem wf (h : AdjOk k ld mem l r) (hwf : Wf l) (hld : ld.lStart ≤ ld.lEnd)
    (hvalid : ld.lType ≠ .unlck → Valid ld) (hfree : ld.lType ≠ .unlck → Unblocked ld l) :
    Wf r.1.list := by
  cases h with
  | returned h => exact h.wf hwf hld
  | unlocked h _ => exact h.wf hwf hld
  | locked h hun _ hins _ _ =>
    refine (h.wf hwf hld).insert hins ?_ ?_ fun g hg => h.apart hwf hld (hfree hun) hg
    · have hv := hvalid hun
      have hgrown := h.grown
      refine ⟨?_, ?_, ?_, ?_⟩
      · rcases hgrown.startFrom with heq | ⟨y, hy, -, -, hfrom⟩
        · rw [show (newEntry k _ _).set.lStart = ld.lStart from heq]
          exact hv.nonneg
        · rw [show (newEntry k _ _).set.lStart = y.set.lStart from hfrom.symm]
          exact (hwf.valid y hy).nonneg
      · exact Int.le_trans hgrown.startLe (Int.le_trans hld hgrown.endGe)
      · rcases hgrown.endFrom with heq | ⟨y, hy, -, -, hfrom⟩
        · rw [show (newEntry k _ _).set.lEnd = ld.lEnd from heq]
          exact hv.bounded
        · rw [show (newEntry k _ _).set.lEnd = y.set.lEnd from hfrom.symm]
          exact (hwf.valid y hy).bounded
      · rw [show (newEntry k _ _).set.lType = ld.lType from hgrown.type]
        exact hv.type
    · exact fun hin => k.place_fresh _ _ (h.frame.inUse _ hin)
  | noEntry h _ _ hlist _ _ => exact hlist ▸ h.wf hwf hld

/-- A request that succeeds sets the owner's lock on every byte of its region, and changes no other
byte and no other owner. -/
theorem holds (h : AdjOk k ld mem l (a, none)) (hwf : Wf l) (o : Int × Int) (b : Int) (t : LType) :
    Holds a.list o b t ↔
      if o = ld.owner ∧ ld.lStart ≤ b ∧ b ≤ ld.lEnd then ld.lType ≠ .unlck ∧ t = ld.lType
      else Holds l o b t := by
  have hnone : ∀ f ∈ l, f.set.lType ≠ .unlck := by
    intro f hf heq
    rcases (hwf.valid f hf).type with ht | ht <;> rw [ht] at heq <;> exact absurd heq (by simp)
  cases h with
  | returned h =>
    cases h with
    | covered hf hc hlist hframe =>
      rename_i f
      rw [hlist]
      split
      · rename_i hin
        have hcover := hc.2.2
        constructor
        · rintro ⟨g, hg, hgo, hgs, hge, rfl⟩
          have heq := hwf.eq_of_byte hf hg ((hc.1.trans hin.1.symm).trans hgo.symm) (b := b)
            (by omega) ⟨hgs, hge⟩
          subst heq
          exact ⟨fun hun => hnone f hf (hc.2.1.trans hun), hc.2.1⟩
        · rintro ⟨-, rfl⟩
          exact ⟨f, hf, hc.1.trans hin.1.symm, by omega, by omega, hc.2.1⟩
      · exact .rfl
  | unlocked h hun =>
    have hgrown := h.grown
    have hsame : a.ld.lStart = ld.lStart ∧ a.ld.lEnd = ld.lEnd := by
      constructor
      · rcases hgrown.startFrom with heq | ⟨y, hy, -, htype, -⟩
        · exact heq
        · exact absurd (htype.trans hun) (hnone y hy)
      · rcases hgrown.endFrom with heq | ⟨y, hy, -, htype, -⟩
        · exact heq
        · exact absurd (htype.trans hun) (hnone y hy)
    rw [h.holds hwf o b t, hsame.1, hsame.2]
    split
    · rename_i hin
      simp [hin, hun]
    · rename_i hout
      constructor
      · exact fun hh => hh.1
      · exact fun hh => ⟨hh, hout, fun hin => hout ⟨hin.1, hin.2.2⟩⟩
  | locked h hun halloc hins hmem hwakes =>
    rename_i a₁
    have hgrown := h.grown
    have hle := hgrown.startLe
    have hge := hgrown.endGe
    have hins' : Holds a.list o b t ↔
        (o = ld.owner ∧ t = ld.lType ∧ a₁.ld.lStart ≤ b ∧ b ≤ a₁.ld.lEnd) ∨ Holds a₁.list o b t := by
      constructor
      · rintro ⟨g, hg, rfl, hgs, hge, rfl⟩
        rcases (hins.mem_iff g).mp hg with rfl | hg
        · exact .inl ⟨hgrown.owner, hgrown.type, hgs, hge⟩
        · exact .inr ⟨g, hg, rfl, hgs, hge, rfl⟩
      · rintro (⟨rfl, rfl, hb⟩ | ⟨g, hg, hrest⟩)
        · exact ⟨_, (hins.mem_iff _).mpr (.inl rfl), hgrown.owner, hb.1, hb.2, hgrown.type⟩
        · exact ⟨g, (hins.mem_iff g).mpr (.inr hg), hrest⟩
    rw [hins', h.holds hwf o b t]
    split
    · rename_i hin
      constructor
      · rintro (hnew | ⟨-, hout, -⟩)
        · exact ⟨hun, hnew.2.1⟩
        · exact absurd hin hout
      · rintro ⟨-, rfl⟩
        exact .inl ⟨hin.1, rfl, by omega, by omega⟩
    · rename_i hout
      constructor
      · rintro (⟨rfl, rfl, hb⟩ | hh)
        · obtain ⟨y, hy, hty, htype, hyb⟩ := hgrown.overlap hb fun hin => hout ⟨rfl, hin⟩
          exact ⟨y, hy, hty.1, hyb.1, hyb.2, htype⟩
        · exact hh.1
      · intro hh
        by_cases hnew : o = ld.owner ∧ t = ld.lType ∧ a₁.ld.lStart ≤ b ∧ b ≤ a₁.ld.lEnd
        · exact .inl hnew
        · exact .inr ⟨hh, hout, hnew⟩

end AdjOk

end

/-! ### `blocked` -/

def Blocks (x : Xenix) (ld : Flock) (f : Filock) : Prop :=
  f.set.owner ≠ ld.owner ∧ f.set.lStart ≤ ld.lEnd ∧ ld.lStart ≤ f.set.lEnd ∧
    conflicts x ld f.set = true

/-- Where `flckadj` may start: nothing of the owner before it is touched. -/
def StartOk (ld : Flock) (l : List Filock) : Option Nat → Prop
  | none => ∀ f ∈ l, ld.lStart ≤ f.set.lStart
  | some p => ∃ pre flp rest, l = pre ++ flp :: rest ∧ flp.addr = p ∧
      flp.set.lStart ≤ ld.lStart ∧
      ∀ f ∈ pre, f.set.owner = ld.owner → f.set.lEnd + 1 < ld.lStart

section

variable {x : Xenix} {ld : Flock}

theorem blockedFrom_some {l : List Filock} (h : blockedFrom x ld l = some f) : f ∈ l ∧ Blocks x ld f := by
  induction l with
  | nil => exact absurd h (by simp [blockedFrom])
  | cons g l ih =>
    rw [blockedFrom] at h
    split at h
    · exact absurd h (by simp)
    · rename_i hend
      split at h
      · rename_i hb
        cases h
        rw [sameOwner_false_iff] at hb
        exact ⟨.head _, hb.2.1, by omega, hb.1, hb.2.2⟩
      · exact ⟨.tail _ (ih h).1, (ih h).2⟩

theorem blockedFrom_none {l : List Filock} (hsorted : l.Pairwise fun a b => a.set.lStart ≤ b.set.lStart)
    (h : blockedFrom x ld l = none) : ∀ f ∈ l, ¬ Blocks x ld f := by
  induction l with
  | nil => exact fun f hf => absurd hf (not_mem_nil)
  | cons g l ih =>
    rw [pairwise_cons] at hsorted
    rw [blockedFrom] at h
    split at h
    · rename_i hend
      rintro f hf ⟨-, hstart, -⟩
      rcases mem_cons.mp hf with rfl | hf
      · omega
      · have := hsorted.1 f hf
        omega
    · split at h
      · exact absurd h (by simp)
      · rename_i hb
        intro f hf
        rcases mem_cons.mp hf with rfl | hf
        · rintro ⟨howner, -, hend, hconf⟩
          exact hb ⟨hend, (sameOwner_false_iff _ _).mpr howner, hconf⟩
        · exact ih hsorted.2 h f hf

theorem startOk_last {front l : List Filock} {insrt : Option Nat}
    (hinsrt : insrt = front.getLast?.map Filock.addr) (hfront : ∀ f ∈ front, f.set.lStart < ld.lStart ∧
      (f.set.owner = ld.owner → f.set.lEnd + 1 < ld.lStart)) (hl : ∀ f ∈ l, ld.lStart ≤ f.set.lStart) :
    StartOk ld (front ++ l) insrt := by
  subst hinsrt
  rcases eq_nil_or_concat front with rfl | ⟨pre, flp, rfl⟩
  · exact hl
  rw [concat_eq_append] at hfront ⊢
  rw [List.getLast?_concat]
  refine ⟨pre, flp, l, by simp, rfl, Int.le_of_lt (hfront flp (by simp)).1, fun f hf => ?_⟩
  exact (hfront f (by simp [hf])).2

/-- The first loop of `blocked`, with the entries `front` behind it. -/
theorem blockedBefore_ok {front l : List Filock} {insrt insrt' : Option Nat} {found : Option Filock}
    {rest : List Filock} (hld : ld.lStart ≤ ld.lEnd)
    (hsorted : (front ++ l).Pairwise fun a b => a.set.lStart ≤ b.set.lStart)
    (hinsrt : insrt = front.getLast?.map Filock.addr) (hfront : ∀ f ∈ front, f.set.lStart < ld.lStart ∧
      (f.set.owner = ld.owner → f.set.lEnd + 1 < ld.lStart) ∧ ¬ Blocks x ld f)
    (h : blockedBefore x ld insrt l = (found, insrt', rest)) :
    (∃ f ∈ l, found = some f ∧ Blocks x ld f) ∨
      found = none ∧ StartOk ld (front ++ l) insrt' ∧
        ∃ mid, front ++ l = mid ++ rest ∧ ∀ f ∈ mid, ¬ Blocks x ld f := by
  induction l generalizing front insrt with
  | nil =>
    rw [blockedBefore] at h
    cases h
    refine .inr ⟨rfl, startOk_last hinsrt (fun f hf => ?_) (by simp), front, rfl, fun f hf => ?_⟩
    · exact ⟨(hfront f hf).1, (hfront f hf).2.1⟩
    · exact (hfront f hf).2.2
  | cons g l ih =>
    have hnext : ∀ insrt'', insrt'' = some g.addr → (g.set.lStart < ld.lStart ∧
        (g.set.owner = ld.owner → g.set.lEnd + 1 < ld.lStart) ∧ ¬ Blocks x ld g) →
        blockedBefore x ld insrt'' l = (found, insrt', rest) →
        (∃ f ∈ g :: l, found = some f ∧ Blocks x ld f) ∨
          found = none ∧ StartOk ld (front ++ g :: l) insrt' ∧
            ∃ mid, front ++ g :: l = mid ++ rest ∧ ∀ f ∈ mid, ¬ Blocks x ld f := by
      intro insrt'' hinsrt'' hg hrun
      have hsplit : front ++ g :: l = (front ++ [g]) ++ l := by simp
      rw [hsplit] at hsorted ⊢
      have hstep := ih hsorted (by rw [List.getLast?_concat]; exact hinsrt'') (fun f hf => by
        rcases mem_append.mp hf with hf | hf
        · exact hfront f hf
        · rw [mem_singleton.mp hf]
          exact hg) hrun
      exact hstep.imp_left fun ⟨f, hf, hrest⟩ => ⟨f, .tail _ hf, hrest⟩
    rw [blockedBefore] at h
    by_cases hlt : g.set.lStart < ld.lStart
    · rw [if_pos hlt] at h
      by_cases howner : sameOwner g.set ld = true
      · rw [if_pos howner] at h
        rw [sameOwner_iff] at howner
        by_cases hnear : ld.lStart - 1 ≤ g.set.lEnd
        · rw [if_pos hnear] at h
          cases h
          refine .inr ⟨rfl, ⟨front, g, l, rfl, rfl, Int.le_of_lt hlt, fun f hf => ?_⟩, front, rfl,
            fun f hf => (hfront f hf).2.2⟩
          exact (hfront f hf).2.1
        · rw [if_neg hnear] at h
          exact hnext _ rfl ⟨hlt, fun _ => by omega, fun hb => hb.1 howner⟩ h
      · rw [if_neg howner] at h
        rw [sameOwner_iff] at howner
        by_cases hb : ld.lStart ≤ g.set.lEnd ∧ conflicts x ld g.set = true
        · rw [if_pos hb] at h
          cases h
          exact .inl ⟨g, .head _, rfl, howner, by omega, hb⟩
        · rw [if_neg hb] at h
          exact hnext _ rfl ⟨hlt, fun heq => absurd heq howner, fun hbl => hb hbl.2.2⟩ h
    · rw [if_neg hlt] at h
      cases h
      have hback := (pairwise_append.mp hsorted).2.1
      rw [pairwise_cons] at hback
      refine .inr ⟨rfl, startOk_last hinsrt (fun f hf => ?_) (fun f hf => ?_), front, rfl,
        fun f hf => (hfront f hf).2.2⟩
      · exact ⟨(hfront f hf).1, (hfront f hf).2.1⟩
      · rcases mem_cons.mp hf with rfl | hf
        · omega
        · have := hback.1 f hf
          omega

/-- `blocked` finds an entry that blocks the request exactly when there is one, and otherwise says
where to start. -/
theorem blocked_ok {l : List Filock} (hwf : Wf l) (hld : ld.lStart ≤ ld.lEnd) :
    (∃ f ∈ l, (blocked x l ld).1 = some f ∧ Blocks x ld f) ∨
      (blocked x l ld).1 = none ∧ StartOk ld l (blocked x l ld).2 ∧ ∀ f ∈ l, ¬ Blocks x ld f := by
  rcases hrun : blockedBefore x ld none l with ⟨found, insrt, rest⟩
  have hsorted : ([] ++ l).Pairwise fun a b : Filock => a.set.lStart ≤ b.set.lStart := by
    rw [nil_append]
    exact hwf.sorted
  have hfirst := blockedBefore_ok hld hsorted rfl (by simp) hrun
  rw [nil_append] at hfirst
  rcases hfirst with ⟨f, hf, rfl, hb⟩ | ⟨rfl, hstart, mid, hsplit, hmid⟩
  · exact .inl ⟨f, hf, by rw [blocked, hrun], hb⟩
  have hval : blocked x l ld = (blockedFrom x ld rest, insrt) := by
    rw [blocked, hrun]
  rw [hval]
  have hsorted := hwf.sorted
  rw [hsplit] at hsorted
  cases hfrom : blockedFrom x ld rest with
  | some f =>
    have hsome := blockedFrom_some hfrom
    exact .inl ⟨f, hsplit ▸ mem_append_right _ hsome.1, rfl, hsome.2⟩
  | none =>
    refine .inr ⟨rfl, hstart, fun f hf => ?_⟩
    rw [hsplit] at hf
    rcases mem_append.mp hf with hf | hf
    · exact hmid f hf
    · exact blockedFrom_none (pairwise_append.mp hsorted).2.1 hfrom f hf

theorem unblocked_of_blocks {l : List Filock} (hwf : Wf l)
    (htype : ld.lType = .rdlck ∨ ld.lType = .wrlck) (h : ∀ f ∈ l, ¬ Blocks x ld f) : Unblocked ld l := by
  intro f hf howner hstart hend
  have hconf : ¬ conflicts x ld f.set = true := fun hc => h f hf ⟨howner, hstart, hend, hc⟩
  rcases (hwf.valid f hf).type with hf' | hf' <;> rcases htype with ht | ht <;>
    simp_all [conflicts]

end

theorem WalkInv.start {ld : Flock} {mem : Mem} {pre todo : List Filock} (insrtp : Option Nat)
    (hwf : Wf (pre ++ todo)) (hld : ld.lStart ≤ ld.lEnd)
    (hin : ∀ p ∈ (pre ++ todo).map Filock.addr, p ∈ mem.used)
    (hpre : ∀ f ∈ pre, f.set.owner = ld.owner → f.set.lEnd + 1 < ld.lStart)
    (hplace : ld.lType ≠ .unlck → PlaceOk ⟨pre ++ todo, mem, [], ld, insrtp⟩) :
    WalkInv ld mem pre todo ⟨pre ++ todo, mem, [], ld, insrtp⟩ := by
  have hfar : ∀ f ∈ pre, ¬ Touches ld f.set := by
    intro f hf ht
    have hend := hpre f hf ht.1
    have hnear := ht.2
    split at hnear <;> omega
  have hcut : ∀ f ∈ pre, cut ld f = some f := fun f hf => cut_of_not_touches (hfar f hf)
  refine ⟨hwf, ?_, rfl, Int.le_refl _, ?_, .inl rfl, ?_, MemFrame.refl hin, ?_, rfl, ?_, hplace⟩
  · rw [filterMap_congr hcut, filterMap_some]
  · exact fun f hf ht => absurd ht (hfar f hf)
  · intro f hf howner
    have hend := hpre f hf howner
    exact ⟨by omega, fun hc => hfar f hf (hc.touches hld)⟩
  · have hzero : pre.countP (fun f => (cut ld f).isNone) = 0 := by
      rw [countP_eq_zero]
      intro f hf
      simp [hcut f hf]
    rw [hzero]
    simp
  · exact fun f hf ht => absurd ht (hfar f hf)

/-- `flckadj` from where `blocked` says, or from the head for an unlock. -/
theorem flckadj_ok (k : Kmem) {ld : Flock} {mem : Mem} {l : List Filock} {insrtp : Option Nat}
    (hwf : Wf l) (hld : ld.lStart ≤ ld.lEnd) (hin : ∀ p ∈ l.map Filock.addr, p ∈ mem.used)
    (hstart : ld.lType = .unlck ∧ insrtp = l.head?.map Filock.addr ∨ StartOk ld l insrtp) :
    AdjOk k ld mem l (flckadj k mem l insrtp ld) := by
  have hend : ∀ pre todo, l = pre ++ todo → entriesFrom l insrtp = todo →
      WalkInv ld mem pre todo ⟨l, mem, [], ld, insrtp⟩ →
      AdjOk k ld mem l (flckadj k mem l insrtp ld) := by
    intro pre todo hl htodo hinv
    have hloop := adjLoop_ok (k := k) hinv hld
    rw [← hl, ← htodo] at hloop
    unfold flckadj
    rcases hres : adjLoop k ⟨l, mem, [], ld, insrtp⟩ (entriesFrom l insrtp) with ⟨a, _ | code⟩
    · rw [hres] at hloop
      exact adjInsert_ok hloop hwf hld
    · rw [hres] at hloop
      exact AdjOk.returned hloop
  have hat : ∀ pre flp rest, l = pre ++ flp :: rest → insrtp = some flp.addr →
      (∀ f ∈ pre, f.set.owner = ld.owner → f.set.lEnd + 1 < ld.lStart) →
      (ld.lType ≠ .unlck → flp.set.lStart ≤ ld.lStart) →
      AdjOk k ld mem l (flckadj k mem l insrtp ld) := by
    intro pre flp rest hl hp hpre hle
    subst hl hp
    have hfront : flp.addr ∉ pre.map Filock.addr := by
      have hnodup := hwf.addrs
      rw [map_append, nodup_append] at hnodup
      exact fun hmem => hnodup.2.2 _ hmem _ (by simp) rfl
    refine hend pre (flp :: rest) rfl (dropWhile_addr hfront)
      (WalkInv.start _ hwf hld hin hpre fun hlock => ⟨fun p hp => ?_, fun hnone => ?_⟩)
    · cases hp
      exact ⟨flp, by simp, rfl, hle hlock⟩
    · exact absurd hnone (by simp)
  rcases hstart with ⟨hun, hhead⟩ | hstart
  · cases l with
    | nil =>
      subst hhead
      exact hend [] [] rfl rfl (WalkInv.start _ hwf hld hin (by simp) fun hlock => absurd hun hlock)
    | cons flp rest => exact hat [] flp rest rfl hhead (by simp) fun hlock => absurd hun hlock
  · cases insrtp with
    | none =>
      refine hend [] l rfl rfl (WalkInv.start _ hwf hld hin (by simp) fun _ => ⟨?_, ?_⟩)
      · exact fun p hp => absurd hp (by simp)
      · exact fun _ f hf => hstart f hf
    | some p =>
      obtain ⟨pre, flp, rest, hl, rfl, hle, hpre⟩ := hstart
      exact hat pre flp rest hl rfl hpre fun _ => hle

end Svr42.Flck

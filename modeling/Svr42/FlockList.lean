import Svr42.FlockRegion

/-! The list primitives of `flock.c` at the entries of a list without repeated addresses: what
`delflck`, a shortened entry, `prev` and `insflck` do where the list is split at an entry, and which
addresses are in use afterwards. -/

namespace Svr42.Flck
open List

/-! ### Entries and addresses -/

section

variable {front back : List Filock} {flp new : Filock}

theorem delflck_append (hfront : flp.addr ∉ front.map Filock.addr) :
    delflck (front ++ flp :: back) flp = front ++ back := by
  rw [delflck, eraseP_append_right]
  · simp
  · intro f hf
    simp only [decide_eq_true_eq]
    exact fun heq => hfront (heq ▸ mem_map_of_mem hf)

def truncated (f : Filock) (newEnd : Int) : Filock :=
  { f with set := { f.set with lEnd := newEnd }, stat := { f.stat with wakeflg := 0 } }

theorem setEnd_append (newEnd : Int) (hfront : flp.addr ∉ front.map Filock.addr)
    (hback : flp.addr ∉ back.map Filock.addr) :
    setEnd (front ++ flp :: back) flp newEnd = front ++ truncated flp newEnd :: back := by
  have hkeep : ∀ l : List Filock, flp.addr ∉ l.map Filock.addr → setEnd l flp newEnd = l := by
    intro l hl
    refine (map_congr_left fun f hf => ?_).trans (map_id l)
    exact if_neg fun heq : f.addr = flp.addr => hl (heq ▸ mem_map_of_mem hf)
  have hsplit : setEnd (front ++ flp :: back) flp newEnd =
      setEnd front flp newEnd ++ truncated flp newEnd :: setEnd back flp newEnd := by
    simp [setEnd, truncated]
  rw [hsplit, hkeep front hfront, hkeep back hback]

theorem prevOf_append (hnodup : ((front ++ flp :: back).map Filock.addr).Nodup) :
    prevOf (front ++ flp :: back) flp.addr = front.getLast?.map Filock.addr := by
  induction front with
  | nil =>
    have hnone : ∀ l : List Filock, flp.addr ∉ l.map Filock.addr → ∀ f,
        prevOf (f :: l) flp.addr = none := by
      intro l
      induction l with
      | nil => exact fun _ _ => rfl
      | cons g l ih =>
        intro hl f
        simp only [map_cons, mem_cons, not_or] at hl
        rw [prevOf, if_neg fun heq => hl.1 heq.symm, ih hl.2]
    rw [nil_append, map_cons, nodup_cons] at hnodup
    exact hnone back hnodup.1 flp
  | cons f front ih =>
    cases front with
    | nil => simp [prevOf]
    | cons g front =>
      simp only [cons_append, map_cons, nodup_cons, map_append, mem_cons, mem_append] at hnodup ih ⊢
      rw [prevOf, if_neg, ih hnodup.2]
      · simp [List.getLast?_cons_cons]
      · exact fun heq => hnodup.2.1 (.inr (.inl heq))

theorem insertAfter_append (hfront : flp.addr ∉ front.map Filock.addr) :
    insertAfter new flp.addr (front ++ flp :: back) = front ++ flp :: new :: back := by
  induction front with
  | nil => simp [insertAfter]
  | cons f front ih =>
    simp only [map_cons, mem_cons, not_or] at hfront
    rw [cons_append, insertAfter, if_neg fun heq => hfront.1 heq.symm, ih hfront.2]
    rfl

/-- Where a piece is put: after the entry found from `y` on it is at its place. -/
theorem advance_inserted {y : Filock} (hnodup : ((front ++ y :: back).map Filock.addr).Nodup)
    (hsorted : (front ++ y :: back).Pairwise fun a b => a.set.lStart ≤ b.set.lStart)
    (hle : y.set.lStart ≤ new.set.lStart) : Inserted (front ++ y :: back) new
      (insertAfter new (advance new.set.lStart y.addr back) (front ++ y :: back)) := by
  induction back generalizing front y with
  | nil =>
    rw [advance, insertAfter_append (by
      rw [map_append, nodup_append] at hnodup
      exact fun hmem => hnodup.2.2 _ hmem _ (by simp) rfl)]
    refine ⟨front ++ [y], [], by simp, by simp, ?_, by simp⟩
    intro f hf
    rcases mem_append.mp hf with hf | hf
    · exact Int.le_trans ((pairwise_append.mp hsorted).2.2 f hf y (by simp)) hle
    · rw [mem_singleton.mp hf]
      exact hle
  | cons z back ih =>
    rw [advance]
    by_cases hz : z.set.lStart < new.set.lStart
    · rw [if_pos hz]
      have hsplit : front ++ y :: z :: back = (front ++ [y]) ++ z :: back := by simp
      rw [hsplit] at hnodup hsorted ⊢
      exact ih hnodup hsorted (Int.le_of_lt hz)
    rw [if_neg hz, insertAfter_append (by
      rw [map_append, nodup_append] at hnodup
      exact fun hmem => hnodup.2.2 _ hmem _ (by simp) rfl)]
    refine ⟨front ++ [y], z :: back, by simp, by simp, ?_, ?_⟩
    · intro f hf
      rcases mem_append.mp hf with hf | hf
      · exact Int.le_trans ((pairwise_append.mp hsorted).2.2 f hf y (by simp)) hle
      · rw [mem_singleton.mp hf]
        exact hle
    · have hafter := (pairwise_append.mp hsorted).2.1
      rw [pairwise_cons, pairwise_cons] at hafter
      intro f hf
      rcases mem_cons.mp hf with rfl | hf
      · omega
      · have := hafter.2.1 f hf
        omega

end

theorem dropWhile_addr {front back : List Filock} {y : Filock}
    (hfront : y.addr ∉ front.map Filock.addr) :
    (front ++ y :: back).dropWhile (fun f => decide (f.addr ≠ y.addr)) = y :: back := by
  rw [dropWhile_append_of_pos]
  · simp
  · intro f hf
    simp only [ne_eq, decide_eq_true_eq]
    exact fun heq => hfront (heq ▸ mem_map_of_mem hf)

variable {lckList : List Filock}

/-- Inserting from an entry on that starts no later than the piece. -/
theorem placeFrom_inserted (h : Wf lckList) {y new : Filock} (hy : y ∈ lckList)
    (hle : y.set.lStart ≤ new.set.lStart) :
    Inserted lckList new (insertAfter new (placeFrom lckList y.addr new.set.lStart) lckList) := by
  obtain ⟨front, back, rfl⟩ := append_of_mem hy
  have hfront : y.addr ∉ front.map Filock.addr := by
    have hnodup := h.addrs
    rw [map_append, nodup_append] at hnodup
    exact fun hmem => hnodup.2.2 _ hmem _ (by simp) rfl
  rw [placeFrom, dropWhile_addr hfront, advance]
  split
  · exact advance_inserted h.addrs h.sorted hle
  · rename_i hlt
    rw [insertAfter_append hfront]
    have hsorted := pairwise_append.mp h.sorted
    refine ⟨front ++ [y], back, by simp, by simp, ?_, ?_⟩
    · intro f hf
      rcases mem_append.mp hf with hf | hf
      · exact Int.le_trans (hsorted.2.2 f hf y (by simp)) hle
      · rw [mem_singleton.mp hf]
        exact hle
    · intro f hf
      have := (pairwise_cons.mp hsorted.2.1).1 f hf
      omega

theorem head_inserted {new : Filock} (hle : ∀ f ∈ lckList, new.set.lStart ≤ f.set.lStart) :
    Inserted lckList new (new :: lckList) :=
  ⟨[], lckList, rfl, rfl, by simp, hle⟩

theorem delflck_eq_filter {l : List Filock} (h : (l.map Filock.addr).Nodup) (flp : Filock) :
    delflck l flp = l.filter fun f => f.addr ≠ flp.addr := by
  induction l with
  | nil => rfl
  | cons f l ih =>
    rw [map_cons, nodup_cons] at h
    by_cases heq : f.addr = flp.addr
    · rw [delflck, eraseP_cons_of_pos (by simpa using heq),
        filter_cons_of_neg (by simpa using heq), filter_eq_self.mpr]
      intro g hg
      simp only [ne_eq, decide_not, Bool.not_eq_eq_eq_not, Bool.not_true, decide_eq_false_iff_not]
      exact fun hgeq => h.1 (heq.trans hgeq.symm ▸ mem_map_of_mem hg)
    · rw [delflck, eraseP_cons_of_neg (by simpa using heq), filter_cons_of_pos (by simpa using heq)]
      exact congrArg _ (ih h.2)

namespace Inserted

variable {base out : List Filock} {new flp : Filock}

theorem delflck (h : Inserted base new out) (hnodup : (base.map Filock.addr).Nodup)
    (hfresh : new.addr ∉ base.map Filock.addr) (hne : new.addr ≠ flp.addr) :
    Inserted (delflck base flp) new (delflck out flp) := by
  rw [delflck_eq_filter hnodup, delflck_eq_filter (h.addrs_nodup hnodup hfresh)]
  obtain ⟨front, back, rfl, rfl, hfront, hback⟩ := h
  refine ⟨_, _, filter_append .., ?_, fun f hf => hfront f (mem_filter.mp hf).1,
    fun f hf => hback f (mem_filter.mp hf).1⟩
  rw [filter_append, filter_cons_of_pos (by simpa using hne)]

theorem setEnd (h : Inserted base new out) (hne : new.addr ≠ flp.addr) (newEnd : Int) :
    Inserted (setEnd base flp newEnd) new (setEnd out flp newEnd) := by
  obtain ⟨front, back, rfl, rfl, hfront, hback⟩ := h
  refine ⟨Flck.setEnd front flp newEnd, Flck.setEnd back flp newEnd, map_append, ?_, ?_, ?_⟩
  · simp [Flck.setEnd, hne]
  · intro f hf
    obtain ⟨g, hg, rfl⟩ := mem_map.mp hf
    have := hfront g hg
    split <;> exact this
  · intro f hf
    obtain ⟨g, hg, rfl⟩ := mem_map.mp hf
    have := hback g hg
    split <;> exact this

end Inserted

/-! ### Memory -/

def Mem.CanAlloc (k : Kmem) (mem : Mem) : Prop :=
  mem.reccnt < k.flckrec ∧ k.avail mem.calls = true

theorem insflck_fails {k : Kmem} {mem : Mem} (h : ¬ mem.CanAlloc k) (l : List Filock) (ld : Flock)
    (fl : Option Nat) : ∃ mem', insflck k mem l ld fl = (mem', none) ∧ mem'.used = mem.used := by
  unfold insflck
  by_cases hrec : k.flckrec ≤ mem.reccnt
  · exact ⟨mem, if_pos hrec, rfl⟩
  rw [if_neg hrec]
  by_cases havail : k.avail mem.calls = false
  · exact ⟨_, if_pos havail, rfl⟩
  · exact absurd ⟨by omega, by simpa using havail⟩ h

/-- The entry a successful `insflck` makes, and the memory after it. -/
def newEntry (k : Kmem) (mem : Mem) (ld : Flock) : Filock :=
  ⟨k.place mem.calls mem.used, ld, ⟨0, 0⟩⟩

def Mem.alloc (k : Kmem) (mem : Mem) : Mem :=
  ⟨mem.reccnt + 1, mem.calls + 1, k.place mem.calls mem.used :: mem.used⟩

theorem insflck_succeeds {k : Kmem} {mem : Mem} (h : mem.CanAlloc k) (l : List Filock) (ld : Flock)
    (fl : Option Nat) :
    insflck k mem l ld fl = (mem.alloc k, some (k.place mem.calls mem.used, match fl with
      | none => newEntry k mem ld :: l
      | some p => insertAfter (newEntry k mem ld) p l)) := by
  obtain ⟨hrec, havail⟩ := h
  cases fl <;> simp [insflck, havail, Int.not_le.mpr hrec, Mem.alloc, newEntry]

/-- The entries of a list are in use; of the addresses in use before, those of other lists still
are, and no new entry has one of them. -/
structure MemFrame (mem : Mem) (lckList : List Filock) (mem' : Mem) (lckList' : List Filock) :
    Prop where
  inUse : ∀ p ∈ lckList'.map Filock.addr, p ∈ mem'.used
  others : ∀ p ∈ mem.used, p ∉ lckList.map Filock.addr → p ∈ mem'.used
  fresh : ∀ p ∈ lckList'.map Filock.addr, p ∈ lckList.map Filock.addr ∨ p ∉ mem.used

namespace MemFrame

variable {mem mem₁ mem₂ : Mem} {l l₁ l₂ : List Filock}

theorem refl (h : ∀ p ∈ l.map Filock.addr, p ∈ mem.used) : MemFrame mem l mem l :=
  ⟨h, fun _ hp _ => hp, fun _ hp => .inl hp⟩

theorem trans (h : MemFrame mem l mem₁ l₁) (h' : MemFrame mem₁ l₁ mem₂ l₂) : MemFrame mem l mem₂ l₂ := by
  refine ⟨h'.inUse, fun p hp hnot => ?_, fun p hp => ?_⟩
  · refine h'.others p (h.others p hp hnot) fun hmem => ?_
    rcases h.fresh p hmem with hin | hin
    · exact hnot hin
    · exact hin hp
  · rcases h'.fresh p hp with hin | hin
    · exact h.fresh p hin
    · by_cases hl : p ∈ l.map Filock.addr
      · exact .inl hl
      · exact .inr fun hused => hin (h.others p hused hl)

theorem free {front back : List Filock} {flp : Filock}
    (h : ∀ p ∈ (front ++ flp :: back).map Filock.addr, p ∈ mem.used)
    (hnodup : ((front ++ flp :: back).map Filock.addr).Nodup) :
    MemFrame mem (front ++ flp :: back) (mem.free flp.addr) (front ++ back) := by
  have hne : ∀ p ∈ (front ++ back).map Filock.addr, p ≠ flp.addr := by
    rintro p hp rfl
    have hperm : ((front ++ flp :: back).map Filock.addr).Perm
        ((flp :: (front ++ back)).map Filock.addr) := perm_middle.map _
    rw [hperm.nodup_iff, map_cons, nodup_cons] at hnodup
    exact hnodup.1 hp
  have hsub : ∀ p ∈ (front ++ back).map Filock.addr, p ∈ (front ++ flp :: back).map Filock.addr := by
    intro p hp
    simp only [map_append, map_cons, mem_append, mem_cons] at hp ⊢
    tauto
  refine ⟨fun p hp => ?_, fun p hp hnot => ?_, fun p hp => .inl (hsub p hp)⟩
  · exact (mem_erase_of_ne (hne p hp)).mpr (h p (hsub p hp))
  · refine (mem_erase_of_ne ?_).mpr hp
    rintro rfl
    exact hnot (by simp)

theorem del {flp : Filock} (hflp : flp ∈ l) (h : ∀ p ∈ l.map Filock.addr, p ∈ mem.used)
    (hnodup : (l.map Filock.addr).Nodup) : MemFrame mem l (mem.free flp.addr) (delflck l flp) := by
  obtain ⟨front, back, rfl⟩ := append_of_mem hflp
  have hfront : flp.addr ∉ front.map Filock.addr := by
    rw [map_append, nodup_append] at hnodup
    exact fun hmem => hnodup.2.2 _ hmem _ (by simp) rfl
  rw [delflck_append hfront]
  exact free h hnodup

theorem map {g : Filock → Filock} (hg : ∀ f, (g f).addr = f.addr)
    (h : ∀ p ∈ l.map Filock.addr, p ∈ mem.used) : MemFrame mem l mem (l.map g) := by
  have hsame : (l.map g).map Filock.addr = l.map Filock.addr := by
    rw [map_map]
    exact map_congr_left fun f _ => hg f
  exact ⟨fun p hp => h p (hsame ▸ hp), fun _ hp _ => hp, fun p hp => .inl (hsame ▸ hp)⟩

theorem setEnd (flp : Filock) (newEnd : Int) (h : ∀ p ∈ l.map Filock.addr, p ∈ mem.used) :
    MemFrame mem l mem (setEnd l flp newEnd) := by
  refine map (fun f => ?_) h
  split <;> rfl

theorem insert {ld : Flock} (k : Kmem) (hins : ∀ f ∈ l₁, f = newEntry k mem ld ∨ f ∈ l)
    (h : ∀ p ∈ l.map Filock.addr, p ∈ mem.used) : MemFrame mem l (mem.alloc k) l₁ := by
  have hmem : ∀ p ∈ l₁.map Filock.addr, p = k.place mem.calls mem.used ∨ p ∈ l.map Filock.addr := by
    intro p hp
    obtain ⟨f, hf, rfl⟩ := mem_map.mp hp
    rcases hins f hf with rfl | hf
    · exact .inl rfl
    · exact .inr (mem_map_of_mem hf)
  refine ⟨fun p hp => ?_, fun p hp _ => .tail _ hp, fun p hp => ?_⟩
  · rcases hmem p hp with rfl | hin
    · exact .head _
    · exact .tail _ (h p hin)
  · rcases hmem p hp with rfl | hin
    · exact .inr (k.place_fresh _ _)
    · exact .inl hin

theorem cons {f : Filock} (h : MemFrame mem l mem₁ l₁) (hf : f.addr ∈ mem.used)
    (hnot : f.addr ∉ l.map Filock.addr) : MemFrame mem (f :: l) mem₁ (f :: l₁) := by
  refine ⟨fun p hp => ?_, fun p hp hp' => ?_, fun p hp => ?_⟩
  · rcases mem_cons.mp hp with rfl | hp
    · exact h.others _ hf hnot
    · exact h.inUse p hp
  · exact h.others p hp fun hin => hp' (.tail _ hin)
  · rcases mem_cons.mp hp with rfl | hp
    · exact .inl (.head _)
    · exact (h.fresh p hp).imp_left fun hin => .tail _ hin

end MemFrame

end Svr42.Flck

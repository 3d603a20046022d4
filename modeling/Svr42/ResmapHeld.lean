import Svr42.ResmapRuns

/-! Runs of a resource map that its users hold: none of them is free, and no two have a unit in
common. -/

namespace Svr42.Resmap
open Function

variable {ι : Type*} {cap size a : Nat} {mp mp' : RMap} {held held' : ι → Set Nat} {h : ι}

/-- `held` is what each user holds of the map. -/
structure Apportioned (cap : Nat) (mp : RMap) (held : ι → Set Nat) : Prop where
  map : ∃ used, Wf cap mp used
  taken : ∀ h, Disjoint (held h) mp.free
  apart : ∀ h h', h ≠ h' → Disjoint (held h) (held h')

namespace Apportioned

section

variable (hmap : Apportioned cap mp held)
include hmap

/-- A user that holds nothing gets what `rmalloc` grants. -/
theorem grant [DecidableEq ι] (hcap : cap < ulong) (halloc : rmalloc mp size = some (mp', a))
    (ha : a ≠ 0) : 0 < size ∧ a + size ≤ ulong ∧ Apportioned cap mp' (update held h (run a size)) := by
  obtain ⟨used, hwf⟩ := hmap.map
  obtain ⟨mp₁, a₁, used', heq, hwf', hgranted⟩ := rmalloc_ok hwf hcap size
  rw [halloc] at heq
  cases heq
  obtain ⟨hsize, -, hsub, hfree⟩ := hgranted.some ha
  have hlast : a + size - 1 ∈ mp.free := hsub (mem_run.mpr ⟨by omega, by omega⟩)
  rw [hwf.free] at hlast
  obtain ⟨bp, hbp, hin⟩ := hlast
  have hend := (hwf.ordered.entry bp hbp).2.2
  have hlt := (mem_run.mp hin).2
  have hnew : ∀ h', Disjoint (run a size) (held h') := fun h' =>
    ((hmap.taken h').mono_right hsub).symm
  refine ⟨hsize, by omega, ⟨used', hwf'⟩, fun x => ?_, fun x y hxy => ?_⟩
  · rw [hfree]
    by_cases hx : x = h
    · rw [hx, update_self]
      exact Set.disjoint_sdiff_right
    · rw [update_of_ne hx]
      exact (hmap.taken x).mono_right Set.sdiff_subset
  · by_cases hx : x = h
    · have hy : y ≠ h := fun heq => hxy (hx.trans heq.symm)
      rw [hx, update_self, update_of_ne hy]
      exact hnew y
    rw [update_of_ne hx]
    by_cases hy : y = h
    · rw [hy, update_self]
      exact (hnew x).symm
    · rw [update_of_ne hy]
      exact hmap.apart x y hxy

/-- A user gives up what it holds, and `rmfree` puts it into the map or drops it. -/
theorem release [DecidableEq ι] (hcap : cap < ulong) (hheld : held h = run a size) (ha : 0 < a)
    (hsize : 0 < size) (hend : a + size ≤ ulong) :
    ∃ mp', rmfree mp size a = some mp' ∧ Freed mp size a mp' ∧
      Apportioned cap mp' (update held h ∅) := by
  obtain ⟨used, hwf⟩ := hmap.map
  have htaken := hmap.taken h
  rw [hheld] at htaken
  obtain ⟨mp', used', heq, hwf', hfreed⟩ := rmfree_ok hwf hcap ha hsize hend htaken
  have hsub : mp'.free ⊆ mp.free ∪ held h := by
    rw [hheld]
    by_cases hlost : mp.mapsize = 0 ∧ ∀ bp ∈ mp.slots, bp.mSize ≠ 0 →
        bp.mAddr + bp.mSize ≠ a ∧ a + size ≠ bp.mAddr
    · rw [hfreed.lost hlost]
      exact Set.subset_union_left
    · rw [hfreed.kept hlost]
  refine ⟨mp', heq, hfreed, ⟨used', hwf'⟩, fun x => ?_, fun x y hxy => ?_⟩
  · by_cases hx : x = h
    · rw [hx, update_self]
      exact Set.empty_disjoint _
    · rw [update_of_ne hx]
      exact (Set.disjoint_union_right.mpr ⟨hmap.taken x, hmap.apart x h hx⟩).mono_right hsub
  · by_cases hx : x = h
    · rw [hx, update_self]
      exact Set.empty_disjoint _
    rw [update_of_ne hx]
    by_cases hy : y = h
    · rw [hy, update_self]
      exact Set.disjoint_empty _
    · rw [update_of_ne hy]
      exact hmap.apart x y hxy

theorem congr (hsame : ∀ h, held' h = held h) : Apportioned cap mp held' := by
  have heq : held' = held := funext hsame
  rw [heq]
  exact hmap

theorem slots (hslots : mp'.slots = mp.slots) (hsize : mp'.mapsize = mp.mapsize) :
    Apportioned cap mp' held := by
  have hfree : mp'.free = mp.free := by rw [RMap.free, RMap.free, hslots]
  obtain ⟨used, hwf⟩ := hmap.map
  refine ⟨⟨used, ?_, ?_, hwf.ordered⟩, fun x => ?_, hmap.apart⟩
  · rw [hslots, hsize]
    exact hwf.slots
  · rw [hsize]
    exact hwf.size
  · rw [hfree]
    exact hmap.taken x

end

theorem initial (hcap : cap < ulong) (hend : 1 + size ≤ ulong) (hheld : ∀ h, held h = ∅)
    (hmap : rmfree (mapinit cap) size 1 = some mp) : Apportioned cap mp held := by
  have hwf : Wf cap (mapinit cap) [] := mapinit_wf
  have hempty : (mapinit cap).free = ∅ := by
    rw [hwf.free, units_nil]
  have hused : ∃ used, Wf cap mp used := by
    by_cases hzero : size = 0
    · rw [rmfree, if_pos hzero] at hmap
      rw [← Option.some.inj hmap]
      exact ⟨[], hwf⟩
    · obtain ⟨mp', used', heq, hwf', -⟩ := rmfree_ok hwf hcap Nat.one_pos (Nat.pos_of_ne_zero hzero)
        hend (by rw [hempty]; exact Set.disjoint_empty _)
      rw [hmap] at heq
      cases heq
      exact ⟨used', hwf'⟩
  refine ⟨hused, fun x => ?_, fun x y _ => ?_⟩
  · rw [hheld]
    exact Set.empty_disjoint _
  · rw [hheld]
    exact Set.empty_disjoint _

end Apportioned

end Svr42.Resmap

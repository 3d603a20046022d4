import Svr42.ResmapModel
import Svr42.RunExec
import Mathlib.Data.List.Sort

/-! What `rmalloc` and `rmfree` do to a map in order: its entries are sorted and apart, and the free
units are those of the calls. -/

namespace Svr42.Resmap
open List Nat

def zero : MapEnt := ⟨0, 0⟩

/-- Entries by address, no two of which adjoin. -/
structure Ordered (used : List MapEnt) : Prop where
  entry : ∀ bp ∈ used, 0 < bp.mSize ∧ 0 < bp.mAddr ∧ bp.mAddr + bp.mSize ≤ ulong
  apart : used.Pairwise fun bp next => bp.mAddr + bp.mSize < next.mAddr

/-- The map has the entries `used`, and zeros after them. -/
structure Wf (cap : Nat) (mp : RMap) (used : List MapEnt) : Prop where
  slots : mp.slots = used ++ List.replicate (mp.mapsize + 1) zero
  size : mp.mapsize + used.length = cap
  ordered : Ordered used

section

variable {cap size a k u : Nat} {mp mp' : RMap} {used used' front back : List MapEnt} {bp bp' next : MapEnt}

/-! ### Units -/

theorem mem_run : u ∈ run a size ↔ a ≤ u ∧ u < a + size := .rfl

theorem units_append : units (front ++ back) = units front ∪ units back := by
  ext u
  simp only [units, Set.mem_union, Set.mem_ofPred_eq, mem_append]
  constructor
  · rintro ⟨bp, hin | hin, hu⟩
    · exact .inl ⟨bp, hin, hu⟩
    · exact .inr ⟨bp, hin, hu⟩
  · rintro (⟨bp, hin, hu⟩ | ⟨bp, hin, hu⟩)
    · exact ⟨bp, .inl hin, hu⟩
    · exact ⟨bp, .inr hin, hu⟩

theorem units_cons : units (bp :: used) = run bp.mAddr bp.mSize ∪ units used := by
  ext u
  simp only [units, Set.mem_union, Set.mem_ofPred_eq, mem_cons]
  constructor
  · rintro ⟨e, rfl | hin, hu⟩
    · exact .inl hu
    · exact .inr ⟨e, hin, hu⟩
  · rintro (hu | ⟨e, hin, hu⟩)
    · exact ⟨bp, .inl rfl, hu⟩
    · exact ⟨e, .inr hin, hu⟩

theorem units_nil : units [] = ∅ := by simp [units]

theorem units_zeros : units (replicate k zero) = ∅ := by
  ext u
  simp only [units, Set.mem_ofPred_eq, Set.mem_empty_iff_false, iff_false, not_exists, not_and]
  intro bp hbp hu
  rw [(mem_replicate.mp hbp).2] at hu
  have hlt : u < 0 + 0 := hu.2
  omega

theorem Wf.free (h : Wf cap mp used) : mp.free = units used := by
  rw [RMap.free, h.slots, units_append, units_zeros, Set.union_empty]

/-! ### Entries in order -/

section

variable (h : Ordered (front ++ bp :: back))
include h

theorem Ordered.left : ∀ e ∈ front, e.mAddr + e.mSize < bp.mAddr := fun e he =>
  (pairwise_append.mp h.apart).2.2 e he bp (.head _)

theorem Ordered.right : ∀ e ∈ back, bp.mAddr + bp.mSize < e.mAddr :=
  (pairwise_cons.mp (pairwise_append.mp h.apart).2.1).1

theorem Ordered.here : 0 < bp.mSize ∧ 0 < bp.mAddr ∧ bp.mAddr + bp.mSize ≤ ulong :=
  h.entry bp (by simp)

end

theorem Ordered.sublist (h : Ordered back) (hsub : front.Sublist back) : Ordered front :=
  ⟨fun e he => h.entry e (hsub.subset he), h.apart.sublist hsub⟩

theorem Ordered.insert (h : Ordered (front ++ back))
    (hbp : 0 < bp.mSize ∧ 0 < bp.mAddr ∧ bp.mAddr + bp.mSize ≤ ulong)
    (hleft : ∀ e ∈ front, e.mAddr + e.mSize < bp.mAddr)
    (hright : ∀ e ∈ back, bp.mAddr + bp.mSize < e.mAddr) : Ordered (front ++ bp :: back) := by
  have happart := pairwise_append.mp h.apart
  refine ⟨fun e he => ?_, pairwise_append.mpr
    ⟨happart.1, pairwise_cons.mpr ⟨hright, happart.2.1⟩, fun e he e' he' => ?_⟩⟩
  · rcases mem_append.mp he with he | he
    · exact h.entry e (mem_append_left _ he)
    · rcases mem_cons.mp he with rfl | he
      · exact hbp
      · exact h.entry e (mem_append_right _ he)
  · rcases mem_cons.mp he' with rfl | he'
    · exact hleft e he
    · exact happart.2.2 e he e' he'

theorem Ordered.replace (h : Ordered (front ++ bp :: back))
    (hbp : 0 < bp'.mSize ∧ 0 < bp'.mAddr ∧ bp'.mAddr + bp'.mSize ≤ ulong)
    (hleft : ∀ e ∈ front, e.mAddr + e.mSize < bp'.mAddr)
    (hright : ∀ e ∈ back, bp'.mAddr + bp'.mSize < e.mAddr) : Ordered (front ++ bp' :: back) :=
  Ordered.insert (h.sublist (by simp)) hbp hleft hright

theorem Ordered.gap (h : Ordered used) (hbp : bp ∈ used) (hu : u ∈ units used) :
    u ≠ bp.mAddr + bp.mSize ∧ u + 1 ≠ bp.mAddr := by
  obtain ⟨front, back, rfl⟩ := append_of_mem hbp
  obtain ⟨e, he, hlow, hhigh⟩ := hu
  rcases mem_append.mp he with hleft | hright
  · have hlt := h.left e hleft
    omega
  · rcases mem_cons.mp hright with rfl | hright
    · omega
    · have hlt := h.right e hright
      omega

theorem Ordered.subset (h : Ordered used) (h' : Ordered used') (heq : units used = units used') :
    used ⊆ used' := by
  intro bp hbp
  have hpos := (h.entry bp hbp).1
  have hin : ∀ u ∈ run bp.mAddr bp.mSize, u ∈ units used' := fun u hu => heq ▸ ⟨bp, hbp, hu⟩
  obtain ⟨e, he, hlow, hhigh⟩ := hin bp.mAddr ⟨le_rfl, by omega⟩
  have hout : ∀ u ∈ run e.mAddr e.mSize, u ≠ bp.mAddr + bp.mSize ∧ u + 1 ≠ bp.mAddr := fun u hu =>
    h.gap hbp (heq ▸ ⟨e, he, hu⟩)
  have haddr : e.mAddr = bp.mAddr := by
    by_contra hne
    exact (hout (bp.mAddr - 1) ⟨by omega, by omega⟩).2 (by omega)
  have hsize : e.mSize = bp.mSize := by
    rcases lt_trichotomy e.mSize bp.mSize with hlt | hsize | hgt
    · exact absurd rfl (h'.gap he (hin (e.mAddr + e.mSize) ⟨by omega, by omega⟩)).1
    · exact hsize
    · exact absurd rfl (hout (bp.mAddr + bp.mSize) ⟨by omega, by omega⟩).1
  cases e
  cases bp
  cases haddr
  cases hsize
  exact he

/-- The units of a map determine its entries. -/
theorem Ordered.unique (h : Ordered used) (h' : Ordered used') (heq : units used = units used') :
    used = used' := by
  let r : MapEnt → MapEnt → Prop := fun bp next => bp.mAddr + bp.mSize < next.mAddr
  have : Std.Irrefl r := ⟨fun bp => by simp [r]⟩
  have : Std.Antisymm r := ⟨fun bp next hlt hgt => by simp only [r] at *; omega⟩
  exact Subset.antisymm_of_pairwise h.apart h'.apart (h.subset h' heq) (h'.subset h heq.symm)

/-! ### The shifts -/

theorem shiftUp_ok (h : ∀ e ∈ used, e.mSize ≠ 0) : shiftUp (bp :: (used ++ replicate (k + 1) zero)) =
      some (used ++ replicate (k + 2) zero) := by
  induction used generalizing bp with
  | nil => rfl
  | cons e used ih =>
    rw [cons_append, shiftUp, if_neg (h e (.head _)), ih fun e' he' => h e' (.tail _ he')]
    rfl

variable {rest : List MapEnt}

theorem compress_zero : compress (zero :: rest) = some (zero :: rest) := by
  cases rest <;> rfl

theorem compress_ok (hbp : bp.mSize ≠ 0) (h : ∀ e ∈ used, e.mSize ≠ 0) :
    compress (bp :: (used ++ replicate (k + 1) zero)) = some (used ++ replicate (k + 2) zero) := by
  induction used generalizing bp with
  | nil =>
    rw [nil_append, replicate_succ, compress, if_neg hbp, compress_zero]
    rfl
  | cons e used ih =>
    rw [cons_append, compress, if_neg hbp, ih (h e (.head _)) fun e' he' => h e' (.tail _ he')]
    rfl

theorem shiftDown_ok (h : ∀ e ∈ used, e.mSize ≠ 0) : shiftDown size a (used ++ replicate (k + 1) zero) =
      some (⟨size, a⟩ :: (used ++ replicate k zero)) := by
  induction used generalizing size a with
  | nil => rfl
  | cons e used ih =>
    rw [cons_append, shiftDown, if_neg (h e (.head _)), ih fun e' he' => h e' (.tail _ he')]
    rfl

/-- The search of `rmfree` stops before the first entry above `a`. -/
theorem seek_ok (h : Ordered used) (a k : Nat) : ∃ front back bp rest, used = front ++ back ∧
    seek a (used ++ replicate (k + 1) zero) = some (front, bp, rest) ∧
    bp :: rest = back ++ replicate (k + 1) zero ∧ (∀ e ∈ front, e.mAddr ≤ a) ∧
    ∀ e ∈ back, a < e.mAddr := by
  induction used with
  | nil => exact ⟨[], [], zero, replicate k zero, rfl, by simp [seek, replicate_succ, zero], rfl, by simp, by simp⟩
  | cons e used ih =>
    have hsize := (h.entry e (.head _)).1
    by_cases hle : e.mAddr ≤ a
    · obtain ⟨front, back, bp, rest, rfl, hseek, hrest, hfront, hback⟩ :=
        ih (h.sublist (sublist_cons_self ..))
      refine ⟨e :: front, back, bp, rest, rfl, ?_, hrest, fun e' he' => ?_, hback⟩
      · rw [cons_append, seek, if_pos ⟨hle, by omega⟩, hseek]
        rfl
      · rcases mem_cons.mp he' with rfl | he'
        · exact hle
        · exact hfront e' he'
    · refine ⟨[], e :: used, e, used ++ replicate (k + 1) zero, rfl, ?_, rfl, by simp,
        fun e' he' => ?_⟩
      · rw [cons_append, seek, if_neg fun hand => hle hand.1]
      · rcases mem_cons.mp he' with rfl | he'
        · omega
        · have := (pairwise_cons.mp h.apart).1 e' he'
          omega

/-! ### `rmalloc` -/

/-- The entry that `rmalloc` takes from, without what it has taken. -/
def cut (bp : MapEnt) (size : Nat) : List MapEnt :=
  if bp.mSize = size then [] else [⟨bp.mSize - size, bp.mAddr + size⟩]

theorem rmallocLoop_ok (h : Ordered used) (size k : Nat) :
    ((∀ e ∈ used, e.mSize < size) ∧ rmallocLoop size (used ++ replicate (k + 1) zero) =
        some (used ++ replicate (k + 1) zero, 0, false)) ∨
    ∃ front bp back, used = front ++ bp :: back ∧ (∀ e ∈ front, e.mSize < size) ∧
      size ≤ bp.mSize ∧
      rmallocLoop size (used ++ replicate (k + 1) zero) = some (front ++ (cut bp size ++ (back ++
          replicate (if bp.mSize = size then k + 2 else k + 1) zero)), bp.mAddr,
          decide (bp.mSize = size)) := by
  induction used with
  | nil =>
    left
    exact ⟨by simp, by simp [rmallocLoop, replicate_succ, zero]⟩
  | cons e used ih =>
    obtain ⟨hpos, haddr, hend⟩ := h.entry e (.head _)
    have hrest := h.sublist (sublist_cons_self e used)
    rw [cons_append, rmallocLoop, if_neg (by omega)]
    by_cases hle : size ≤ e.mSize
    · right
      refine ⟨[], e, used, rfl, by simp, hle, ?_⟩
      rw [if_pos hle]
      dsimp only
      by_cases heq : e.mSize = size
      · rw [if_pos (by omega), shiftUp_ok, if_pos heq, cut, if_pos heq, decide_eq_true heq]
        · rfl
        · exact fun e' he' => by have := (hrest.entry e' he').1; omega
      · rw [if_neg (by omega), if_neg heq, cut, if_neg heq, decide_eq_false heq,
          mod_eq_of_lt (by omega)]
        rfl
    · rw [if_neg hle]
      rcases ih hrest with ⟨hall, hloop⟩ | ⟨front, bp, back, rfl, hfront, hfits, hloop⟩
      · left
        refine ⟨fun e' he' => ?_, by rw [hloop]; rfl⟩
        rcases mem_cons.mp he' with rfl | he'
        · omega
        · exact hall e' he'
      · right
        refine ⟨e :: front, bp, back, rfl, fun e' he' => ?_, hfits, by rw [hloop]; rfl⟩
        rcases mem_cons.mp he' with rfl | he'
        · omega
        · exact hfront e' he'

/-- What is left of the entries when a run is taken from the beginning of one. -/
theorem cut_ok (h : Ordered (front ++ bp :: back)) (hsize : 0 < size) (hle : size ≤ bp.mSize) :
    Ordered (front ++ (cut bp size ++ back)) ∧ units (front ++ (cut bp size ++ back)) =
        units (front ++ bp :: back) \ run bp.mAddr size ∧
      run bp.mAddr size ⊆ units (front ++ bp :: back) := by
  obtain ⟨hpos, haddr, hend⟩ := h.here
  have hleft := h.left
  have hright := h.right
  have hin : run bp.mAddr size ⊆ units (front ++ bp :: back) := by
    intro u hu
    rw [mem_run] at hu
    exact ⟨bp, by simp, mem_run.mpr (by omega)⟩
  refine ⟨?_, ?_, hin⟩
  · unfold cut
    split
    · exact h.sublist (by simp)
    · exact h.replace ⟨by dsimp only; omega, by dsimp only; omega, by dsimp only; omega⟩
        (fun e he => by have := hleft e he; dsimp only; omega)
        fun e he => by have := hright e he; dsimp only; omega
  · have hcut : ∀ u, u ∈ units (cut bp size) ↔ u ∈ run bp.mAddr bp.mSize ∧ u ∉ run bp.mAddr size := by
      intro u
      unfold cut
      split
      · rename_i heq
        rw [heq]
        simp [units]
      · simp only [units_cons, units_nil, Set.union_empty, mem_run]
        omega
    have hfront : ∀ u ∈ units front, u ∉ run bp.mAddr size := by
      rintro u ⟨e, he, hu⟩ hrun
      rw [mem_run] at hu hrun
      have := hleft e he
      omega
    have hback : ∀ u ∈ units back, u ∉ run bp.mAddr size := by
      rintro u ⟨e, he, hu⟩ hrun
      rw [mem_run] at hu hrun
      have := hright e he
      omega
    ext u
    rw [units_append, units_append, units_append, units_cons]
    simp only [Set.mem_union, Set.mem_sdiff, hcut]
    constructor
    · rintro (hu | ⟨hu, hnot⟩ | hu)
      · exact ⟨.inl hu, hfront u hu⟩
      · exact ⟨.inr (.inl hu), hnot⟩
      · exact ⟨.inr (.inr hu), hback u hu⟩
    · rintro ⟨hu | hu | hu, hnot⟩
      · exact .inl hu
      · exact .inr (.inl ⟨hu, hnot⟩)
      · exact .inr (.inr hu)

/-- `rmalloc` gives the beginning of the first entry that is large enough. -/
structure Granted (mp : RMap) (size a : Nat) (mp' : RMap) : Prop where
  none : a = 0 → mp' = mp ∧ (size = 0 ∨ ∀ bp ∈ mp.slots, bp.mSize < size)
  some : a ≠ 0 → 0 < size ∧ (∃ front bp back, mp.slots = front ++ bp :: back ∧
    (∀ e ∈ front, e.mSize < size) ∧ size ≤ bp.mSize ∧ a = bp.mAddr) ∧
    run a size ⊆ mp.free ∧ mp'.free = mp.free \ run a size

theorem rmalloc_ok (h : Wf cap mp used) (hcap : cap < ulong) (size : Nat) :
    ∃ mp' a used', rmalloc mp size = some (mp', a) ∧ Wf cap mp' used' ∧ Granted mp size a mp' := by
  unfold rmalloc
  split_ifs with hzero
  · exact ⟨mp, 0, used, rfl, h, fun _ => ⟨rfl, .inl hzero⟩, fun hne => absurd rfl hne⟩
  · rw [h.slots]
    have hpos : 0 < size := Nat.pos_of_ne_zero hzero
    rcases rmallocLoop_ok h.ordered size mp.mapsize with
      ⟨hall, hloop⟩ | ⟨front, bp, back, rfl, hfront, hle, hloop⟩
    · rw [hloop]
      have hsame : { mp with slots := used ++ replicate (mp.mapsize + 1) zero } = mp := by
        rw [← h.slots]
      refine ⟨mp, 0, used, congrArg some (Prod.ext hsame rfl), h, fun _ => ⟨rfl, .inr ?_⟩,
        fun hne => absurd rfl hne⟩
      intro e he
      rw [h.slots] at he
      rcases mem_append.mp he with he | he
      · exact hall e he
      · rw [(mem_replicate.mp he).2]
        exact hpos
    · rw [hloop]
      have hlen := h.size
      rw [length_append, length_cons] at hlen
      obtain ⟨hordered, hunits, hin⟩ := cut_ok h.ordered hpos hle
      have haddr := h.ordered.here.2.1
      have hwf : Wf cap { mp with
            mapsize := if decide (bp.mSize = size) = true then (mp.mapsize + 1) % ulong
              else mp.mapsize
            slots := front ++ (cut bp size ++ (back ++
              replicate (if bp.mSize = size then mp.mapsize + 2 else mp.mapsize + 1) zero)) }
          (front ++ (cut bp size ++ back)) := by
        refine ⟨?_, ?_, hordered⟩
        · by_cases heq : bp.mSize = size
          · simp only [heq, if_true, decide_true, append_assoc]
            rw [Nat.mod_eq_of_lt (by omega)]
          · simp only [heq, if_false, decide_false, append_assoc, Bool.false_eq_true]
        · by_cases heq : bp.mSize = size
          · simp only [heq, if_true, decide_true, cut, nil_append, length_append]
            rw [Nat.mod_eq_of_lt (by omega)]
            omega
          · simp only [heq, if_false, decide_false, cut, length_append, length_singleton,
              Bool.false_eq_true]
            omega
      refine ⟨_, bp.mAddr, _, rfl, hwf, fun hz => by omega, fun _ => ⟨hpos, ?_, ?_, ?_⟩⟩
      · exact ⟨front, bp, back ++ replicate (mp.mapsize + 1) zero, by rw [h.slots]; simp,
          hfront, hle, rfl⟩
      · rw [h.free]
        exact hin
      · rw [hwf.free, h.free]
        exact hunits

/-! ### `rmfree` -/

/-- The entries after a run has come between others, merged with those that it adjoins. -/
theorem units_replace (seg seg' : List MapEnt)
    (h : ∀ u, u ∈ units seg' ↔ u ∈ units seg ∨ u ∈ run a size) :
    units (front ++ (seg' ++ back)) = units (front ++ (seg ++ back)) ∪ run a size := by
  ext u
  simp only [units_append, Set.mem_union, h]
  tauto

/-- `rmfree` puts the run among the free units, unless it adjoins no entry and the map is full. -/
structure Freed (mp : RMap) (size a : Nat) (mp' : RMap) : Prop where
  lost : mp.mapsize = 0 ∧ (∀ bp ∈ mp.slots, bp.mSize ≠ 0 →
    bp.mAddr + bp.mSize ≠ a ∧ a + size ≠ bp.mAddr) → mp' = mp
  kept : ¬ (mp.mapsize = 0 ∧ ∀ bp ∈ mp.slots, bp.mSize ≠ 0 →
    bp.mAddr + bp.mSize ≠ a ∧ a + size ≠ bp.mAddr) → mp'.free = mp.free ∪ run a size

theorem run_between (h : Ordered (front ++ back)) (hsize : 0 < size)
    (hdisj : Disjoint (run a size) (units (front ++ back))) (hfront : ∀ e ∈ front, e.mAddr ≤ a)
    (hback : ∀ e ∈ back, a < e.mAddr) :
    (∀ e ∈ front, e.mAddr + e.mSize ≤ a) ∧ ∀ e ∈ back, a + size ≤ e.mAddr := by
  rw [Set.disjoint_left] at hdisj
  constructor
  · intro e he
    by_contra hlt
    refine hdisj (mem_run.mpr ⟨le_refl a, by omega⟩) ⟨e, by simp [he], mem_run.mpr ?_⟩
    have := hfront e he
    omega
  · intro e he
    by_contra hlt
    have hpos := (h.entry e (by simp [he])).1
    have := hback e he
    exact hdisj (mem_run.mpr ⟨this.le, by omega⟩)
      ⟨e, by simp [he], mem_run.mpr ⟨le_rfl, by omega⟩⟩

/-- A run that adjoins the entry before it, and perhaps the one behind. -/
theorem mergeLeft_ok {prev : MapEnt} (hcap : cap < ulong) (h : Wf cap mp (front ++ prev :: back))
    (hsize : 0 < size) (hend : a + size ≤ ulong) (hprev : prev.mAddr + prev.mSize = a)
    (hback : ∀ e ∈ back, a + size ≤ e.mAddr)
    (hrest : bp :: rest = back ++ replicate (mp.mapsize + 1) zero) :
    ∃ mp' used', mergeLeft mp size a front prev bp rest = some mp' ∧ Wf cap mp' used' ∧
      units used' = units (front ++ prev :: back) ∪ run a size := by
  obtain ⟨hpos, haddr, hprevEnd⟩ := h.ordered.here
  have hleft := h.ordered.left
  have hlen := h.size
  simp only [length_append, length_cons] at hlen
  have hgrow : (prev.mSize + size) % ulong = prev.mSize + size := mod_eq_of_lt (by omega)
  unfold mergeLeft
  simp only [hgrow]
  cases back with
  | nil =>
    rw [nil_append, replicate_succ, cons.injEq] at hrest
    obtain ⟨rfl, rfl⟩ := hrest
    rw [if_neg fun hand => hand.1 rfl]
    refine ⟨_, front ++ [⟨prev.mSize + size, prev.mAddr⟩], rfl, ⟨?_, ?_, ?_⟩, ?_⟩
    · simp [wakeWanters, replicate_succ]
    · simp only [wakeWanters, length_append, length_singleton]
      exact hlen
    · exact h.ordered.replace ⟨by dsimp only; omega, haddr, by dsimp only; omega⟩ hleft (by simp)
    · refine units_replace [prev] [⟨prev.mSize + size, prev.mAddr⟩] fun u => ?_
      simp only [units_cons, units_nil, Set.union_empty, mem_run]
      omega
  | cons next back =>
    rw [cons_append, cons.injEq] at hrest
    obtain ⟨rfl, rfl⟩ := hrest
    obtain ⟨hnpos, hnaddr, hnend⟩ := h.ordered.entry bp (by simp)
    rw [length_cons] at hlen
    have hbp := hback bp (.head _)
    have hlt : a + size < ulong := by omega
    have hbehind : ∀ e ∈ back, bp.mAddr + bp.mSize < e.mAddr := (pairwise_cons.mp (pairwise_cons.mp
        (pairwise_append.mp h.ordered.apart).2.1).2).1
    rw [mod_eq_of_lt hlt]
    by_cases hadj : a + size = bp.mAddr
    · have hboth : (prev.mSize + size + bp.mSize) % ulong = prev.mSize + size + bp.mSize :=
        mod_eq_of_lt (by omega)
      rw [if_pos ⟨by omega, hadj⟩, compress_ok (by omega) fun e he => by
        have := (h.ordered.entry e (by simp [he])).1
        omega]
      simp only [hboth]
      rw [mod_eq_of_lt (by omega)]
      refine ⟨_, front ++ ⟨prev.mSize + size + bp.mSize, prev.mAddr⟩ :: back, rfl, ⟨?_, ?_, ?_⟩, ?_⟩
      · simp [wakeWanters]
      · simp only [wakeWanters, length_append, length_cons]
        omega
      · refine Ordered.insert (h.ordered.sublist (by simp))
          ⟨by dsimp only; omega, haddr, by dsimp only; omega⟩ hleft fun e he => ?_
        have := hbehind e he
        dsimp only
        omega
      · refine units_replace [prev, bp] [⟨prev.mSize + size + bp.mSize, prev.mAddr⟩] fun u => ?_
        simp only [units_cons, units_nil, Set.union_empty, Set.mem_union, mem_run]
        omega
    · rw [if_neg fun hand => hadj hand.2]
      refine ⟨_, front ++ ⟨prev.mSize + size, prev.mAddr⟩ :: bp :: back, rfl, ⟨?_, ?_, ?_⟩, ?_⟩
      · simp [wakeWanters]
      · simp only [wakeWanters, length_append, length_cons]
        omega
      · refine h.ordered.replace ⟨by dsimp only; omega, haddr, by dsimp only; omega⟩ hleft
          fun e he => ?_
        dsimp only
        rcases mem_cons.mp he with rfl | he
        · omega
        · have := hbehind e he
          omega
      · refine units_replace [prev] [⟨prev.mSize + size, prev.mAddr⟩] fun u => ?_
        simp only [units_cons, units_nil, Set.union_empty, mem_run]
        omega

/-- A run that does not adjoin an entry before it. -/
theorem mergeRight_ok (h : Wf cap mp (front ++ back)) (ha : 0 < a) (hsize : 0 < size)
    (hend : a + size ≤ ulong) (hfront : ∀ e ∈ front, e.mAddr + e.mSize < a)
    (hback : ∀ e ∈ back, a + size ≤ e.mAddr)
    (hrest : bp :: rest = back ++ replicate (mp.mapsize + 1) zero) :
    ∃ mp' used', mergeRight mp size a front bp rest = some mp' ∧ Wf cap mp' used' ∧
      ((mp.mapsize = 0 ∧ (∀ e ∈ back, a + size ≠ e.mAddr) → mp' = mp) ∧
        (¬ (mp.mapsize = 0 ∧ ∀ e ∈ back, a + size ≠ e.mAddr) →
          units used' = units (front ++ back) ∪ run a size)) := by
  have hlen := h.size
  simp only [length_append] at hlen
  have hsome : ∀ e ∈ back, e.mSize ≠ 0 := fun e he => by
    have := (h.ordered.entry e (by simp [he])).1
    omega
  by_cases hadj : ∃ back', back = bp :: back' ∧ a + size = bp.mAddr
  · obtain ⟨back', rfl, hadj⟩ := hadj
    rw [cons_append, cons.injEq] at hrest
    obtain ⟨-, rfl⟩ := hrest
    obtain ⟨hpos, haddr, hbpEnd⟩ := h.ordered.here
    have hright := h.ordered.right
    have hmod : (a + size) % ulong = bp.mAddr := by
      rw [hadj]
      exact mod_eq_of_lt (by omega)
    have hgrow : (bp.mSize + size) % ulong = bp.mSize + size := mod_eq_of_lt (by omega)
    have hback' : (bp.mAddr + (ulong - size)) % ulong = a := by
      unfold ulong at *
      omega
    unfold mergeRight
    rw [if_pos ⟨hmod, by omega⟩]
    simp only [hgrow, hback']
    refine ⟨_, front ++ ⟨bp.mSize + size, a⟩ :: back', rfl, ⟨?_, ?_, ?_⟩,
      fun hlost => absurd hadj (hlost.2 bp (.head _)), fun _ => ?_⟩
    · simp [wakeWanters]
    · simp only [wakeWanters, length_append, length_cons] at hlen ⊢
      omega
    · refine h.ordered.replace ⟨by dsimp only; omega, ha, by dsimp only; omega⟩ hfront
        fun e he => ?_
      have := hright e he
      dsimp only
      omega
    · refine units_replace [bp] [⟨bp.mSize + size, a⟩] fun u => ?_
      simp only [units_cons, units_nil, Set.union_empty, mem_run]
      omega
  · have hnot : ¬ ((a + size) % ulong = bp.mAddr ∧ bp.mSize ≠ 0) := by
      rintro ⟨hmod, hne⟩
      cases back with
      | nil =>
        rw [nil_append, replicate_succ, cons.injEq] at hrest
        rw [hrest.1] at hne
        exact hne rfl
      | cons next back =>
        rw [cons_append, cons.injEq] at hrest
        obtain ⟨rfl, -⟩ := hrest
        have := h.ordered.here
        have := hback bp (.head _)
        rw [mod_eq_of_lt (by omega)] at hmod
        exact hadj ⟨back, rfl, hmod⟩
    have hapart : ∀ e ∈ back, a + size ≠ e.mAddr := by
      intro e he heq
      cases back with
      | nil => cases he
      | cons next back =>
        rw [cons_append, cons.injEq] at hrest
        obtain ⟨rfl, -⟩ := hrest
        rcases mem_cons.mp he with rfl | he
        · exact hadj ⟨back, rfl, heq⟩
        have := h.ordered.right e he
        have := hback bp (.head _)
        omega
    unfold mergeRight
    rw [if_neg hnot]
    by_cases hfull : mp.mapsize = 0
    · rw [if_pos hfull]
      exact ⟨mp, front ++ back, rfl, h, fun _ => rfl, fun hkept => absurd ⟨hfull, hapart⟩ hkept⟩
    obtain ⟨n, hn⟩ : ∃ n, mp.mapsize = n + 1 := ⟨mp.mapsize - 1, by omega⟩
    rw [if_neg hfull, hrest, shiftDown_ok hsome]
    refine ⟨_, front ++ ⟨size, a⟩ :: back, rfl, ⟨?_, ?_, ?_⟩, fun hlost => absurd hlost.1 hfull,
      fun _ => ?_⟩
    · simp [wakeWanters, hn]
    · simp only [wakeWanters, length_append, length_cons] at hlen ⊢
      omega
    · refine Ordered.insert h.ordered ⟨hsize, ha, hend⟩ hfront fun e he => ?_
      have := hback e he
      have := hapart e he
      dsimp only
      omega
    · refine units_replace [] [⟨size, a⟩] fun u => ?_
      simp only [units_cons, units_nil, Set.union_empty, mem_run]
      tauto

theorem rmfree_ok (h : Wf cap mp used) (hcap : cap < ulong) (ha : 0 < a) (hsize : 0 < size)
    (hend : a + size ≤ ulong) (hdisj : Disjoint (run a size) mp.free) :
    ∃ mp' used', rmfree mp size a = some mp' ∧ Wf cap mp' used' ∧ Freed mp size a mp' := by
  obtain ⟨front, back, bp, rest, rfl, hseek, hrest, hlow, hhigh⟩ := seek_ok h.ordered a mp.mapsize
  rw [h.free] at hdisj
  obtain ⟨hfront, hback⟩ := run_between h.ordered hsize hdisj hlow hhigh
  have hused : ∀ e, e ∈ mp.slots ∧ e.mSize ≠ 0 ↔ e ∈ front ++ back := by
    intro e
    rw [h.slots, mem_append]
    constructor
    · rintro ⟨he | he, hne⟩
      · exact he
      · rw [(mem_replicate.mp he).2] at hne
        exact absurd rfl hne
    · intro he
      have := (h.ordered.entry e he).1
      exact ⟨.inl he, by omega⟩
  unfold rmfree
  rw [if_neg (by omega), h.slots, hseek, Option.bind_some]
  dsimp only
  have hright : (∀ e ∈ front, e.mAddr + e.mSize ≠ a) → ∃ mp' used',
      mergeRight mp size a front bp rest = some mp' ∧ Wf cap mp' used' ∧ Freed mp size a mp' := by
    intro hne
    obtain ⟨mp', used', heq, hwf, hlost, hkept⟩ := mergeRight_ok h ha hsize hend
      (fun e he => lt_of_le_of_ne (hfront e he) (hne e he)) hback hrest
    have hiff : (∀ e ∈ back, a + size ≠ e.mAddr) ↔ ∀ e ∈ mp.slots, e.mSize ≠ 0 →
        e.mAddr + e.mSize ≠ a ∧ a + size ≠ e.mAddr := by
      constructor
      · intro hall e he hne'
        rcases mem_append.mp ((hused e).mp ⟨he, hne'⟩) with he | he
        · have := hlow e he
          exact ⟨hne e he, by omega⟩
        · have := hhigh e he
          exact ⟨by omega, hall e he⟩
      · intro hall e he
        obtain ⟨hin, hne'⟩ := (hused e).mpr (mem_append_right _ he)
        exact (hall e hin hne').2
    refine ⟨mp', used', heq, hwf, ?_, ?_⟩
    · rw [← hiff]
      exact hlost
    · rw [← hiff, hwf.free, h.free]
      exact hkept
  cases hprev : front.getLast? with
  | none =>
    rw [getLast?_eq_none_iff] at hprev
    subst hprev
    exact hright (by simp)
  | some prev =>
    obtain ⟨before, rfl⟩ := getLast?_eq_some_iff.mp hprev
    have hle := hfront prev (by simp)
    have hsum : (prev.mAddr + prev.mSize) % ulong = prev.mAddr + prev.mSize := mod_eq_of_lt (by omega)
    dsimp only
    rw [hsum, dropLast_concat]
    split_ifs with hadj
    · have h' : Wf cap mp (before ++ prev :: back) := by simpa using h
      obtain ⟨mp', used', heq, hwf, hunits⟩ := mergeLeft_ok hcap h' hsize hend hadj hback hrest
      refine ⟨mp', used', heq, hwf, fun hlost => ?_, fun _ => by rw [hwf.free, h'.free, hunits]⟩
      obtain ⟨hin, hne⟩ := (hused prev).mpr (by simp)
      exact absurd hadj (hlost.2 prev hin hne).1
    · refine hright fun e he => ?_
      rcases mem_append.mp he with he | he
      · have := (pairwise_append.mp (pairwise_append.mp h.ordered.apart).1).2.2 e he prev (.head _)
        omega
      · rw [mem_singleton.mp he]
        exact hadj

/-! ### Runs -/

/-- The units that `rmalloc` has given out and `rmfree` has not got back. -/
def held (events : List Event) : Set Nat :=
  events.foldl (fun out event =>
    match event with
    | .rmalloc size a => if a = 0 then out else out ∪ run a size
    | .rmfree size a => out \ run a size
    | .want _ => out) ∅

theorem mapinit_wf : Wf cap (mapinit cap) [] :=
  ⟨rfl, rfl, by simp, List.Pairwise.nil⟩

variable {event : Event}

theorem step_wf (h : Wf cap mp used) (hcap : cap < ulong) (hstep : Step mp event mp') :
    ∃ used', Wf cap mp' used' := by
  cases hstep with
  | rmalloc _ heq =>
    obtain ⟨mp₁, a, used', heq', hwf, -⟩ := rmalloc_ok h hcap _
    rw [heq] at heq'
    cases heq'
    exact ⟨used', hwf⟩
  | rmfree ha hsize hend hdisj heq =>
    obtain ⟨mp₁, used', heq', hwf, -⟩ := rmfree_ok h hcap ha hsize hend hdisj
    rw [heq] at heq'
    cases heq'
    exact ⟨used', hwf⟩
  | want => exact ⟨used, h.slots, h.size, h.ordered⟩

end

/-- Two maps of one size with the same free units have the same entries, whatever calls led to them;
the order in which space is given back makes no difference. -/
theorem resmap_unique {cap : Nat} (hcap : cap < ulong) {mp mp' : RMap} {events events' : List Event}
    (hrun : Exec Step (mapinit cap) events mp) (hrun' : Exec Step (mapinit cap) events' mp')
    (hfree : mp.free = mp'.free) : mp.slots = mp'.slots ∧ mp.mapsize = mp'.mapsize := by
  have hkeep : ∀ {mp events}, Exec Step (mapinit cap) events mp → ∃ used, Wf cap mp used :=
    fun hrun => hrun.keeps (∃ used, Wf cap · used)
      (fun _ _ _ ⟨_, h⟩ hstep => step_wf h hcap hstep) ⟨[], mapinit_wf⟩
  obtain ⟨used, h⟩ := hkeep hrun
  obtain ⟨used', h'⟩ := hkeep hrun'
  obtain rfl := h.ordered.unique h'.ordered (h.free ▸ h'.free ▸ hfree)
  have hsize := h.size
  have hsize' := h'.size
  have hmap : mp.mapsize = mp'.mapsize := by omega
  exact ⟨by rw [h.slots, h'.slots, hmap], hmap⟩

/-- A run given and taken again, against no call at all. -/
theorem resmap_unique_taken : ∃ mp mp' : RMap, rmfree (mapinit 2) 4 1 = some mp ∧
    rmalloc mp 4 = some (mp', 1) ∧ mp'.slots = (mapinit 2).slots ∧ mp'.mapsize = 2 := by
  have hdisj : Disjoint (run 1 4) (mapinit 2).free := by
    rw [mapinit_wf.free, units_nil]
    exact Set.disjoint_empty _
  have hgive : rmfree (mapinit 2) 4 1 = some ⟨1, 0, [⟨4, 1⟩, zero, zero]⟩ := by decide
  have htake : rmalloc ⟨1, 0, [⟨4, 1⟩, zero, zero]⟩ 4 = some (mapinit 2, 1) := by decide
  have hrun := ((Exec.nil _).snoc
    (Step.rmfree (by decide) (by decide) (by decide) hdisj hgive)).snoc
      (Step.rmalloc (by decide) htake)
  exact ⟨_, _, hgive, htake, resmap_unique (by decide) hrun (Exec.nil _) rfl⟩

end Svr42.Resmap

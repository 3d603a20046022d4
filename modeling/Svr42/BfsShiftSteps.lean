import Svr42.BlockShift
import Svr42.BfsShiftModel

/-! The loop that shifts a file, write by write: how far the blocks have come and from which block the
words of the superblock say that the shift is to be taken up again. -/

namespace Svr42.BfsShift
open List

variable {β : Type*}

/-- The words tell `fsck` to go on at `r`; the first two are cleared while a chunk is complete and
the next one has not begun. -/
def Sanity.Restarts (sw : Sanity) (r gap : Nat) : Prop :=
  sw.bfromblock = some r ∧ sw.btoblock = some (r - gap) ∧
    (sw.fromblock = some r ∧ sw.toblock = some (r - gap) ∨ sw.fromblock = none ∧ sw.toblock = none)

theorem words_restarts (r gap : Nat) : (words r (r - gap)).Restarts r gap :=
  ⟨rfl, rfl, .inl ⟨rfl, rfl⟩⟩

/-- The blocks from `lo` up to `u` have been copied, and the shift is to be taken up again at `r`,
not after `u` and not more than a gap before it. -/
structure Under (B : Nat → β) (I : List Dirent) (lo gap u r : Nat) (d : Disk β) : Prop where
  blocks : d.blocks = shifted B lo gap u
  inodes : d.inodes = I
  restarts : d.sane.Restarts r gap
  first : lo ≤ r
  before : r ≤ u
  near : u ≤ r + gap

variable {B : Nat → β} {I : List Dirent} {lo gap u r e m : Nat} {d : Disk β}

namespace Under

section

variable (h : Under B I lo gap u r d)
include h

theorem begun : lo ≤ u := Nat.le_trans h.first h.before

theorem copy (hgap : gap ≤ lo) (hnear : u < r + gap) :
    Under B I lo gap (u + 1) r (d.put (.block (u - gap) (B u))) where
  blocks := by
    rw [Disk.put, h.blocks]
    exact shifted_succ h.begun (Nat.le_trans hgap h.begun)
  inodes := h.inodes
  restarts := h.restarts
  first := h.first
  before := Nat.le_succ_of_le h.before
  near := hnear

theorem mark : Under B I lo gap u u (d.put (.sanity (words u (u - gap)))) where
  blocks := h.blocks
  inodes := h.inodes
  restarts := words_restarts u gap
  first := h.begun
  before := Nat.le_refl u
  near := Nat.le_add_right u gap

theorem unmark : Under B I lo gap u r (d.put .w4fsck) where
  blocks := h.blocks
  inodes := h.inodes
  restarts := ⟨h.restarts.1, h.restarts.2.1, .inr ⟨rfl, rfl⟩⟩
  first := h.first
  before := h.before
  near := h.near

end

end Under

theorem chunkWrites_take (d : Disk β) (f t n k : Nat) :
    (chunkWrites d f t n).take k = chunkWrites d f t (min k n) := by
  rw [chunkWrites, ← map_take, take_range]
  rfl

theorem chunk_under {d₀ : Disk β} (h : Under B I lo gap u r d) (hread : ∀ k, d₀.blocks (u + k) = B (u + k))
    (hgap : gap ≤ lo) {n : Nat} (hnear : u + n ≤ r + gap) :
    Under B I lo gap (u + n) r (d.puts (chunkWrites d₀ u (u - gap) n)) := by
  induction n with
  | zero => exact h
  | succ n ih =>
    have hprev := ih (Nat.le_of_succ_le hnear)
    have hto : u - gap + n = u + n - gap := by
      have hle := Nat.le_trans hgap h.begun
      omega
    have hstep := hprev.copy hgap hnear
    rw [← hread n, ← hto] at hstep
    rw [Disk.puts, chunkWrites, range_succ, map_append, writeAll_append]
    exact hstep

def Stopped (B : Nat → β) (I : List Dirent) (lo gap e : Nat) (d : Disk β) : Prop :=
  ∃ u r, Under B I lo gap u r d ∧ u ≤ e + 1 ∧ r ≤ e

theorem chunk_stops (h : Under B I lo gap u r d) (hgap : gap ≤ lo) {n : Nat} (hre : r ≤ e)
    (hnear : u + n ≤ r + gap) (hend : u + n ≤ e + 1) {d₀ : Disk β}
    (hread : ∀ k, d₀.blocks (u + k) = B (u + k)) :
    AtStops Disk.put (Stopped B I lo gap e) d (chunkWrites d₀ u (u - gap) n) := by
  intro k
  rw [chunkWrites_take]
  exact ⟨u + min k n, r, chunk_under h hread hgap (by omega), by omega, hre⟩

theorem Under.read (h : Under B I lo gap u r d) (k : Nat) : d.blocks (u + k) = B (u + k) := by
  rw [h.blocks]
  exact shifted_above (by omega)

theorem chunk_blocks {left : Nat} : min (m * BFS_BSIZE) (left * BFS_BSIZE) = min m left * BFS_BSIZE := by
  unfold BFS_BSIZE
  omega

/-- The loop ends, every stop of it can be taken up again, and at its end all blocks are copied. -/
theorem shiftLoop_under {small : Bool} (hgap : gap ≤ lo) (hpos : 0 < m) (hm : m ≤ gap) (hre : r ≤ e)
    (hlarge : small = false → e + 1 ≤ r + gap) {fuel : Nat} (h : Under B I lo gap u r d)
    (hue : u ≤ e + 1) (hfuel : e + 1 - u ≤ fuel) :
    ∃ ws, shiftLoop small fuel d e u (u - gap) (m * BFS_BSIZE) = some ws ∧
      AtStops Disk.put (Stopped B I lo gap e) d ws ∧
      ∃ r', Under B I lo gap (e + 1) r' (d.puts ws) ∧ r' ≤ e := by
  induction fuel generalizing d u r m with
  | zero =>
    obtain rfl : u = e + 1 := by omega
    unfold shiftLoop
    rw [if_pos rfl]
    exact ⟨[], rfl, .nil ⟨_, r, h, Nat.le_refl _, hre⟩, r, h, hre⟩
  | succ fuel ih =>
    unfold shiftLoop
    by_cases hdone : u = e + 1
    · subst hdone
      rw [if_pos rfl]
      exact ⟨[], rfl, .nil ⟨_, r, h, Nat.le_refl _, hre⟩, r, h, hre⟩
    rw [if_neg hdone]
    simp only [chunk_blocks, Nat.mul_div_cancel _ (show 0 < BFS_BSIZE by decide)]
    generalize hn : min m (e - u + 1) = n
    have hn0 : 0 < n := by omega
    have hnm : n ≤ m := by omega
    have hend : u + n ≤ e + 1 := by omega
    have hto : u - gap + n = u + n - gap := by
      have hle := Nat.le_trans hgap h.begun
      omega
    rw [hto]
    cases small with
    | false =>
      have hnear : u + n ≤ r + gap := Nat.le_trans hend (hlarge rfl)
      have hchunk := chunk_under h h.read hgap hnear
      simp only [Bool.false_eq_true, if_false, nil_append, append_nil]
      obtain ⟨ws, hws, hstops, r', hlast, hr'⟩ :=
        ih hn0 (Nat.le_trans hnm hm) hre hlarge hchunk hend (by omega)
      rw [hws]
      refine ⟨_, rfl, (chunk_stops h hgap hre hnear hend h.read).append hstops, r', ?_, hr'⟩
      rw [Disk.puts, writeAll_append]
      exact hlast
    | true =>
      have hmark := h.mark
      have hnear : u + n ≤ u + gap := by omega
      have hue' : u ≤ e := by omega
      have hmarked := chunk_stops hmark hgap hue' hnear hend h.read
      have hchunk := (chunk_under hmark h.read hgap hnear).unmark
      simp only [if_true, singleton_append]
      obtain ⟨ws, hws, hstops, r', hlast, hr'⟩ := ih hn0 (Nat.le_trans hnm hm) hue'
        (fun h => absurd h (by decide)) hchunk hend (by omega)
      have hdisk : d.puts (.sanity (words u (u - gap)) :: (chunkWrites d u (u - gap) n ++ [.w4fsck])) =
          ((d.put (.sanity (words u (u - gap)))).puts (chunkWrites d u (u - gap) n)).put .w4fsck := by
        rw [Disk.puts, writeAll_cons, writeAll_append]
        rfl
      rw [cons_append, hdisk, hws]
      refine ⟨_, rfl, .cons ⟨u, r, h, hue, hre⟩ ?_, r', ?_, hr'⟩
      · change AtStops _ _ _ ((chunkWrites d u (u - gap) n ++ [.w4fsck]) ++ ws)
        rw [append_assoc]
        exact hmarked.append (.cons hmarked.last hstops)
      · rw [Disk.puts, writeAll_append]
        change Under B I lo gap (e + 1) r' (Disk.puts (d.puts _) ws)
        rw [hdisk]
        exact hlast

end Svr42.BfsShift

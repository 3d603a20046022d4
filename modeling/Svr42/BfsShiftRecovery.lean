import Svr42.BfsShiftSteps

/-! A crash while the kernel shifts a file, and what `fsck` makes of the disk: exactly when the shift is
completed without loss. -/

namespace Svr42.BfsShift
open List Option

variable {β : Type*}

/-- The file in slot `i` is to be shifted over a gap that no file reaches into; every other file
lies apart from both, and no compaction is recorded. -/
structure Laid (d : Disk β) (i : Nat) (dir : Dirent) (gap : Nat) : Prop where
  slot : d.inodes[i]? = some dir
  used : dir.d_ino ≠ 0
  extent : dir.d_sblock ≤ dir.d_eblock
  eof : dir.d_eoffset / BFS_BSIZE = dir.d_eblock
  gap_pos : 0 < gap
  room : gap < dir.d_sblock
  apart : ∀ j dj, j ≠ i → d.inodes[j]? = some dj → dj.d_ino ≠ 0 →
    ∀ b, dj.d_sblock ≤ b → b ≤ dj.d_eblock → b + gap < dir.d_sblock ∨ dir.d_eblock < b
  quiet : d.sane = cleared

/-- The move is complete: the entry of the file names the blocks a gap further down and these hold
its bytes; no other file has changed, and the words are cleared. -/
structure Recovered (d : Disk β) (i : Nat) (dir : Dirent) (gap : Nat) (d' : Disk β) : Prop where
  entry : d'.inodes[i]? = some ⟨dir.d_ino, dir.d_sblock - gap, dir.d_eblock - gap,
    dir.d_eoffset - gap * BFS_BSIZE⟩
  bytes : ∀ b, dir.d_sblock ≤ b → b ≤ dir.d_eblock → d'.blocks (b - gap) = d.blocks b
  entries : ∀ j dj, j ≠ i → d.inodes[j]? = some dj → dj.d_ino ≠ 0 → d'.inodes[j]? = some dj
  others : ∀ j dj, j ≠ i → d.inodes[j]? = some dj → dj.d_ino ≠ 0 →
    ∀ b, dj.d_sblock ≤ b → b ≤ dj.d_eblock → d'.blocks b = d.blocks b
  words : d'.sane = cleared

/-- What the stopped disk must be like: as long as the entry is the old one, the block to go on from
is not the last of the file and no earlier slot spans it; once it is the new one, a slot of a
deleted file that spans that block does not make `fsck` copy other bytes over another file. -/
def Recoverable (i : Nat) (dir : Dirent) (gap : Nat) (d : Disk β) : Prop :=
  ∃ r, d.sane.bfromblock = some r ∧
    (d.inodes[i]? = some dir → r < dir.d_eblock ∧
      ∀ j dj, j < i → d.inodes[j]? = some dj → Fsck.holds r dj = false) ∧
    (d.inodes[i]? ≠ some dir → ∀ j dj, d.inodes.findIdx? (Fsck.holds r) = some j →
      d.inodes[j]? = some dj → ∀ k dk, k ≠ i → d.inodes[k]? = some dk → dk.d_ino ≠ 0 →
        ∀ b, dk.d_sblock ≤ b → b ≤ dk.d_eblock → dir.d_eblock < b → b + gap ≤ dj.d_eblock →
          d.blocks (b + gap) = d.blocks b)

section Writes

variable {d : Disk β} {gap r f j : Nat} {dj : Dirent}

theorem chunk_max (gap : Nat) : min BFSBUFSIZE (gap * BFS_BSIZE) = min 16 gap * BFS_BSIZE := by
  unfold BFSBUFSIZE BFS_BSIZE
  omega

/-- The writes of a shift that starts at `f`. -/
theorem shiftWrites_spec (d : Disk β) (j : Nat) (dir : Dirent) (hgap : gap ≤ f) (hpos : 0 < gap) (hlo : dir.d_sblock ≤ f)
    (hhi : f ≤ dir.d_eblock) :
    ∃ ws, shiftWrites d j dir f (f - gap) gap = some (.sanity (words f (f - gap)) ::
        (ws ++ [.inode j (dir.shift f gap), .sanity cleared])) ∧
      AtStops Disk.put (Stopped d.blocks d.inodes f gap dir.d_eblock)
        (d.put (.sanity (words f (f - gap)))) ws ∧
      ∃ r, Under d.blocks d.inodes f gap (dir.d_eblock + 1) r
        ((d.put (.sanity (words f (f - gap)))).puts ws) ∧ r ≤ dir.d_eblock := by
  have hstart : Under d.blocks d.inodes f gap f f (d.put (.sanity (words f (f - gap)))) :=
    { blocks := shifted_start.symm
      inodes := rfl
      restarts := words_restarts f gap
      first := Nat.le_refl f
      before := Nat.le_refl f
      near := Nat.le_add_right f gap }
  have hlarge : decide (gap * BFS_BSIZE < (dir.d_eblock - dir.d_sblock + 1) * BFS_BSIZE) = false →
      dir.d_eblock + 1 ≤ f + gap := by
    intro hno
    have hle := Nat.not_lt.mp (of_decide_eq_false hno)
    have hsize := Nat.le_of_mul_le_mul_right hle (show 0 < BFS_BSIZE by decide)
    omega
  obtain ⟨ws, hws, hstops, hlast⟩ := shiftLoop_under (m := min 16 gap) hgap (by omega) (by omega)
    hhi hlarge hstart (by omega) (Nat.le_refl _)
  refine ⟨ws, ?_, hstops, hlast⟩
  unfold shiftWrites
  simp only [chunk_max, hws, map_some]

theorem shiftWrites_last (j : Nat) (dir : Dirent) {ws : List (Write β)} {u : Nat}
    (h : Under d.blocks d.inodes f gap u r ((d.put (.sanity (words f (f - gap)))).puts ws)) :
    let d' := d.puts (.sanity (words f (f - gap)) ::
      (ws ++ [.inode j (dir.shift f gap), .sanity cleared]))
    d'.blocks = shifted d.blocks f gap u ∧ d'.inodes = d.inodes.set j (dir.shift f gap) ∧
      d'.sane = cleared := by
  intro d'
  have hd' : d' = (((d.put (.sanity (words f (f - gap)))).puts ws).put
      (.inode j (dir.shift f gap))).put (.sanity cleared) := by
    simp only [d', Disk.puts, writeAll_cons, writeAll_append, writeAll_nil]
  rw [hd']
  exact ⟨h.blocks, congrArg (set · j _) h.inodes, rfl⟩

section

variable (h : d.sane.Restarts r gap)
include h

theorem restart_spec : ∃ ws, Fsck.restart d.sane r (r - gap) = (ws, r, r - gap) ∧
      AtStops Disk.put (Under d.blocks d.inodes r gap r r) d ws := by
  have hu : Under d.blocks d.inodes r gap r r d :=
    ⟨shifted_start.symm, rfl, h, Nat.le_refl r, Nat.le_refl r, Nat.le_add_right r gap⟩
  obtain ⟨-, -, ⟨hfrom, hto⟩ | ⟨hfrom, -⟩⟩ := h
  · refine ⟨[], ?_, .nil hu⟩
    rw [Fsck.restart, hfrom, hto]
  · refine ⟨[.sanity (words r (r - gap))], ?_, .cons hu (.nil hu.mark)⟩
    rw [Fsck.restart, hfrom]

/-- Every stop of `fsck` before it writes the entry of the file it has found is one of the shift. -/
theorem complete_stops (hgap : gap ≤ r) (hpos : 0 < gap)
    (hfind : d.inodes.findIdx? (Fsck.holds r) = some j) (hj : d.inodes[j]? = some dj) :
    ∃ ws, Fsck.complete d r (r - gap) = some (ws ++ [.inode j (dj.shift r gap), .sanity cleared]) ∧
      AtStops Disk.put (Stopped d.blocks d.inodes r gap dj.d_eblock) d ws ∧
      ∃ r', Under d.blocks d.inodes r gap (dj.d_eblock + 1) r' (d.puts ws) := by
  obtain ⟨pre, hpre, hstops⟩ := restart_spec h
  obtain ⟨hlt, hholds, -⟩ := findIdx?_eq_some_iff_getElem.mp hfind
  rw [List.getElem?_eq_getElem hlt, some_inj] at hj
  rw [hj, Fsck.holds, decide_eq_true_eq] at hholds
  obtain ⟨ws, hws, hshift, r', hlast, -⟩ := shiftWrites_spec (d.puts pre) j dj hgap hpos
    hholds.1 (Nat.le_of_lt hholds.2)
  have hback : r - (r - gap) = gap := by omega
  have hbegun : ∀ {d'}, Under d.blocks d.inodes r gap r r d' →
      Stopped d.blocks d.inodes r gap dj.d_eblock d' := fun hu =>
    ⟨r, r, hu, by omega, Nat.le_of_lt hholds.2⟩
  have hblocks : (d.puts pre).blocks = d.blocks := hstops.last.blocks.trans shifted_start
  have hinodes : (d.puts pre).inodes = d.inodes := hstops.last.inodes
  rw [hblocks, hinodes] at hshift hlast
  refine ⟨pre ++ .sanity (words r (r - gap)) :: ws, ?_,
    (hstops.mono fun _ => hbegun).append (.cons (hbegun hstops.last) hshift), r', ?_⟩
  · unfold Fsck.complete
    simp only [hpre, hfind, List.getElem?_eq_getElem hlt, hj, Fsck.bfs_shiftfile, hback, hws, map_some,
      append_assoc, cons_append]
  · rw [Disk.puts, writeAll_append]
    exact hlast

theorem complete_found (hgap : gap ≤ r) (hpos : 0 < gap)
    (hfind : d.inodes.findIdx? (Fsck.holds r) = some j) (hj : d.inodes[j]? = some dj) :
    ∃ ws, Fsck.complete d r (r - gap) = some ws ∧
      (d.puts ws).blocks = shifted d.blocks r gap (dj.d_eblock + 1) ∧
      (d.puts ws).inodes = d.inodes.set j (dj.shift r gap) ∧ (d.puts ws).sane = cleared := by
  obtain ⟨ws, hws, -, r', hlast⟩ := complete_stops h hgap hpos hfind hj
  refine ⟨_, hws, ?_⟩
  rw [Disk.puts, writeAll_append]
  exact ⟨hlast.blocks, congrArg (set · j _) hlast.inodes, rfl⟩

theorem complete_none (hfind : d.inodes.findIdx? (Fsck.holds r) = none) :
    ∃ ws, Fsck.complete d r (r - gap) = some ws ∧ (d.puts ws).blocks = d.blocks ∧
      (d.puts ws).inodes = d.inodes ∧ (d.puts ws).sane = cleared := by
  obtain ⟨pre, hpre, hstops⟩ := restart_spec h
  unfold Fsck.complete
  simp only [hpre, hfind]
  refine ⟨_, rfl, ?_⟩
  rw [Disk.puts, writeAll_append]
  exact ⟨hstops.last.blocks.trans shifted_start, hstops.last.inodes, rfl⟩

end

end Writes

theorem complete_cases {d : Disk β} {r gap : Nat} (h : d.sane.Restarts r gap) (hgap : gap ≤ r)
    (hpos : 0 < gap) :
    (d.inodes.findIdx? (Fsck.holds r) = none ∧ ∃ ws, Fsck.complete d r (r - gap) = some ws ∧
        (d.puts ws).blocks = d.blocks ∧ (d.puts ws).inodes = d.inodes ∧ (d.puts ws).sane = cleared) ∨
      ∃ j dj, d.inodes.findIdx? (Fsck.holds r) = some j ∧ d.inodes[j]? = some dj ∧
        Fsck.holds r dj = true ∧ (∀ k dk, k < j → d.inodes[k]? = some dk → Fsck.holds r dk = false) ∧
        ∃ ws, Fsck.complete d r (r - gap) = some ws ∧
          (d.puts ws).blocks = shifted d.blocks r gap (dj.d_eblock + 1) ∧
          (d.puts ws).inodes = d.inodes.set j (dj.shift r gap) ∧ (d.puts ws).sane = cleared := by
  cases hfind : d.inodes.findIdx? (Fsck.holds r) with
  | none => exact .inl ⟨rfl, complete_none h hfind⟩
  | some j =>
    obtain ⟨hlt, hholds, hfirst⟩ := List.findIdx?_eq_some_iff_getElem.mp hfind
    have hj := List.getElem?_eq_getElem hlt
    refine .inr ⟨j, _, rfl, hj, hholds, fun k dk hk hdk => ?_, complete_found h hgap hpos hfind hj⟩
    obtain ⟨hklt, rfl⟩ := List.getElem?_eq_some_iff.mp hdk
    exact Bool.eq_false_iff.mpr (hfirst k hk)

section Crash

variable {d d' : Disk β} {i gap u r : Nat} {dir : Dirent}

section

variable (h : Laid d i dir gap)
include h

theorem Laid.shift_entry (hr : r ≤ dir.d_eblock) :
    dir.shift r gap = ⟨dir.d_ino, dir.d_sblock - gap, dir.d_eblock - gap,
      dir.d_eoffset - gap * BFS_BSIZE⟩ := by
  have hroom := h.room
  have heof := h.eof
  have hextent := h.extent
  unfold Dirent.shift
  rw [if_pos ⟨h.eof, hr⟩]
  unfold BFS_BSIZE at heof ⊢
  congr 1
  omega

theorem Laid.ne_entry :
    dir ≠ ⟨dir.d_ino, dir.d_sblock - gap, dir.d_eblock - gap, dir.d_eoffset - gap * BFS_BSIZE⟩ := by
  have hroom := h.room
  have hpos := h.gap_pos
  intro heq
  have hsblock := congrArg Dirent.d_sblock heq
  simp only at hsblock
  omega

theorem Laid.not_holds (hr : dir.d_sblock ≤ r) (hr' : r ≤ dir.d_eblock) {j : Nat} {dj : Dirent}
    (hj : j ≠ i) (hdj : d.inodes[j]? = some dj) (hused : dj.d_ino ≠ 0) : Fsck.holds r dj = false := by
  rw [Fsck.holds, decide_eq_false_iff_not]
  rintro ⟨hs, he⟩
  rcases h.apart j dj hj hdj hused r hs (Nat.le_of_lt he) with hlt | hlt <;> omega

theorem Laid.others_apart {j : Nat} {dj : Dirent} (hj : j ≠ i) (hdj : d.inodes[j]? = some dj)
    (hused : dj.d_ino ≠ 0) {b : Nat} (hs : dj.d_sblock ≤ b) (he : b ≤ dj.d_eblock) :
    shifted d.blocks dir.d_sblock gap (dir.d_eblock + 1) b = d.blocks b := by
  rcases h.apart j dj hj hdj hused b hs he with hlt | hlt
  · exact shifted_below hlt
  · exact shifted_above (by omega)

/-- **A stop before the new entry is written.** -/
theorem stopped_iff (hu : Under d.blocks d.inodes dir.d_sblock gap u r d') (hend : u ≤ dir.d_eblock + 1)
    (hr : r ≤ dir.d_eblock) :
    (∃ ws, Fsck.complete d' r (r - gap) = some ws ∧ Recovered d i dir gap (d'.puts ws)) ↔
      Recoverable i dir gap d' := by
  have hslot : d'.inodes[i]? = some dir := by rw [hu.inodes, h.slot]
  have hgap : gap ≤ r := Nat.le_trans (Nat.le_of_lt h.room) hu.first
  constructor
  · rintro ⟨ws, hws, hrec⟩
    refine ⟨r, hu.restarts.1, fun _ => ?_, fun hne => absurd hslot hne⟩
    obtain ⟨-, ws', hws', -, hinodes, -⟩ | ⟨j, dj, -, hdj, hholds, hfirst, ws', hws', -, hinodes, -⟩ :=
      complete_cases hu.restarts hgap h.gap_pos
    · -- nothing is found, so the entry stays the old one
      obtain rfl : ws = ws' := some.inj (hws.symm.trans hws')
      have hentry := hrec.entry
      rw [hinodes, hslot, some_inj] at hentry
      exact absurd hentry h.ne_entry
    · obtain rfl : ws = ws' := some.inj (hws.symm.trans hws')
      by_cases hj : j = i
      · subst hj
        rw [hslot, some_inj] at hdj
        subst hdj
        rw [Fsck.holds, decide_eq_true_eq] at hholds
        exact ⟨hholds.2, fun k dk hk hdk => hfirst k dk hk hdk⟩
      · have hentry := hrec.entry
        rw [hinodes, List.getElem?_set_ne hj, hslot, some_inj] at hentry
        exact absurd hentry h.ne_entry
  · rintro ⟨r', hr', hold, -⟩
    obtain rfl : r = r' := some.inj (hu.restarts.1.symm.trans hr')
    obtain ⟨hlt, hfirst⟩ := hold hslot
    have hholds : Fsck.holds r dir = true := decide_eq_true ⟨hu.first, hlt⟩
    obtain ⟨hnone, -⟩ | ⟨j, dj, -, hdj, hjholds, hjfirst, ws, hws, hblocks, hinodes, hsane⟩ :=
      complete_cases hu.restarts hgap h.gap_pos
    · have hno := List.findIdx?_eq_none_iff.mp hnone dir (mem_of_getElem? hslot)
      rw [hholds] at hno
      exact absurd hno (by decide)
    have hj : j = i := by
      rcases Nat.lt_trichotomy j i with hji | hji | hji
      · exact absurd (hfirst j dj hji hdj) (by rw [hjholds]; decide)
      · exact hji
      · exact absurd (hjfirst i dir hji hslot) (by rw [hholds]; decide)
    subst hj
    rw [hslot, some_inj] at hdj
    subst hdj
    rw [hu.blocks, shifted_resume hu.first hu.before hu.near hend] at hblocks
    rw [hu.inodes, h.shift_entry hr] at hinodes
    refine ⟨ws, hws, ?_, fun b hs he => ?_, fun k dk hk hdk _ => ?_, fun k dk hk hdk hused b hs he => ?_,
      hsane⟩
    · rw [hinodes, List.getElem?_set_self (List.getElem?_eq_some_iff.mp h.slot).1]
    · have hroom := h.room
      have hback : b - gap + gap = b := by omega
      rw [hblocks, shifted_in (by omega) (by omega), hback]
    · rw [hinodes, List.getElem?_set_ne (Ne.symm hk), hdk]
    · rw [hblocks]
      exact h.others_apart hk hdk hused hs he

/-- **A stop after the new entry is written.** -/
theorem moved_iff (hu : Under d.blocks d.inodes dir.d_sblock gap (dir.d_eblock + 1) r d')
    (hr : r ≤ dir.d_eblock) : let d'' := d'.put (.inode i (dir.shift dir.d_sblock gap))
    (∃ ws, Fsck.complete d'' r (r - gap) = some ws ∧ Recovered d i dir gap (d''.puts ws)) ↔
      Recoverable i dir gap d'' := by
  intro d''
  have hentry : dir.shift dir.d_sblock gap = _ := h.shift_entry h.extent
  have hinodes : d''.inodes = d.inodes.set i (dir.shift dir.d_sblock gap) :=
    congrArg (List.set · i _) hu.inodes
  have hslot : d''.inodes[i]? = some (dir.shift dir.d_sblock gap) := by
    rw [hinodes, List.getElem?_set_self (List.getElem?_eq_some_iff.mp h.slot).1]
  have hne : d''.inodes[i]? ≠ some dir := by
    rw [hslot, hentry]
    exact fun heq => h.ne_entry (some.inj heq).symm
  have hother : ∀ {k}, k ≠ i → d''.inodes[k]? = d.inodes[k]? := fun hk => by
    rw [hinodes, List.getElem?_set_ne (Ne.symm hk)]
  have hgap : gap ≤ r := Nat.le_trans (Nat.le_of_lt h.room) hu.first
  have hnear := hu.near
  have hroom := h.room
  have hself : Fsck.holds r (dir.shift dir.d_sblock gap) = false := by
    rw [hentry, Fsck.holds, decide_eq_false_iff_not]
    rintro ⟨-, he⟩
    simp only at he
    omega
  have hbytes : ∀ b, dir.d_sblock ≤ b → b ≤ dir.d_eblock → d''.blocks (b - gap) = d.blocks b := by
    intro b hs he
    have hback : b - gap + gap = b := by omega
    change d'.blocks (b - gap) = d.blocks b
    rw [hu.blocks, shifted_in (by omega) (by omega), hback]
  have hrest : d''.sane.Restarts r gap := hu.restarts
  obtain ⟨hnone, ws, hws, hblocks, hslots, hsane⟩ |
    ⟨j, dj, hfind, hdj, hholds, -, ws, hws, hblocks, hslots, hsane⟩ :=
      complete_cases hrest hgap h.gap_pos
  · -- nothing is found: the words are cleared
    refine iff_of_true ⟨ws, hws, ?_, fun b hs he => ?_, fun k dk hk hdk _ => ?_,
      fun k dk hk hdk hused b hs he => ?_, hsane⟩
      ⟨r, hrest.1, fun heq => absurd heq hne, fun _ j dj hfind => ?_⟩
    · rw [hslots, hslot, hentry]
    · rw [hblocks, hbytes b hs he]
    · rw [hslots, hother hk, hdk]
    · rw [hblocks]
      exact (congrFun hu.blocks b).trans (h.others_apart hk hdk hused hs he)
    · rw [hnone] at hfind
      cases hfind
  · -- the slot of a deleted file is found, and shifted
    have hj : j ≠ i := by
      rintro rfl
      rw [hslot, some_inj] at hdj
      rw [hdj, hholds] at hself
      exact absurd hself (by decide)
    rw [Fsck.holds, decide_eq_true_eq] at hholds
    have habove : ∀ b, dir.d_eblock < b → d''.blocks b = d.blocks b := fun b hb =>
      (congrFun hu.blocks b).trans (shifted_above (by omega))
    constructor
    · rintro ⟨ws', hws', hrec⟩
      obtain rfl : ws' = ws := some.inj (hws'.symm.trans hws)
      refine ⟨r, hrest.1, fun heq => absurd heq hne,
        fun _ j' dj' hfind' hdj' k dk hk hdk hused b hs he hb hreach => ?_⟩
      obtain rfl : j' = j := some.inj (hfind'.symm.trans hfind)
      obtain rfl : dj' = dj := some.inj (hdj'.symm.trans hdj)
      rw [hother hk] at hdk
      have hkept := hrec.others k dk hk hdk hused b hs he
      rw [hblocks, shifted_in (by omega) (by omega)] at hkept
      rw [hkept, habove b hb]
    · rintro ⟨r', hr', -, hnew⟩
      obtain rfl : r = r' := some.inj (hrest.1.symm.trans hr')
      have hharm := hnew hne j dj hfind hdj
      refine ⟨ws, hws, ?_, fun b hs he => ?_, fun k dk hk hdk hused => ?_,
        fun k dk hk hdk hused b hs he => ?_, hsane⟩
      · rw [hslots, List.getElem?_set_ne hj, hslot, hentry]
      · rw [hblocks]
        by_cases hin : r ≤ b ∧ b < dj.d_eblock + 1
        · have hback : b - gap + gap = b := by omega
          rw [shifted_in (by omega) (by omega), hback]
          exact (congrFun hu.blocks b).trans (shifted_above (by omega))
        · have hout : shifted d''.blocks r gap (dj.d_eblock + 1) (b - gap) = d''.blocks (b - gap) :=
            if_neg fun h => hin (by omega)
          rw [hout, hbytes b hs he]
      · have hkj : j ≠ k := by
          rintro rfl
          have hno := h.not_holds hu.first hr hj hdk hused
          rw [Fsck.holds, decide_eq_false_iff_not] at hno
          rw [hother hj, hdk, some_inj] at hdj
          exact hno (hdj ▸ hholds)
        rw [hslots, List.getElem?_set_ne hkj, hother hk, hdk]
      · rw [hblocks]
        rcases h.apart k dk hk hdk hused b hs he with hlt | hlt
        · have hfirst := hu.first
          rw [shifted_below (by omega)]
          exact (congrFun hu.blocks b).trans (shifted_below hlt)
        · by_cases hreach : b + gap ≤ dj.d_eblock
          · rw [shifted_in (by omega) (by omega),
              hharm k dk hk (by rw [hother hk, hdk]) hused b hs he hlt hreach, habove b hlt]
          · rw [shifted_above (by omega), habove b hlt]

end

/-- **Recovery from a crash.** However the shift of a file is stopped between two of its writes,
`fsck` completes it without loss exactly when the stopped disk is recoverable. -/
theorem check_compaction_iff (h : Laid d i dir gap) {mflag nflag yflag : Bool} {ans : Char}
    (hyes : Fsck.consents mflag nflag yflag ans = true) :
    ∃ ws, bfs_shiftfile d dir gap i = some ws ∧ ∀ k, 0 < k → k < ws.length →
      ((∃ ws', Fsck.check_compaction mflag nflag yflag ans (d.puts (ws.take k)) = some ws' ∧
          Recovered d i dir gap ((d.puts (ws.take k)).puts ws')) ↔
        Recoverable i dir gap (d.puts (ws.take k))) := by
  obtain ⟨ws, hws, hstops, r, hlast, hr⟩ := shiftWrites_spec d i dir (Nat.le_of_lt h.room) h.gap_pos
    (Nat.le_refl _) h.extent
  refine ⟨_, hws, fun k hpos hk => ?_⟩
  obtain ⟨k, rfl⟩ := Nat.exists_eq_add_of_lt hpos
  rw [Nat.zero_add] at hk ⊢
  have hcheck : ∀ {r' : Nat} {d' : Disk β}, d'.sane.Restarts r' gap →
      Fsck.check_compaction mflag nflag yflag ans d' = Fsck.complete d' r' (r' - gap) := by
    intro r' d' hrest
    rw [Fsck.check_compaction, hrest.1, hrest.2.1]
    simp only [hyes, if_true]
  rw [length_cons, length_append, length_cons, length_singleton] at hk
  rw [take_succ_cons, Disk.puts, writeAll_cons]
  rcases Nat.lt_or_ge ws.length k with hafter | hbefore
  · -- the only stop after the entry
    obtain rfl : k = ws.length + 1 := by omega
    rw [take_length_add_append, take_succ_cons, take_zero, writeAll_append]
    have hput : (((d.put (.sanity (words dir.d_sblock (dir.d_sblock - gap)))).puts ws).put
        (.inode i (dir.shift dir.d_sblock gap))).sane.Restarts r gap := hlast.restarts
    change (∃ ws', Fsck.check_compaction mflag nflag yflag ans
      (((d.put (.sanity (words dir.d_sblock (dir.d_sblock - gap)))).puts ws).put
        (.inode i (dir.shift dir.d_sblock gap))) = some ws' ∧ _) ↔ _
    rw [hcheck hput]
    exact moved_iff h hlast hr
  · rw [take_append_of_le_length hbefore]
    obtain ⟨u, r', hunder, hend, hr'⟩ := hstops k
    rw [hcheck hunder.restarts]
    exact stopped_iff h hunder hend hr'

theorem Under.again {B : Nat → β} {I : List Dirent} {lo u' r' : Nat} (h : Under B I lo gap u r d)
    (h' : Under d.blocks d.inodes r gap u' r' d') : Under B I lo gap (max u u') r' d' where
  blocks := by rw [h'.blocks, h.blocks, shifted_again h.first h.before h.near]
  inodes := h'.inodes.trans h.inodes
  restarts := h'.restarts
  first := Nat.le_trans h.first h'.first
  before := Nat.le_trans h'.before (Nat.le_max_right u u')
  near := by
    have hnear := h.near
    have hfirst := h'.first
    have hnear' := h'.near
    omega

/-- The disks left by stops before the new entry is written, the last write but one: of the kernel as
it shifts the file, and then of `fsck`, any number of times, while the disk is recoverable. -/
inductive Interrupted (d : Disk β) (i : Nat) (dir : Dirent) (gap : Nat) : Disk β → Prop
  | kernel {ws : List (Write β)} {k : Nat} : bfs_shiftfile d dir gap i = some ws → 0 < k →
      k + 1 < ws.length → Interrupted d i dir gap (d.puts (ws.take k))
  | fsck {d' : Disk β} {mflag nflag yflag : Bool} {ans : Char} {ws : List (Write β)} {k : Nat} :
      Interrupted d i dir gap d' → Recoverable i dir gap d' →
      Fsck.check_compaction mflag nflag yflag ans d' = some ws → k + 1 < ws.length →
      Interrupted d i dir gap (d'.puts (ws.take k))

theorem check_compaction_restarts (h : d.sane.Restarts r gap) (mflag nflag yflag : Bool) (ans : Char) :
    Fsck.check_compaction mflag nflag yflag ans d =
      if Fsck.consents mflag nflag yflag ans then Fsck.complete d r (r - gap) else some [] := by
  rw [Fsck.check_compaction, h.1, h.2.1]

theorem Interrupted.stopped (h : Laid d i dir gap) (hd : Interrupted d i dir gap d') :
    Stopped d.blocks d.inodes dir.d_sblock gap dir.d_eblock d' := by
  induction hd with
  | @kernel ws k hws hpos hk =>
    obtain ⟨ws', hws', hstops, -⟩ := shiftWrites_spec d i dir (Nat.le_of_lt h.room) h.gap_pos
      (Nat.le_refl _) h.extent
    obtain rfl := some.inj (hws.symm.trans hws')
    obtain ⟨k, rfl⟩ := Nat.exists_eq_add_of_lt hpos
    rw [length_cons, length_append, length_cons, length_singleton] at hk
    rw [Nat.zero_add, take_succ_cons, take_append_of_le_length (by omega)]
    exact hstops k
  | @fsck d' mflag nflag yflag ans ws k hd hrec hws hk ih =>
    obtain ⟨u, r, hu, hend, -⟩ := ih
    obtain ⟨r', hr', hold, -⟩ := hrec
    obtain rfl : r = r' := some.inj (hu.restarts.1.symm.trans hr')
    have hslot : d'.inodes[i]? = some dir := by rw [hu.inodes, h.slot]
    obtain ⟨hlt, hfirst⟩ := hold hslot
    have hfind : d'.inodes.findIdx? (Fsck.holds r) = some i := by
      obtain ⟨hi, hdir⟩ := List.getElem?_eq_some_iff.mp hslot
      refine findIdx?_eq_some_iff_getElem.mpr ⟨hi, ?_, fun j hj => ?_⟩
      · rw [hdir]
        exact decide_eq_true ⟨hu.first, hlt⟩
      · exact Bool.eq_false_iff.mp (hfirst j _ hj (List.getElem?_eq_getElem _))
    rw [check_compaction_restarts hu.restarts] at hws
    split_ifs at hws
    · obtain ⟨ws', hws', hstops, -⟩ := complete_stops hu.restarts
        (Nat.le_trans (Nat.le_of_lt h.room) hu.first) h.gap_pos hfind hslot
      obtain rfl := some.inj (hws.symm.trans hws')
      rw [length_append, length_cons, length_singleton] at hk
      rw [take_append_of_le_length (by omega)]
      obtain ⟨u', r', hu', hend', hr'⟩ := hstops k
      exact ⟨max u u', r', hu.again hu', Nat.max_le.mpr ⟨hend, hend'⟩, hr'⟩
    · obtain rfl := some.inj hws
      cases hk

end Crash

def twoBlocks : Disk Char where
  sane := cleared
  inodes := [⟨2, 3, 4, 2559⟩]
  blocks b := if b = 3 then 'A' else if b = 4 then 'B' else '-'

theorem twoBlocks_laid : Laid twoBlocks 0 ⟨2, 3, 4, 2559⟩ 1 where
  slot := rfl
  used := by decide
  extent := by decide
  eof := by decide
  gap_pos := by decide
  room := by decide
  apart j dj hj hdj := by
    cases j with
    | zero => exact absurd rfl hj
    | succ j => cases hdj
  quiet := rfl

theorem check_compaction_iff_twoBlocks :
    ∃ ws, bfs_shiftfile twoBlocks ⟨2, 3, 4, 2559⟩ 1 0 = some ws ∧ ∀ k, 0 < k → k < ws.length →
      ((∃ ws', Fsck.check_compaction false false true 'n' (twoBlocks.puts (ws.take k)) = some ws' ∧
          Recovered twoBlocks 0 ⟨2, 3, 4, 2559⟩ 1 ((twoBlocks.puts (ws.take k)).puts ws')) ↔
        Recoverable 0 ⟨2, 3, 4, 2559⟩ 1 (twoBlocks.puts (ws.take k))) :=
  check_compaction_iff twoBlocks_laid rfl

/-- The disk that a crash leaves after the second block was copied, before its chunk is marked done. -/
def crashed : Option (Disk Char) :=
  (bfs_shiftfile twoBlocks ⟨2, 3, 4, 2559⟩ 1 0).map fun ws => twoBlocks.puts (ws.take 6)

/-- The first block of the file is lost: `fsck` takes the file for shifted, clears the words and leaves
the old entry, whose blocks both hold the second one. -/
theorem crashed_lost :
    ((crashed.bind fun d => (Fsck.check_compaction false false true 'n' d).map fun ws =>
      ((d.puts ws).inodes, (d.puts ws).blocks 3, (d.puts ws).blocks 4)) =
        some ([⟨2, 3, 4, 2559⟩], 'B', 'B')) ∧
      ¬ ∀ (d : Disk Char) (i : Nat) (dir : Dirent) (gap : Nat), Laid d i dir gap → ∀ ws,
        bfs_shiftfile d dir gap i = some ws → ∀ k, 0 < k → k < ws.length →
          ∃ ws', Fsck.check_compaction false false true 'n' (d.puts (ws.take k)) = some ws' ∧
            Recovered d i dir gap ((d.puts (ws.take k)).puts ws') := by
  have hlost : (crashed.bind fun d => (Fsck.check_compaction false false true 'n' d).map fun ws =>
      ((d.puts ws).inodes, (d.puts ws).blocks 3, (d.puts ws).blocks 4)) =
        some ([⟨2, 3, 4, 2559⟩], 'B', 'B') := by decide +kernel
  refine ⟨hlost, fun hall => ?_⟩
  have hlength : (bfs_shiftfile twoBlocks ⟨2, 3, 4, 2559⟩ 1 0).map length = some 9 := by
    decide +kernel
  cases hws : bfs_shiftfile twoBlocks ⟨2, 3, 4, 2559⟩ 1 0 with
  | none =>
    rw [hws] at hlength
    cases hlength
  | some ws =>
    rw [hws, map_some, some_inj] at hlength
    obtain ⟨ws', hws', hrec⟩ :=
      hall _ 0 _ 1 twoBlocks_laid ws hws 6 (by decide) (by rw [hlength]; decide)
    rw [crashed, hws, map_some, bind_some, hws', map_some, some_inj] at hlost
    have hslots : ((twoBlocks.puts (ws.take 6)).puts ws').inodes = [⟨2, 3, 4, 2559⟩] :=
      congrArg Prod.fst hlost
    have hentry := hrec.entry
    rw [hslots] at hentry
    exact absurd hentry (by decide)

end Svr42.BfsShift
